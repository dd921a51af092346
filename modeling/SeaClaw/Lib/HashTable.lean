import Mathlib.Data.List.Nodup
import Mathlib.Logic.Function.Basic
import Mathlib.Tactic.Common

/-!
# Tables with chains

A table has a chain of entries for each place, and a key has a place. A key is looked up, and
removed, in the chain of its place alone, where the first entry with the key counts.
-/

namespace SeaClaw.Lib.HashTable

variable {K E : Type*} [DecidableEq K] (place : K → ℕ) (key : E → K) (table : ℕ → List E)

/-- The first entry with the key in its chain. -/
def find (k : K) : Option E := (table (place k)).find? fun e => key e = k

/-- The table with an entry in front of the chain of a place. -/
def push (i : ℕ) (e : E) : ℕ → List E := Function.update table i (e :: table i)

/-- The table without the first entry with the key in its chain. -/
def erase (k : K) : ℕ → List E :=
  Function.update table (place k) ((table (place k)).eraseP fun e => key e = k)

/-- The chain with its first entry with the key changed. -/
def adjust (key : E → K) (k : K) (f : E → E) : List E → List E
  | [] => []
  | e :: es => if key e = k then f e :: es else e :: adjust key k f es

/-- The table with the first entry with the key in its chain changed. -/
def modify (k : K) (f : E → E) : ℕ → List E :=
  Function.update table (place k) (adjust key k f (table (place k)))

/-- No chain has two entries with one key. -/
def Distinct : Prop := ∀ i, ((table i).map key).Nodup

variable {place key table}

theorem find_key {k : K} {e : E} (h : find place key table k = some e) : key e = k := by
  simpa using List.find?_some h

/-- An entry that stands in the chain of its key is found. -/
theorem Distinct.find_of_mem (hd : Distinct key table) {e : E} (he : e ∈ table (place (key e))) :
    find place key table (key e) = some e := by
  rw [find]
  cases hfind : (table (place (key e))).find? fun b => key b = key e with
  | none => exact absurd (List.find?_eq_none.mp hfind e he) (by simp)
  | some b =>
    have hkey : key b = key e := by simpa using List.find?_some hfind
    rw [List.inj_on_of_nodup_map (hd _) (List.mem_of_find?_eq_some hfind) he hkey]

/-- A new entry in the chain of its key is found. -/
theorem find_push_self {e : E} {k : K} (he : key e = k) :
    find place key (push table (place k) e) k = some e := by
  rw [find, push, Function.update_self, List.find?_cons_of_pos (by simpa using he)]

/-- A new entry does not matter to the other keys, wherever it stands. -/
theorem find_push_of_ne (i : ℕ) {e : E} {k : K} (h : key e ≠ k) :
    find place key (push table i e) k = find place key table k := by
  rw [find, find, push]
  by_cases hi : place k = i
  · subst hi
    rw [Function.update_self, List.find?_cons_of_neg (by simpa using h)]
  · rw [Function.update_of_ne hi]

/-- An entry for a key that was not found is the only one for it. -/
theorem Distinct.push (hd : Distinct key table) {e : E} {k : K} (he : key e = k)
    (hnone : find place key table k = none) : Distinct key (push table (place k) e) := by
  intro i
  by_cases hi : i = place k
  · subst hi
    rw [HashTable.push, Function.update_self, List.map_cons, List.nodup_cons]
    refine ⟨fun hmem => ?_, hd _⟩
    obtain ⟨b, hb, hkey⟩ := List.mem_map.mp hmem
    have := List.find?_eq_none.mp hnone b hb
    simp [hkey, he] at this
  · rw [HashTable.push, Function.update_of_ne hi]
    exact hd i

theorem find?_adjust_self {k : K} {f : E → E} (hf : ∀ e, key (f e) = key e) (es : List E) :
    (adjust key k f es).find? (fun e => key e = k) = (es.find? fun e => key e = k).map f := by
  induction es with
  | nil => rfl
  | cons e es ih =>
    rw [adjust]
    by_cases he : key e = k
    · rw [if_pos he, List.find?_cons_of_pos (by simpa [hf] using he),
        List.find?_cons_of_pos (by simpa using he)]
      rfl
    · rw [if_neg he, List.find?_cons_of_neg (by simpa using he),
        List.find?_cons_of_neg (by simpa using he), ih]

theorem find?_adjust_of_ne {k k' : K} {f : E → E} (hf : ∀ e, key (f e) = key e) (hne : k ≠ k')
    (es : List E) :
    (adjust key k f es).find? (fun e => key e = k') = es.find? fun e => key e = k' := by
  induction es with
  | nil => rfl
  | cons e es ih =>
    rw [adjust]
    by_cases he : key e = k
    · have he' : key e ≠ k' := fun h => hne (he.symm.trans h)
      rw [if_pos he, List.find?_cons_of_neg (by simpa [hf] using he'),
        List.find?_cons_of_neg (by simpa using he')]
    · rw [if_neg he]
      by_cases he' : key e = k'
      · rw [List.find?_cons_of_pos (by simpa using he'), List.find?_cons_of_pos (by simpa using he')]
      · rw [List.find?_cons_of_neg (by simpa using he'), List.find?_cons_of_neg (by simpa using he'),
          ih]

/-- The entry of the key is changed. -/
theorem find_modify_self {k : K} {f : E → E} (hf : ∀ e, key (f e) = key e) :
    find place key (modify place key table k f) k = (find place key table k).map f := by
  rw [find, modify, Function.update_self, find?_adjust_self hf]
  rfl

/-- The entries of the other keys stay. -/
theorem find_modify_of_ne {k k' : K} {f : E → E} (hf : ∀ e, key (f e) = key e) (hne : k ≠ k') :
    find place key (modify place key table k f) k' = find place key table k' := by
  rw [find, find, modify]
  by_cases hi : place k' = place k
  · rw [hi, Function.update_self, find?_adjust_of_ne hf hne]
  · rw [Function.update_of_ne hi]

theorem find?_eraseP_self {k : K} {es : List E} (h : (es.map key).Nodup) :
    (es.eraseP fun e => key e = k).find? (fun e => key e = k) = none := by
  induction es with
  | nil => rfl
  | cons e es ih =>
    rw [List.map_cons, List.nodup_cons] at h
    by_cases he : key e = k
    · rw [List.eraseP_cons_of_pos (by simpa using he), List.find?_eq_none]
      intro b hb hbk
      refine h.1 ?_
      rw [he, ← of_decide_eq_true hbk]
      exact List.mem_map_of_mem hb
    · rw [List.eraseP_cons_of_neg (by simpa using he), List.find?_cons_of_neg (by simpa using he)]
      exact ih h.2

theorem find?_eraseP_of_ne {k k' : K} (hne : k ≠ k') (es : List E) :
    (es.eraseP fun e => key e = k).find? (fun e => key e = k') =
      es.find? fun e => key e = k' := by
  induction es with
  | nil => rfl
  | cons e es ih =>
    by_cases he : key e = k
    · have hk' : ¬ key e = k' := fun h => hne (he.symm.trans h)
      rw [List.eraseP_cons_of_pos (by simpa using he), List.find?_cons_of_neg (by simpa using hk')]
    · rw [List.eraseP_cons_of_neg (by simpa using he)]
      by_cases hk' : key e = k'
      · rw [List.find?_cons_of_pos (by simpa using hk'), List.find?_cons_of_pos (by simpa using hk')]
      · rw [List.find?_cons_of_neg (by simpa using hk'), List.find?_cons_of_neg (by simpa using hk'),
          ih]

/-- A key that was removed is found no more. -/
theorem find_erase_self (hd : Distinct key table) (k : K) :
    find place key (erase place key table k) k = none := by
  rw [find, erase, Function.update_self]
  exact find?_eraseP_self (hd _)

theorem find_erase_of_ne {k k' : K} (h : k ≠ k') :
    find place key (erase place key table k) k' = find place key table k' := by
  rw [find, find, erase]
  by_cases hi : place k' = place k
  · rw [hi, Function.update_self]
    exact find?_eraseP_of_ne h _
  · rw [Function.update_of_ne hi]

theorem Distinct.erase (hd : Distinct key table) (k : K) : Distinct key (erase place key table k) := by
  intro i
  by_cases hi : i = place k
  · subst hi
    rw [HashTable.erase, Function.update_self]
    exact (List.eraseP_sublist.map key).nodup (hd _)
  · rw [HashTable.erase, Function.update_of_ne hi]
    exact hd i

end SeaClaw.Lib.HashTable
