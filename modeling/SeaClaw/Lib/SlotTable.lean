import Mathlib.Data.List.Range
import Mathlib.Logic.Function.Basic
import Mathlib.Tactic.Common

/-!
# Tables of slots

Entries with distinct keys in the first slots of an array. A new entry goes behind the others,
and the last one takes the place of an entry that is removed. Looking up keys sees a map.
-/

namespace SeaClaw.Lib.SlotTable

variable {K E : Type*} [DecidableEq K] (key : E → K)

/-- The first slot whose entry has the key. -/
def indexOf (slots : ℕ → E) (count : ℕ) (k : K) : Option ℕ :=
  (List.range count).find? fun i => key (slots i) = k

/-- The entry with the key. -/
def value (slots : ℕ → E) (count : ℕ) (k : K) : Option E := (indexOf key slots count k).map slots

/-- The keys are distinct. -/
def Distinct (slots : ℕ → E) (count : ℕ) : Prop :=
  ∀ i < count, ∀ j < count, key (slots i) = key (slots j) → i = j

/-- The slots with the last entry in the place of another. -/
def fill (slots : ℕ → E) (count i : ℕ) : ℕ → E :=
  if i < count - 1 then Function.update slots i (slots (count - 1)) else slots

variable {key} {slots : ℕ → E} {count i : ℕ} {k : K} {e : E}

theorem indexOf_eq_some_iff (h : Distinct key slots count) :
    indexOf key slots count k = some i ↔ i < count ∧ key (slots i) = k := by
  constructor
  · intro hi
    exact ⟨List.mem_range.mp (List.mem_of_find?_eq_some hi), by simpa using List.find?_some hi⟩
  · rintro ⟨hlt, hkey⟩
    obtain ⟨j, hj⟩ : ∃ j, indexOf key slots count k = some j :=
      Option.isSome_iff_exists.mp (List.find?_isSome.mpr ⟨i, List.mem_range.mpr hlt, by simpa⟩)
    have hjlt := List.mem_range.mp (List.mem_of_find?_eq_some hj)
    have hjkey : key (slots j) = k := by simpa using List.find?_some hj
    rw [hj, h j hjlt i hlt (hjkey.trans hkey.symm)]

theorem indexOf_eq_none_iff :
    indexOf key slots count k = none ↔ ∀ i < count, key (slots i) ≠ k := by
  rw [indexOf, List.find?_eq_none]
  simp only [List.mem_range, decide_eq_true_eq]

theorem value_eq_none_iff : value key slots count k = none ↔ indexOf key slots count k = none :=
  Option.map_eq_none_iff

/-- The entry with a key is the one in the table that has it. -/
theorem value_eq_some_iff (h : Distinct key slots count) :
    value key slots count k = some e ↔ ∃ i < count, slots i = e ∧ key e = k := by
  rw [value, Option.map_eq_some_iff]
  constructor
  · rintro ⟨i, hi, rfl⟩
    obtain ⟨hlt, hkey⟩ := (indexOf_eq_some_iff h).mp hi
    exact ⟨i, hlt, rfl, hkey⟩
  · rintro ⟨i, hlt, rfl, hkey⟩
    exact ⟨i, (indexOf_eq_some_iff h).mpr ⟨hlt, hkey⟩, rfl⟩

theorem key_of_value (h : Distinct key slots count) (hv : value key slots count k = some e) :
    key e = k := by
  obtain ⟨i, -, -, hkey⟩ := (value_eq_some_iff h).mp hv
  exact hkey

/-! ## A new entry -/

theorem Distinct.push (h : Distinct key slots count) (hnew : value key slots count (key e) = none) :
    Distinct key (Function.update slots count e) (count + 1) := by
  have hne := indexOf_eq_none_iff.mp (value_eq_none_iff.mp hnew)
  have hold : ∀ i < count, Function.update slots count e i = slots i := fun i hi =>
    Function.update_of_ne hi.ne _ _
  intro i hi j hj hij
  rcases Nat.lt_succ_iff_lt_or_eq.mp hi with hi | rfl <;>
    rcases Nat.lt_succ_iff_lt_or_eq.mp hj with hj | rfl
  · rw [hold i hi, hold j hj] at hij
    exact h i hi j hj hij
  · rw [hold i hi, Function.update_self] at hij
    exact absurd hij (hne i hi)
  · rw [hold j hj, Function.update_self] at hij
    exact absurd hij.symm (hne j hj)
  · rfl

theorem value_push (h : Distinct key slots count) (hnew : value key slots count (key e) = none)
    (k : K) : value key (Function.update slots count e) (count + 1) k =
      if k = key e then some e else value key slots count k := by
  ext x
  rw [value_eq_some_iff (h.push hnew)]
  split_ifs with hk
  · subst hk
    constructor
    · rintro ⟨i, hi, hx, hkey⟩
      have hi := h.push hnew i hi count (Nat.lt_succ_self _) (by
        rw [hx, hkey, Function.update_self])
      rw [hi, Function.update_self] at hx
      rw [hx]
    · intro hx
      obtain rfl := Option.some.inj hx
      exact ⟨count, Nat.lt_succ_self _, Function.update_self _ _ _, rfl⟩
  · rw [value_eq_some_iff h]
    constructor
    · rintro ⟨i, hi, rfl, hkey⟩
      rcases Nat.lt_succ_iff_lt_or_eq.mp hi with hi | rfl
      · rw [Function.update_of_ne hi.ne] at hkey ⊢
        exact ⟨i, hi, rfl, hkey⟩
      · rw [Function.update_self] at hkey
        exact absurd hkey.symm hk
    · rintro ⟨i, hi, rfl, hkey⟩
      exact ⟨i, hi.trans (Nat.lt_succ_self _), Function.update_of_ne hi.ne _ _, hkey⟩

/-! ## An entry in the place of one with its key -/

omit [DecidableEq K] in
theorem Distinct.set (h : Distinct key slots count) (hkey : key e = key (slots i)) :
    Distinct key (Function.update slots i e) count := by
  have hsame : ∀ j, key (Function.update slots i e j) = key (slots j) := fun j => by
    by_cases hj : j = i
    · rw [hj, Function.update_self, hkey]
    · rw [Function.update_of_ne hj]
  intro a ha b hb hab
  rw [hsame, hsame] at hab
  exact h a ha b hb hab

theorem value_set (h : Distinct key slots count) (hi : i < count) (hkey : key e = key (slots i))
    (k : K) : value key (Function.update slots i e) count k =
      if k = key e then some e else value key slots count k := by
  ext x
  rw [value_eq_some_iff (h.set hkey)]
  split_ifs with hk
  · subst hk
    constructor
    · rintro ⟨j, hj, hx, hkx⟩
      obtain rfl := h.set hkey j hj i hi (by rw [hx, hkx, Function.update_self])
      rw [Function.update_self] at hx
      rw [hx]
    · intro hx
      obtain rfl := Option.some.inj hx
      exact ⟨i, hi, Function.update_self _ _ _, rfl⟩
  · rw [value_eq_some_iff h]
    constructor
    · rintro ⟨j, hj, rfl, hkx⟩
      by_cases hji : j = i
      · rw [hji, Function.update_self] at hkx
        exact absurd hkx.symm hk
      · rw [Function.update_of_ne hji] at hkx ⊢
        exact ⟨j, hj, rfl, hkx⟩
    · rintro ⟨j, hj, rfl, hkx⟩
      have hji : j ≠ i := by
        rintro rfl
        exact hk (hkx.symm.trans hkey.symm)
      exact ⟨j, hj, Function.update_of_ne hji _ _, hkx⟩

/-! ## A removed entry -/

/-- Behind a removal, each slot has an entry from another slot than the one that was removed. -/
theorem fill_eq (hi : i < count) {j : ℕ} (hj : j < count - 1) :
    ∃ a < count, a ≠ i ∧ fill slots count i j = slots a ∧ (j = i → a = count - 1) ∧
      (j ≠ i → a = j) := by
  rw [fill]
  by_cases hji : j = i
  · subst hji
    refine ⟨count - 1, by omega, by omega, ?_, fun _ => rfl, fun h => absurd rfl h⟩
    rw [if_pos hj, Function.update_self]
  · refine ⟨j, by omega, hji, ?_, fun h => absurd h hji, fun _ => rfl⟩
    split
    · rw [Function.update_of_ne hji]
    · rfl

omit [DecidableEq K] in
theorem Distinct.remove (h : Distinct key slots count) (hi : i < count) :
    Distinct key (fill slots count i) (count - 1) := by
  intro a ha b hb hab
  obtain ⟨a', ha', -, hfa, hai, haj⟩ := @fill_eq _ slots count i hi a ha
  obtain ⟨b', hb', -, hfb, hbi, hbj⟩ := @fill_eq _ slots count i hi b hb
  rw [hfa, hfb] at hab
  have := h a' ha' b' hb' hab
  by_cases ha : a = i <;> by_cases hb : b = i
  · rw [ha, hb]
  · have := hai ha
    have := hbj hb
    omega
  · have := haj ha
    have := hbi hb
    omega
  · have := haj ha
    have := hbj hb
    omega

/-- Only the key that is removed is gone. -/
theorem value_remove (h : Distinct key slots count) (hi : i < count) (k : K) :
    value key (fill slots count i) (count - 1) k =
      if k = key (slots i) then none else value key slots count k := by
  ext x
  rw [value_eq_some_iff (h.remove hi)]
  split_ifs with hk
  · refine iff_of_false ?_ nofun
    rintro ⟨j, hj, rfl, hkx⟩
    obtain ⟨a, ha, hai, hfa, -⟩ := @fill_eq _ slots count i hi j hj
    rw [hfa] at hkx
    exact hai (h a ha i hi (hkx.trans hk))
  · rw [value_eq_some_iff h]
    constructor
    · rintro ⟨j, hj, rfl, hkx⟩
      obtain ⟨a, ha, -, hfa, -⟩ := @fill_eq _ slots count i hi j hj
      rw [hfa] at hkx ⊢
      exact ⟨a, ha, rfl, hkx⟩
    · rintro ⟨j, hj, rfl, hkx⟩
      have hji : j ≠ i := by
        rintro rfl
        exact hk hkx.symm
      by_cases hlast : j = count - 1
      · subst hlast
        refine ⟨i, by omega, ?_, hkx⟩
        rw [fill, if_pos (by omega), Function.update_self]
      · refine ⟨j, by omega, ?_, hkx⟩
        rw [fill]
        split
        · rw [Function.update_of_ne hji]
        · rfl

end SeaClaw.Lib.SlotTable
