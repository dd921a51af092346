import Mathlib.Data.Set.Card
import Mathlib.Logic.Function.Basic

/-!
# Maps that forget what was used least recently

A map of bounded size knows when each key was last used. A new key in a full map takes the
place of the key whose last use is the oldest. A list of the pairs in the order of their last
use, the latest first, stands for such a map: every use of a key moves its pair to the front,
and the key that has to go is at the end.
-/

namespace SeaClaw.Lib.Lru

variable {K V : Type*}

/-- The values that are held, and the times of the last uses. -/
structure Uses (K V : Type*) where
  value : K → Option V
  used : K → ℕ
  time : ℕ

namespace Uses

/-- Nothing is held. -/
def empty : Uses K V := ⟨fun _ => none, fun _ => 0, 0⟩

/-- Every key is given up. -/
def clear (s : Uses K V) : Uses K V := { s with value := fun _ => none }

/-- The keys that are held. -/
def held (s : Uses K V) : Set K := {k | ∃ v, s.value k = some v}

/-- No key that is held has an older last use. -/
def Oldest (s : Uses K V) (k : K) : Prop := k ∈ s.held ∧ ∀ x ∈ s.held, s.used k ≤ s.used x

/-- A new key `k` in a map with `cap` keys drives `x` out. -/
def Evicts (cap : ℕ) (k : K) (s : Uses K V) (x : K) : Prop :=
  k ∉ s.held ∧ cap ≤ s.held.ncard ∧ s.Oldest x

variable [DecidableEq K]

open Classical in
/-- A use of a key that is held. -/
noncomputable def touch (k : K) (s : Uses K V) : Uses K V :=
  if k ∈ s.held then { s with used := Function.update s.used k (s.time + 1), time := s.time + 1 }
  else s

open Classical in
/-- A value for a key, in a map for `cap` keys. -/
noncomputable def put (cap : ℕ) (k : K) (v : V) (s : Uses K V) : Uses K V where
  value x := if x = k then some v else if s.Evicts cap k x then none else s.value x
  used := Function.update s.used k (s.time + 1)
  time := s.time + 1

/-- A key is given up. -/
def erase (k : K) (s : Uses K V) : Uses K V :=
  { s with value := Function.update s.value k none }

@[simp] theorem value_put_self (cap : ℕ) (k : K) (v : V) (s : Uses K V) :
    (s.put cap k v).value k = some v := if_pos rfl

theorem mem_held_put_self (cap : ℕ) (k : K) (v : V) (s : Uses K V) : k ∈ (s.put cap k v).held :=
  ⟨v, value_put_self cap k v s⟩

/-- Only the key that is put can come to those that are held. -/
theorem mem_held_of_put {cap : ℕ} {k x : K} {v : V} {s : Uses K V} (h : x ∈ (s.put cap k v).held) :
    x = k ∨ x ∈ s.held := by
  obtain ⟨w, hw⟩ := h
  by_cases hx : x = k
  · exact Or.inl hx
  · simp only [put, if_neg hx] at hw
    split at hw
    · exact absurd hw nofun
    · exact Or.inr ⟨w, hw⟩

end Uses

/-- The list holds the pairs of the map, the latest use first. -/
structure Ordered (l : List (K × V)) (s : Uses K V) : Prop where
  keys : (l.map Prod.fst).Nodup
  value : ∀ k v, s.value k = some v ↔ (k, v) ∈ l
  recent : (l.map Prod.fst).Pairwise fun a b => s.used b < s.used a
  past : ∀ p ∈ l, s.used p.1 ≤ s.time

variable {l l₁ l₂ : List (K × V)} {s : Uses K V} {k : K} {v w : V}

theorem ordered_nil (s : Uses K V) : Ordered [] s.clear :=
  ⟨List.nodup_nil, by simp [Uses.clear], List.Pairwise.nil, by simp⟩

theorem ordered_empty : Ordered [] (Uses.empty : Uses K V) := ordered_nil Uses.empty

section Held

theorem Ordered.mem_held (h : Ordered l s) : k ∈ s.held ↔ k ∈ l.map Prod.fst := by
  simp only [Uses.held, Set.mem_ofPred_eq, h.value, List.mem_map, Prod.exists, exists_and_right,
    exists_eq_right]

/-- A key that is not in the list has no value. -/
theorem Ordered.value_eq_none (h : Ordered l s) (hk : k ∉ l.map Prod.fst) : s.value k = none := by
  rw [← h.mem_held] at hk
  exact Option.eq_none_iff_forall_ne_some.mpr fun v hv => hk ⟨v, hv⟩

/-- The list has as many pairs as there are keys. -/
theorem Ordered.ncard_held (h : Ordered l s) : s.held.ncard = l.length := by
  classical
  have heq : s.held = ↑(l.map Prod.fst).toFinset := by
    ext k
    rw [h.mem_held, Finset.mem_coe, List.mem_toFinset]
  rw [heq, Set.ncard_coe_finset, List.toFinset_card_of_nodup h.keys, List.length_map]

/-- The key with the oldest use is that of the last pair. -/
theorem Ordered.oldest_iff {p : K × V} (h : Ordered (l ++ [p]) s) (x : K) :
    s.Oldest x ↔ x = p.1 := by
  have hlt : ∀ q ∈ l, s.used p.1 < s.used q.1 := by
    have hr := h.recent
    rw [List.map_append, List.pairwise_append] at hr
    intro q hq
    exact hr.2.2 q.1 (List.mem_map_of_mem hq) p.1 (by simp)
  have hp : p.1 ∈ s.held := h.mem_held.mpr (by simp)
  constructor
  · rintro ⟨hx, hle⟩
    have hmem := h.mem_held.mp hx
    rw [List.map_append, List.mem_append] at hmem
    rcases hmem with hmem | hmem
    · obtain ⟨q, hq, rfl⟩ := List.mem_map.mp hmem
      have := hle p.1 hp
      have := hlt q hq
      omega
    · simpa using hmem
  · rintro rfl
    refine ⟨hp, fun x hx => ?_⟩
    have hmem := h.mem_held.mp hx
    rw [List.map_append, List.mem_append] at hmem
    rcases hmem with hmem | hmem
    · obtain ⟨q, hq, rfl⟩ := List.mem_map.mp hmem
      exact (hlt q hq).le
    · rw [List.map_singleton, List.mem_singleton] at hmem
      rw [hmem]

/-- A part of the list stands for the map with the values of that part. -/
theorem Ordered.sublist (h : Ordered l s) {m : List (K × V)} (hm : m.Sublist l) {s' : Uses K V}
    (hvalue : ∀ x u, s'.value x = some u ↔ (x, u) ∈ m) (hused : s'.used = s.used)
    (htime : s'.time = s.time) : Ordered m s' := by
  refine ⟨h.keys.sublist (hm.map _), hvalue, ?_, ?_⟩
  · rw [hused]
    exact h.recent.sublist (hm.map _)
  · rw [hused, htime]
    exact fun p hp => h.past p (hm.subset hp)

/-- The pair of a key in the middle of the list is the only one of its key. -/
theorem Ordered.notMem_rest (h : Ordered (l₁ ++ (k, w) :: l₂) s) :
    k ∉ (l₁ ++ l₂).map Prod.fst := by
  have hkeys := h.keys
  rw [List.map_append, List.map_cons, List.nodup_middle, List.nodup_cons] at hkeys
  rw [List.map_append]
  exact hkeys.1

end Held

section Operations

variable [DecidableEq K]

/-- A list of other keys, with their uses as before, and a key that is used now in front. -/
theorem Ordered.cons {t : Uses K V} (hl : Ordered l t) (hk : k ∉ l.map Prod.fst) {s' : Uses K V}
    (hvalue : ∀ x, s'.value x = if x = k then some v else t.value x)
    (hused : ∀ x, x ≠ k → s'.used x = t.used x) (hnow : s'.used k = t.time + 1)
    (htime : s'.time = t.time + 1) : Ordered ((k, v) :: l) s' := by
  have hne : ∀ x ∈ l.map Prod.fst, x ≠ k := fun x hx he => hk (he ▸ hx)
  have hpast : ∀ x ∈ l.map Prod.fst, t.used x ≤ t.time := by
    intro x hx
    obtain ⟨p, hp, rfl⟩ := List.mem_map.mp hx
    exact hl.past p hp
  refine ⟨?_, ?_, ?_, ?_⟩
  · rw [List.map_cons, List.nodup_cons]
    exact ⟨hk, hl.keys⟩
  · intro x u
    rw [hvalue, List.mem_cons, Prod.mk.injEq]
    by_cases hx : x = k
    · subst hx
      have hnot : (x, u) ∉ l := fun hu => hk (List.mem_map_of_mem (f := Prod.fst) hu)
      rw [if_pos rfl, Option.some.injEq]
      simp only [hnot, true_and, or_false]
      exact eq_comm
    · rw [if_neg hx, hl.value]
      simp only [hx, false_and, false_or]
  · rw [List.map_cons, List.pairwise_cons]
    constructor
    · intro x hx
      rw [hnow, hused x (hne x hx)]
      have := hpast x hx
      omega
    · refine hl.recent.imp_of_mem fun {a b} ha hb hab => ?_
      rw [hused a (hne a ha), hused b (hne b hb)]
      exact hab
  · intro p hp
    rcases List.mem_cons.mp hp with rfl | hp
    · rw [hnow, htime]
    · have hmem : p.1 ∈ l.map Prod.fst := List.mem_map_of_mem hp
      rw [hused p.1 (hne p.1 hmem), htime]
      have := hpast p.1 hmem
      omega

/-- A key that is given up leaves the list. -/
theorem Ordered.erase (h : Ordered (l₁ ++ (k, w) :: l₂) s) : Ordered (l₁ ++ l₂) (s.erase k) := by
  have hsub : (l₁ ++ l₂).Sublist (l₁ ++ (k, w) :: l₂) :=
    List.Sublist.append_left (List.sublist_cons_self _ _) _
  refine h.sublist hsub (fun x u => ?_) rfl rfl
  simp only [Uses.erase, Function.update_apply]
  by_cases hx : x = k
  · subst hx
    rw [if_pos rfl]
    refine iff_of_false nofun fun hu => ?_
    exact h.notMem_rest (List.mem_map_of_mem (f := Prod.fst) hu)
  · rw [if_neg hx, h.value]
    simp only [List.mem_append, List.mem_cons, Prod.mk.injEq, hx, false_and, false_or]

/-- Nothing is given up for a key that is not held. -/
theorem Ordered.erase_of_notMem (h : Ordered l s) (hk : k ∉ l.map Prod.fst) :
    Ordered l (s.erase k) := by
  refine h.sublist (List.Sublist.refl l) (fun x u => ?_) rfl rfl
  simp only [Uses.erase, Function.update_apply]
  by_cases hx : x = k
  · subst hx
    rw [if_pos rfl]
    exact iff_of_false nofun fun hu => hk (List.mem_map_of_mem (f := Prod.fst) hu)
  · rw [if_neg hx, h.value]

/-- A use of a key moves its pair to the front. -/
theorem Ordered.touch (h : Ordered (l₁ ++ (k, w) :: l₂) s) :
    Ordered ((k, w) :: (l₁ ++ l₂)) (s.touch k) := by
  have hk : k ∈ s.held := h.mem_held.mpr (by simp)
  have hw : s.value k = some w := (h.value k w).mpr (by simp)
  refine h.erase.cons h.notMem_rest ?_ ?_ ?_ ?_
  · intro x
    simp only [Uses.touch, if_pos hk, Uses.erase, Function.update_apply]
    by_cases hx : x = k
    · rw [if_pos hx, hx, hw]
    · rw [if_neg hx, if_neg hx]
  · intro x hx
    simp only [Uses.touch, if_pos hk, Uses.erase, Function.update_of_ne hx]
  · simp only [Uses.touch, if_pos hk, Uses.erase, Function.update_self]
  · simp only [Uses.touch, if_pos hk, Uses.erase]

/-- A look at a key that is not held is no use. -/
theorem Ordered.touch_of_notMem (h : Ordered l s) (hk : k ∉ l.map Prod.fst) : s.touch k = s := by
  rw [Uses.touch, if_neg (fun hheld => hk (h.mem_held.mp hheld))]

/-- A new value for a key of the list drives nothing out. -/
theorem Ordered.put_replace (cap : ℕ) (v : V) (h : Ordered (l₁ ++ (k, w) :: l₂) s) :
    Ordered ((k, v) :: (l₁ ++ l₂)) (s.put cap k v) := by
  have hk : k ∈ s.held := h.mem_held.mpr (by simp)
  refine h.erase.cons h.notMem_rest ?_ ?_ ?_ rfl
  · intro x
    have hev : ¬ s.Evicts cap k x := fun he => he.1 hk
    simp only [Uses.put, if_neg hev, Uses.erase, Function.update_apply]
    by_cases hx : x = k
    · rw [if_pos hx, if_pos hx]
    · rw [if_neg hx, if_neg hx, if_neg hx]
  · intro x hx
    simp only [Uses.put, Uses.erase, Function.update_of_ne hx]
  · simp only [Uses.put, Uses.erase, Function.update_self]

/-- A new key goes to the front of a list with room. -/
theorem Ordered.put_new {cap : ℕ} (v : V) (h : Ordered l s) (hk : k ∉ l.map Prod.fst)
    (hroom : l.length < cap) : Ordered ((k, v) :: l) (s.put cap k v) := by
  refine h.cons hk ?_ ?_ ?_ rfl
  · intro x
    have hev : ¬ s.Evicts cap k x := fun he => by
      have := he.2.1
      rw [h.ncard_held] at this
      omega
    simp only [Uses.put, if_neg hev]
  · intro x hx
    simp only [Uses.put, Function.update_of_ne hx]
  · simp only [Uses.put, Function.update_self]

/-- A new key in a full list takes the place of the last pair. -/
theorem Ordered.put_evict {cap : ℕ} (v : V) {p : K × V} (h : Ordered (l ++ [p]) s)
    (hk : k ∉ (l ++ [p]).map Prod.fst) (hfull : cap ≤ l.length + 1) :
    Ordered ((k, v) :: l) (s.put cap k v) := by
  have hp : Ordered (l ++ (p.1, p.2) :: []) s := h
  have herase := hp.erase
  rw [List.append_nil] at herase
  have hkl : k ∉ l.map Prod.fst := fun hmem => hk (by
    rw [List.map_append]
    exact List.mem_append_left _ hmem)
  refine herase.cons hkl ?_ ?_ ?_ rfl
  · intro x
    have hev : s.Evicts cap k x ↔ x = p.1 := by
      rw [Uses.Evicts, h.mem_held, h.ncard_held, h.oldest_iff, List.length_append,
        List.length_singleton]
      exact ⟨fun he => he.2.2, fun he => ⟨hk, hfull, he⟩⟩
    simp only [Uses.put, hev, Uses.erase, Function.update_apply]
  · intro x hx
    simp only [Uses.put, Uses.erase, Function.update_of_ne hx]
  · simp only [Uses.put, Uses.erase, Function.update_self]

end Operations

end SeaClaw.Lib.Lru
