import Mathlib.Data.List.Nodup
import Mathlib.Data.List.Perm.Subperm
import Mathlib.Data.List.Range
import Mathlib.Order.Lattice

/-!
# Taking the best again and again

Indices below `n` are taken one after the other. A round looks at all that are not taken yet, and
takes the first of those with the largest gain, which may depend on what was taken before. If every
gain is above the value that the rounds start from, all indices are taken, and each is the best of
those that were left.
-/

namespace SeaClaw.Lib.GreedyOrder

variable {β : Type*} [LinearOrder β] (low : β) (gain : List ℕ → ℕ → β) (n : ℕ)

/-- One step of a round: `if (!selected[i] && gain > best) { best = gain; best_idx = i; }` -/
def improve (g : ℕ → β) (taken : List ℕ) (b : β × ℕ) (i : ℕ) : β × ℕ :=
  if i ∈ taken then b else if b.1 < g i then (g i, i) else b

/-- The index that a round takes. -/
def best (taken : List ℕ) : ℕ := ((List.range n).foldl (improve (gain taken) taken) (low, 0)).2

/-- The indices in the order in which they are taken. -/
def order : ℕ → List ℕ
  | 0 => []
  | k + 1 => order k ++ [best low gain n (order k)]

variable {low gain n}

/-- What a round knows behind the indices `l`. -/
theorem foldl_improve {g : ℕ → β} {taken : List ℕ} {l : List ℕ}
    (hlow : ∀ i ∈ l, i ∉ taken → low < g i) :
    (∀ i ∈ l, i ∈ taken) ∧ l.foldl (improve g taken) (low, 0) = (low, 0) ∨
      ∃ j ∈ l, j ∉ taken ∧ l.foldl (improve g taken) (low, 0) = (g j, j) ∧
        ∀ i ∈ l, i ∉ taken → g i ≤ g j := by
  induction l using List.reverseRecOn with
  | nil => exact Or.inl ⟨fun i hi => absurd hi List.not_mem_nil, rfl⟩
  | append_singleton l a ih =>
    rw [List.foldl_append, List.foldl_cons, List.foldl_nil]
    have hl := ih fun i hi => hlow i (List.mem_append_left _ hi)
    have hmem : ∀ i ∈ l ++ [a], i ∈ l ∨ i = a := by
      intro i hi
      simpa using hi
    by_cases ha : a ∈ taken
    · rw [improve, if_pos ha]
      rcases hl with ⟨hall, heq⟩ | ⟨j, hj, hfree, heq, hbest⟩
      · refine Or.inl ⟨?_, heq⟩
        intro i hi
        rcases hmem i hi with hi | rfl
        · exact hall i hi
        · exact ha
      · refine Or.inr ⟨j, List.mem_append_left _ hj, hfree, heq, ?_⟩
        intro i hi hi'
        rcases hmem i hi with hi | rfl
        · exact hbest i hi hi'
        · exact absurd ha hi'
    · have hself : a ∈ l ++ [a] := List.mem_append_right _ List.mem_cons_self
      rw [improve, if_neg ha]
      right
      rcases hl with ⟨hall, heq⟩ | ⟨j, hj, hfree, heq, hbest⟩
      · rw [heq, if_pos (hlow a hself ha)]
        refine ⟨a, hself, ha, rfl, ?_⟩
        intro i hi hi'
        rcases hmem i hi with hi | rfl
        · exact absurd (hall i hi) hi'
        · exact le_rfl
      · rw [heq]
        split_ifs with hlt
        · refine ⟨a, hself, ha, rfl, ?_⟩
          intro i hi hi'
          rcases hmem i hi with hi | rfl
          · exact (hbest i hi hi').trans hlt.le
          · exact le_rfl
        · refine ⟨j, List.mem_append_left _ hj, hfree, rfl, ?_⟩
          intro i hi hi'
          rcases hmem i hi with hi | rfl
          · exact hbest i hi hi'
          · exact not_lt.mp hlt

/-- A round takes the best of what is left, if anything is. -/
theorem best_spec {taken : List ℕ} (hlow : ∀ i < n, i ∉ taken → low < gain taken i)
    (hleft : ∃ i < n, i ∉ taken) :
    best low gain n taken < n ∧ best low gain n taken ∉ taken ∧
      ∀ i < n, i ∉ taken → gain taken i ≤ gain taken (best low gain n taken) := by
  have hrange : ∀ i ∈ List.range n, i ∉ taken → low < gain taken i := by
    intro i hi
    exact hlow i (List.mem_range.mp hi)
  rcases foldl_improve hrange with ⟨hall, -⟩ | ⟨j, hj, hfree, heq, hbest⟩
  · obtain ⟨i, hi, hfree⟩ := hleft
    exact absurd (hall i (List.mem_range.mpr hi)) hfree
  · rw [best, heq]
    exact ⟨List.mem_range.mp hj, hfree, fun i hi => hbest i (List.mem_range.mpr hi)⟩

theorem length_order (k : ℕ) : (order low gain n k).length = k := by
  induction k with
  | zero => rfl
  | succ k ih => rw [order, List.length_append, ih, List.length_singleton]

/-- What is taken first stays. -/
theorem take_order {j k : ℕ} (h : j ≤ k) :
    (order low gain n k).take j = order low gain n j := by
  induction k with
  | zero =>
    obtain rfl := Nat.le_zero.mp h
    rfl
  | succ k ih =>
    rcases Nat.le_succ_iff.mp h with h | rfl
    · rw [order, List.take_append_of_le_length (by rwa [length_order]), ih h]
    · rw [List.take_of_length_le (length_order _).le]

section All

variable (hlow : ∀ taken : List ℕ, ∀ i < n, low < gain taken i)
include hlow

/-- Up to round `n` there is always something left to take. -/
theorem order_spec {k : ℕ} (hk : k ≤ n) :
    (order low gain n k).Nodup ∧ ∀ i ∈ order low gain n k, i < n := by
  induction k with
  | zero => exact ⟨List.nodup_nil, fun i hi => absurd hi List.not_mem_nil⟩
  | succ k ih =>
    obtain ⟨hnodup, hlt⟩ := ih (Nat.le_of_succ_le hk)
    have hleft : ∃ i < n, i ∉ order low gain n k := by
      by_contra hno
      have hsub : List.range n ⊆ order low gain n k := by
        intro i hi
        by_contra hfree
        exact hno ⟨i, List.mem_range.mp hi, hfree⟩
      have hle := (List.nodup_range.subperm hsub).length_le
      rw [List.length_range, length_order] at hle
      omega
    obtain ⟨hb, hfree, -⟩ := best_spec (fun i hi _ => hlow _ i hi) hleft
    rw [order, ← List.concat_eq_append]
    refine ⟨?_, ?_⟩
    · exact hnodup.concat hfree
    · intro i hi
      rw [List.concat_eq_append] at hi
      rcases List.mem_append.mp hi with hi | hi
      · exact hlt i hi
      · rw [List.mem_singleton.mp hi]
        exact hb

/-- All indices are taken. -/
theorem order_perm : (order low gain n n).Perm (List.range n) := by
  obtain ⟨hnodup, hlt⟩ := order_spec hlow (le_refl n)
  have hsub : order low gain n n ⊆ List.range n := fun i hi => List.mem_range.mpr (hlt i hi)
  exact (hnodup.subperm hsub).perm_of_length_le (by rw [List.length_range, length_order])

/-- Each index is the best of those that were left when it was taken. -/
theorem order_best {p j : ℕ} (hj : (order low gain n n)[p]? = some j) {i : ℕ} (hi : i < n)
    (hfree : i ∉ (order low gain n n).take p) :
    gain ((order low gain n n).take p) i ≤ gain ((order low gain n n).take p) j := by
  obtain ⟨hp, heq⟩ := List.getElem?_eq_some_iff.mp hj
  rw [length_order] at hp
  have htake : (order low gain n n).take (p + 1) = order low gain n (p + 1) := take_order hp
  rw [take_order hp.le] at hfree ⊢
  have hlast : (order low gain n (p + 1))[p]? = some j := by
    rw [← htake, List.getElem?_take_of_lt (Nat.lt_succ_self p), hj]
  rw [order, List.getElem?_append_right (length_order p).le, length_order, Nat.sub_self] at hlast
  obtain rfl := Option.some.inj hlast
  exact (best_spec (fun i hi _ => hlow _ i hi) ⟨i, hi, hfree⟩).2.2 i hi hfree

end All

/-! ## The items that are taken -/

variable {α : Type*} (low gain) (xs : List α)

/-- The items in the order in which their indices are taken. -/
def picked : List α := (order low gain xs.length xs.length).filterMap (xs[·]?)

variable {low gain xs}

theorem filterMap_range : (List.range xs.length).filterMap (xs[·]?) = xs := by
  induction xs with
  | nil => rfl
  | cons x xs ih =>
    rw [List.length_cons, List.range_succ_eq_map, List.filterMap_cons_some (by rfl),
      List.filterMap_map]
    exact congrArg (x :: ·) ih

section Items

variable (hlow : ∀ taken : List ℕ, ∀ i < xs.length, low < gain taken i)
include hlow

/-- Every item is taken, none twice. -/
theorem picked_perm : (picked low gain xs).Perm xs := by
  have hperm := (order_perm hlow).filterMap (xs[·]?)
  rwa [filterMap_range] at hperm

/-- Each item that is taken is the best of itself and those that are taken later. -/
theorem picked_best {l r : List α} {e : α} (h : picked low gain xs = l ++ e :: r) :
    ∃ taken : List ℕ, ∃ j, (∀ t ∈ taken, t < xs.length) ∧ l = taken.filterMap (xs[·]?) ∧
      j ∉ taken ∧ xs[j]? = some e ∧
        ∀ d ∈ r, ∃ i, i ∉ taken ∧ xs[i]? = some d ∧ gain taken i ≤ gain taken j := by
  obtain ⟨taken, rest, horder, htaken, hrest⟩ := List.filterMap_eq_append_iff.mp h
  obtain ⟨skipped, j, later, rfl, hskipped, hj, hlater⟩ := List.filterMap_eq_cons_iff.mp hrest
  obtain ⟨hnodup, hbound⟩ := order_spec hlow (le_refl xs.length)
  rw [horder] at hnodup hbound
  have hnone : skipped = [] := by
    apply List.eq_nil_iff_forall_not_mem.mpr
    intro i hi
    have hlt := hbound i (List.mem_append_right _ (List.mem_append_left _ hi))
    have hout := List.getElem?_eq_none_iff.mp (hskipped i hi)
    omega
  subst hnone
  rw [List.nil_append] at horder hnodup hbound
  have hapart := (List.nodup_append.mp hnodup).2.2
  have htaken_lt : ∀ t ∈ taken, t < xs.length :=
    fun t ht => hbound t (List.mem_append_left _ ht)
  refine ⟨taken, j, htaken_lt, htaken.symm,
    fun hmem => hapart j hmem j List.mem_cons_self rfl, hj, ?_⟩
  intro d hd
  rw [← hlater] at hd
  obtain ⟨i, hi, hid⟩ := List.mem_filterMap.mp hd
  have hfree : i ∉ taken := fun hmem => hapart i hmem i (List.mem_cons_of_mem _ hi) rfl
  have hget : (order low gain xs.length xs.length)[taken.length]? = some j := by
    rw [horder, List.getElem?_append_right le_rfl, Nat.sub_self]
    rfl
  have hlt : i < xs.length :=
    hbound i (List.mem_append_right _ (List.mem_cons_of_mem _ hi))
  have htake : (order low gain xs.length xs.length).take taken.length = taken := by
    rw [horder, List.take_left]
  have hbest := order_best hlow hget hlt (by rwa [htake])
  rw [htake] at hbest
  exact ⟨i, hfree, hid, hbest⟩

end Items

end SeaClaw.Lib.GreedyOrder
