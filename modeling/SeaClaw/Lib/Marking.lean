import Mathlib.Data.List.FinRange
import Mathlib.Data.Fintype.Card
import Mathlib.Data.Fintype.EquivFin
import Mathlib.Logic.Relation
import Mathlib.Order.WellFounded

/-!
# Marks over the slots of an array

A pass marks slots and gives for each mark another slot that stands for it. When a slot only
stands for smaller ones in some order, each marked slot has an unmarked one at the end of a
chain, whatever the order in which the marks were made.
-/

namespace SeaClaw.Lib

/-- Which slots are marked. -/
abbrev Marks (n : ℕ) := Fin n → Bool

variable {n : ℕ}

/-- `marks[i] = true` -/
def mark (m : Marks n) (i : Fin n) : Marks n := Function.update m i true

/-- The slots behind a slot, in their order. -/
def later (i : Fin n) : List (Fin n) := (List.finRange n).filter (i < ·)

@[simp] theorem mark_self (m : Marks n) (i : Fin n) : mark m i i = true := Function.update_self ..

theorem mark_of_ne (m : Marks n) {i j : Fin n} (h : j ≠ i) : mark m i j = m j :=
  Function.update_of_ne h ..

/-- A mark stays. -/
theorem mark_of_true {m : Marks n} {i j : Fin n} (h : m j = true) : mark m i j = true := by
  by_cases hij : j = i
  · rw [hij, mark_self]
  · rw [mark_of_ne m hij, h]

@[simp] theorem mem_later {i j : Fin n} : j ∈ later i ↔ i < j := by
  simp [later]

/-- For each marked slot there is another one that stands for it. -/
def Answered (edge : Fin n → Fin n → Prop) (m : Marks n) : Prop :=
  ∀ x, m x = true → ∃ y, edge x y

theorem answered_none (edge : Fin n → Fin n → Prop) : Answered edge fun _ => false := by
  intro x hx
  exact absurd hx (by simp)

theorem Answered.mark {edge : Fin n → Fin n → Prop} {m : Marks n} {i j : Fin n}
    (h : Answered edge m) (he : edge i j) : Answered edge (mark m i) := by
  intro x hx
  by_cases hi : x = i
  · rw [hi]
    exact ⟨j, he⟩
  · rw [mark_of_ne m hi] at hx
    exact h x hx

/-- What each turn of a loop keeps, the loop keeps. -/
theorem foldl_keeps {α β : Type*} {P : β → Prop} {f : β → α → β} {l : List α}
    (hf : ∀ b, ∀ a ∈ l, P b → P (f b a)) {b : β} (hb : P b) : P (l.foldl f b) := by
  induction l generalizing b with
  | nil => exact hb
  | cons a l ih =>
    rw [List.foldl_cons]
    apply ih
    · intro b a ha
      exact hf b a (List.mem_cons_of_mem _ ha)
    · exact hf b a List.mem_cons_self hb

/-- Among the slots of a kind, a marked one has an unmarked one at the end of a chain. -/
theorem exists_unmarked_of {κ : Type*} [LinearOrder κ] {edge : Fin n → Fin n → Prop}
    {m : Marks n} (kind : Fin n → Prop)
    (h : ∀ x, kind x → m x = true → ∃ y, kind y ∧ edge x y) (key : Fin n → κ)
    (hkey : ∀ x y, edge x y → key x < key y) {x : Fin n} (hkind : kind x) (hx : m x = true) :
    ∃ y, kind y ∧ m y = false ∧ Relation.TransGen edge x y := by
  have hwf : WellFounded fun y x : Fin n => key x < key y := by
    have : IsTrans (Fin n) fun y x => key x < key y := ⟨fun _ _ _ hab hbc => hbc.trans hab⟩
    have : Std.Irrefl fun y x : Fin n => key x < key y := ⟨fun _ => lt_irrefl _⟩
    exact Finite.wellFounded_of_trans_of_irrefl _
  induction x using hwf.induction with
  | h x ih =>
    obtain ⟨y, hky, hy⟩ := h x hkind hx
    by_cases hmy : m y = true
    · obtain ⟨z, hkz, hz, hchain⟩ := ih y (hkey x y hy) hky hmy
      exact ⟨z, hkz, hz, Relation.TransGen.head hy hchain⟩
    · exact ⟨y, hky, by simpa using hmy, Relation.TransGen.single hy⟩

/-- A marked slot has an unmarked one at the end of a chain. -/
theorem Answered.exists_unmarked {κ : Type*} [LinearOrder κ] {edge : Fin n → Fin n → Prop}
    {m : Marks n} (h : Answered edge m) (key : Fin n → κ)
    (hkey : ∀ x y, edge x y → key x < key y) {x : Fin n} (hx : m x = true) :
    ∃ y, m y = false ∧ Relation.TransGen edge x y := by
  obtain ⟨y, -, hy⟩ := exists_unmarked_of (fun _ => True)
    (fun x _ hx => (h x hx).imp fun _ he => ⟨trivial, he⟩) key hkey trivial hx
  exact ⟨y, hy⟩

/-- The marks after the first `b` turns of a loop over the slots. -/
def turns (f : Marks n → Fin n → Marks n) (m : Marks n) (b : ℕ) : Marks n :=
  ((List.finRange n).take b).foldl f m

end SeaClaw.Lib
