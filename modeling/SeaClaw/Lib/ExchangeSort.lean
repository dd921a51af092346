import Mathlib

/-!
# Sorting by exchanges

Two nested loops: the slot at the outer index is exchanged with each later one whose key is
larger. The result is in decreasing order of the keys.
-/

namespace SeaClaw.Lib

variable {α β : Type*} [LinearOrder β] (key : α → β)

/-- `for (j = i + 1; j < n; j++) if (key(a[j]) > key(a[i])) swap(a[i], a[j]);`, with `x` at `i`. -/
def exchange (x : α) : List α → α × List α
  | [] => (x, [])
  | y :: l =>
    if key x < key y then ((exchange y l).1, x :: (exchange y l).2)
    else ((exchange x l).1, y :: (exchange x l).2)

theorem exchange_perm (x : α) (l : List α) :
    ((exchange key x l).1 :: (exchange key x l).2).Perm (x :: l) := by
  induction l generalizing x with
  | nil => exact List.Perm.refl _
  | cons y l ih =>
    rw [exchange]
    split
    · exact (List.Perm.swap ..).trans ((ih y).cons x)
    · exact ((List.Perm.swap ..).trans ((ih x).cons y)).trans (List.Perm.swap ..)

theorem length_exchange (x : α) (l : List α) : (exchange key x l).2.length = l.length := by
  simpa using (exchange_perm key x l).length_eq

/-- The first slot ends up with a largest key. -/
theorem exchange_largest (x : α) (l : List α) :
    ∀ y ∈ x :: l, key y ≤ key (exchange key x l).1 := by
  induction l generalizing x with
  | nil =>
    intro y hy
    rw [List.mem_singleton] at hy
    rw [hy, exchange]
  | cons z l ih =>
    have hx := ih x
    have hz := ih z
    rw [List.forall_mem_cons] at hx hz
    rw [exchange, List.forall_mem_cons, List.forall_mem_cons]
    split
    · next hlt => exact ⟨hlt.le.trans hz.1, hz.1, hz.2⟩
    · next hlt => exact ⟨hx.1, (not_lt.mp hlt).trans hx.1, hx.2⟩

/-- `for (i = 0; i < n; i++)` around the loop above. -/
def exchangeSort : List α → List α
  | [] => []
  | x :: l => (exchange key x l).1 :: exchangeSort (exchange key x l).2
termination_by l => l.length
decreasing_by
  rw [length_exchange, List.length_cons]
  exact Nat.lt_succ_self _

theorem exchangeSort_perm (l : List α) : (exchangeSort key l).Perm l := by
  fun_induction exchangeSort key l with
  | case1 => exact List.Perm.refl _
  | case2 x l ih => exact (ih.cons _).trans (exchange_perm key x l)

/-- The keys do not increase. -/
theorem exchangeSort_pairwise (l : List α) :
    (exchangeSort key l).Pairwise fun a b => key b ≤ key a := by
  fun_induction exchangeSort key l with
  | case1 => exact List.Pairwise.nil
  | case2 x l ih =>
    refine List.pairwise_cons.mpr ⟨?_, ih⟩
    intro y hy
    refine exchange_largest key x l y ((exchange_perm key x l).subset ?_)
    exact List.mem_cons_of_mem _ ((exchangeSort_perm key _).subset hy)

/-- A list in decreasing order of its keys is what any arrangement of it is sorted to. -/
theorem exchangeSort_eq {l m : List α} (h : l.Perm m)
    (hm : m.Pairwise fun a b => key b < key a) : exchangeSort key l = m := by
  have hperm := (exchangeSort_perm key l).trans h
  refine hperm.eq_of_pairwise ?_ (exchangeSort_pairwise key l)
    (hm.imp le_of_lt)
  intro a b ha hb hab hba
  have hdistinct : m.Pairwise (Function.onFun (· ≠ ·) key) := hm.imp fun h => h.ne'
  by_contra hne
  exact hdistinct.forall (hperm.subset ha) hb hne (le_antisymm hba hab)

/-- The first elements of a list in decreasing order of one key are the largest by another one if
and only if no element with fewer than `n` before it is smaller by that key than one behind it.
Elements that are equal by the one are equal by the other. -/
theorem take_largest_iff {γ : Type*} [LinearOrder γ] {value : α → γ}
    (htie : ∀ a b, key a = key b → value a = value b) {l : List α}
    (hl : l.Pairwise fun a b => key b ≤ key a) (n : ℕ) :
    ((l.take n).Pairwise (fun a b => value b ≤ value a) ∧
        ∀ a ∈ l.take n, ∀ b ∈ l.drop n, value b ≤ value a) ↔
      ∀ a ∈ l, ∀ b ∈ l, key b < key a → l.countP (fun c => decide (key a < key c)) < n →
        value b ≤ value a := by
  induction l generalizing n with
  | nil => simp
  | cons x l ih =>
    obtain ⟨hx, hl⟩ := List.pairwise_cons.mp hl
    cases n with
    | zero => simp
    | succ n =>
      rw [List.take_succ_cons, List.drop_succ_cons, List.pairwise_cons]
      have hcount : ∀ a ∈ l, (x :: l).countP (fun c => decide (key a < key c)) =
          l.countP (fun c => decide (key a < key c)) + if key a < key x then 1 else 0 := by
        intro a _
        rw [List.countP_cons]
        simp only [decide_eq_true_eq]
      have hself : (x :: l).countP (fun c => decide (key x < key c)) = 0 := by
        rw [List.countP_eq_zero]
        intro c hc
        rw [decide_eq_true_eq, not_lt]
        rcases List.mem_cons.mp hc with rfl | hc
        · exact le_rfl
        · exact hx c hc
      constructor
      · rintro ⟨⟨hxtake, htake⟩, hdrop⟩ a ha b hb hlt hfew
        rw [List.forall_mem_cons] at hdrop
        have hfirst : ∀ c ∈ l, value c ≤ value x := by
          intro c hc
          rw [← List.take_append_drop n l] at hc
          rcases List.mem_append.mp hc with hc | hc
          · exact hxtake c hc
          · exact hdrop.1 c hc
        have hrest := (ih hl n).mp ⟨htake, hdrop.2⟩
        rcases List.mem_cons.mp ha with rfl | ha'
        · rcases List.mem_cons.mp hb with rfl | hb
          · exact le_rfl
          · exact hfirst b hb
        · rcases List.mem_cons.mp hb with rfl | hb
          · exact absurd (hx a ha') (not_le.mpr hlt)
          · rw [hcount a ha'] at hfew
            split_ifs at hfew with hbefore
            · exact hrest a ha' b hb hlt (by omega)
            · -- as large as the first one
              rw [htie a x (le_antisymm (hx a ha') (not_lt.mp hbefore))]
              exact hfirst b hb
      · intro h
        have hfirst : ∀ c ∈ l, value c ≤ value x := by
          intro c hc
          rcases (hx c hc).lt_or_eq with hlt | heq
          · exact h x List.mem_cons_self c (List.mem_cons_of_mem _ hc) hlt
              (by rw [hself]; exact Nat.succ_pos n)
          · exact (htie c x heq).le
        have hrest := (ih hl n).mpr fun a ha b hb hlt hfew =>
          h a (List.mem_cons_of_mem _ ha) b (List.mem_cons_of_mem _ hb) hlt (by
            rw [hcount a ha]
            split_ifs <;> omega)
        refine ⟨⟨fun c hc => hfirst c (List.mem_of_mem_take hc), hrest.1⟩, ?_⟩
        intro a ha b hb
        rcases List.mem_cons.mp ha with rfl | ha
        · exact hfirst b (List.mem_of_mem_drop hb)
        · exact hrest.2 a ha b hb

end SeaClaw.Lib
