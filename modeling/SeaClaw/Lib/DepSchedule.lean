import Mathlib.Data.List.Range
import Mathlib.Data.List.Perm.Subperm
import Mathlib.Logic.Relation
import Mathlib.Order.WellFounded

/-!
# Scheduling by dependencies

Tasks wait, are done or have failed. A round starts tasks that wait and have all they need
done, at least one if there is one, and settles them. No task is started twice, a round
never holds a task together with one it needs, and where nothing can start, whatever waits
needs a task that has failed.
-/

namespace SeaClaw.Lib.DepSchedule

open Relation

/-- What has become of a task. -/
inductive Fate where
  | waiting | done | failed
  deriving DecidableEq

variable {ι : Type*} (needs : ι → ι → Prop)

/-- The task waits, and everything it needs is done. -/
def CanStart (fate : ι → Fate) (i : ι) : Prop :=
  fate i = .waiting ∧ ∀ j, needs i j → fate j = .done

/-- A task that no longer waits had everything done that it needs. -/
def Grounded (fate : ι → Fate) : Prop :=
  ∀ i, fate i ≠ .waiting → ∀ j, needs i j → fate j = .done

/-- A round starts the tasks of a batch and settles each of them. -/
structure Round (fate : ι → Fate) (batch : List ι) (fate' : ι → Fate) : Prop where
  nodup : batch.Nodup
  canStart : ∀ i ∈ batch, CanStart needs fate i
  settled : ∀ i ∈ batch, fate' i ≠ .waiting
  frame : ∀ i, i ∉ batch → fate' i = fate i
  greedy : (∃ i, CanStart needs fate i) → batch ≠ []

/-- The batches of a run, the last one first. -/
inductive Run (start : ι → Fate) : List (List ι) → (ι → Fate) → Prop
  | refl : Run start [] start
  | round {batches fate batch fate'} (h : Run start batches fate)
      (hround : Round needs fate batch fate') : Run start (batch :: batches) fate'

variable {needs}

theorem Round.done {fate fate' : ι → Fate} {batch : List ι} (h : Round needs fate batch fate')
    {i : ι} (hi : fate i = .done) : fate' i = .done := by
  have hnot : i ∉ batch := by
    intro hmem
    rw [(h.canStart i hmem).1] at hi
    exact absurd hi (by simp)
  rw [h.frame i hnot, hi]

theorem Grounded.round {fate fate' : ι → Fate} {batch : List ι} (hg : Grounded needs fate)
    (h : Round needs fate batch fate') : Grounded needs fate' := by
  intro i hi j hj
  by_cases hmem : i ∈ batch
  · exact h.done ((h.canStart i hmem).2 j hj)
  · rw [h.frame i hmem] at hi
    exact h.done (hg i hi j hj)

/-- Everything below a task that can start is done. -/
theorem Grounded.done_of_transGen {fate : ι → Fate} (hg : Grounded needs fate) {i j : ι}
    (hi : ∀ k, needs i k → fate k = .done) (h : TransGen needs i j) : fate j = .done := by
  induction h with
  | single h => exact hi _ h
  | tail _ h ih => exact hg _ (by simp [ih]) _ h

/-- No task that can start needs another one that can start. -/
theorem Grounded.independent {fate : ι → Fate} (hg : Grounded needs fate) {i j : ι}
    (hi : CanStart needs fate i) (hj : CanStart needs fate j) : ¬ TransGen needs i j := by
  intro h
  have hdone := hg.done_of_transGen hi.2 h
  rw [hj.1] at hdone
  exact absurd hdone (by simp)

/-- Where nothing can start, a task that waits needs one that has failed. -/
theorem failed_of_stuck {fate : ι → Fate} (hstuck : ∀ i, ¬ CanStart needs fate i) {i : ι}
    (hacc : Acc (fun j i => needs i j) i) (hi : fate i = .waiting) :
    ∃ j, TransGen needs i j ∧ fate j = .failed := by
  induction hacc with
  | intro i _ ih =>
    have hneed : ∃ j, needs i j ∧ fate j ≠ .done := by
      by_contra hnone
      push Not at hnone
      exact hstuck i ⟨hi, hnone⟩
    obtain ⟨j, hj, hne⟩ := hneed
    cases hfate : fate j with
    | done => exact absurd hfate hne
    | failed => exact ⟨j, .single hj, hfate⟩
    | waiting =>
      obtain ⟨k, hk, hfailed⟩ := ih j hj hfate
      exact ⟨k, .head hj hk, hfailed⟩

/-! ## Runs -/

section Runs

variable {start fate : ι → Fate} {batches : List (List ι)}

theorem Run.grounded (hstart : Grounded needs start) (h : Run needs start batches fate) :
    Grounded needs fate := by
  induction h with
  | refl => exact hstart
  | round _ hround ih => exact ih.round hround

/-- A task of an earlier batch waits no more. -/
theorem Run.settled (h : Run needs start batches fate) :
    ∀ i ∈ batches.flatten, fate i ≠ .waiting := by
  induction h with
  | refl => simp
  | @round batches fate batch fate' _ hround ih =>
    intro i hi
    rw [List.flatten_cons, List.mem_append] at hi
    by_cases hmem : i ∈ batch
    · exact hround.settled i hmem
    · rw [hround.frame i hmem]
      exact ih i (hi.resolve_left hmem)

/-- No task is started twice. -/
theorem Run.nodup (h : Run needs start batches fate) : batches.flatten.Nodup := by
  induction h with
  | refl => exact List.nodup_nil
  | @round batches fate batch fate' hrun hround ih =>
    rw [List.flatten_cons, List.nodup_append]
    refine ⟨hround.nodup, ih, ?_⟩
    rintro i hi j hj rfl
    exact hrun.settled i hj (hround.canStart i hi).1

/-- A run without failures that has not settled every task has started one in each round. -/
theorem Run.progress (hacc : ∀ i, Acc (fun j i => needs i j) i)
    (h : Run needs start batches fate) (hfail : ∀ i, fate i ≠ .failed) :
    (∀ i, fate i ≠ .waiting) ∨ batches.length ≤ batches.flatten.length := by
  induction h with
  | refl => exact Or.inr le_rfl
  | @round batches fate batch fate' hrun hround ih =>
    have hfail' : ∀ i, fate i ≠ .failed := by
      intro i hi
      have hnot : i ∉ batch := by
        intro hmem
        rw [(hround.canStart i hmem).1] at hi
        exact absurd hi (by simp)
      apply hfail i
      rw [hround.frame i hnot, hi]
    rcases ih hfail' with hall | hlen
    · refine Or.inl fun i => ?_
      by_cases hmem : i ∈ batch
      · exact hround.settled i hmem
      · rw [hround.frame i hmem]
        exact hall i
    · by_cases hstuck : ∃ i, CanStart needs fate i
      · have hpos := List.length_pos_of_ne_nil (hround.greedy hstuck)
        refine Or.inr ?_
        rw [List.flatten_cons, List.length_append, List.length_cons]
        omega
      · push Not at hstuck
        refine Or.inl fun i => ?_
        by_cases hmem : i ∈ batch
        · exact hround.settled i hmem
        · rw [hround.frame i hmem]
          intro hi
          obtain ⟨j, -, hj⟩ := failed_of_stuck hstuck (hacc i) hi
          exact hfail' j hj

/-- With `n` tasks, a run of `n` rounds without failures settles every task. -/
theorem Run.complete {fate : ℕ → Fate} {start : ℕ → Fate} {needs : ℕ → ℕ → Prop}
    {batches : List (List ℕ)} {n : ℕ} (hacc : ∀ i, Acc (fun j i => needs i j) i)
    (h : Run needs start batches fate) (hfail : ∀ i, fate i ≠ .failed)
    (hrange : ∀ i ∈ batches.flatten, i < n) (hout : ∀ i, n ≤ i → fate i ≠ .waiting)
    (hn : n ≤ batches.length) : ∀ i, fate i ≠ .waiting := by
  rcases h.progress hacc hfail with hall | hlen
  · exact hall
  · have hsub : batches.flatten ⊆ List.range n := by
      intro i hi
      exact List.mem_range.mpr (hrange i hi)
    have hperm : batches.flatten.Perm (List.range n) := by
      apply (List.subperm_of_subset h.nodup hsub).perm_of_length_le
      rw [List.length_range]
      exact hn.trans hlen
    intro i
    by_cases hi : i < n
    · exact h.settled i (hperm.mem_iff.mpr (List.mem_range.mpr hi))
    · exact hout i (Nat.le_of_not_lt hi)

end Runs

end SeaClaw.Lib.DepSchedule
