import Mathlib.Tactic

/-!
# Decoding a stream in pieces

A decoder takes one item from the front of the octets read so far, or waits. If more
octets never change what was taken, and taking makes progress, then the items decoded
do not depend on where the stream is cut.
-/

namespace SeaClaw.Lib

variable {α β : Type}

/-- What later input may not change, and the progress of one step. -/
structure StreamStep (step : List α → Option (β × List α)) : Prop where
  append : ∀ {s e r}, step s = some (e, r) → ∀ t, step (s ++ t) = some (e, r ++ t)
  progress : ∀ {s e r}, step s = some (e, r) → r.length < s.length

/-- At most `n` items from the front, and what is left. -/
def decodeN (step : List α → Option (β × List α)) : ℕ → List α → List β × List α
  | 0, s => ([], s)
  | n + 1, s =>
    match step s with
    | none => ([], s)
    | some (e, r) => (e :: (decodeN step n r).1, (decodeN step n r).2)

/-- All items that are there, and what is left. -/
def decodeAll (step : List α → Option (β × List α)) (s : List α) : List β × List α :=
  decodeN step s.length s

section

variable {step : List α → Option (β × List α)}

theorem decodeN_of_none {s : List α} (h : step s = none) (n : ℕ) : decodeN step n s = ([], s) := by
  cases n with
  | zero => rfl
  | succ n => rw [decodeN, h]

theorem decodeAll_of_none {s : List α} (h : step s = none) : decodeAll step s = ([], s) :=
  decodeN_of_none h _

variable (hstep : StreamStep step)

include hstep

/-- There are no more items than octets. -/
theorem decodeN_agree {n m : ℕ} {s : List α} (hn : s.length ≤ n) (hm : s.length ≤ m) :
    decodeN step n s = decodeN step m s := by
  induction n generalizing m s with
  | zero =>
    have hs : step s = none := by
      by_contra h
      obtain ⟨⟨e, r⟩, he⟩ := Option.ne_none_iff_exists'.mp h
      have hlt := hstep.progress he
      omega
    rw [decodeN_of_none hs, decodeN_of_none hs]
  | succ n ih =>
    cases h : step s with
    | none => rw [decodeN_of_none h, decodeN_of_none h]
    | some p =>
      obtain ⟨e, r⟩ := p
      have hlt := hstep.progress h
      obtain ⟨k, rfl⟩ : ∃ k, m = k + 1 := ⟨m - 1, by omega⟩
      simp only [decodeN, h]
      rw [ih (by omega) (by omega : r.length ≤ k)]

theorem decodeAll_of_some {s r : List α} {e : β} (h : step s = some (e, r)) :
    decodeAll step s = (e :: (decodeAll step r).1, (decodeAll step r).2) := by
  have hlt := hstep.progress h
  obtain ⟨k, hk⟩ : ∃ k, s.length = k + 1 := ⟨s.length - 1, by omega⟩
  simp only [decodeAll, hk, decodeN, h]
  rw [decodeN_agree hstep (by omega : r.length ≤ k) le_rfl]

/-- No item is left at the front of the rest. -/
theorem step_rest (s : List α) : step (decodeAll step s).2 = none := by
  induction hn : s.length using Nat.strong_induction_on generalizing s with
  | _ n ih =>
    cases h : step s with
    | none => rw [decodeAll_of_none h, h]
    | some p =>
      obtain ⟨e, r⟩ := p
      rw [decodeAll_of_some hstep h]
      exact ih r.length (hn ▸ hstep.progress h) r rfl

/-- The rest is no longer than the stream. -/
theorem length_rest_le (s : List α) : (decodeAll step s).2.length ≤ s.length := by
  induction hn : s.length using Nat.strong_induction_on generalizing s with
  | _ n ih =>
    cases h : step s with
    | none =>
      rw [decodeAll_of_none h]
      exact hn.le
    | some p =>
      obtain ⟨e, r⟩ := p
      have hlt := hstep.progress h
      rw [decodeAll_of_some hstep h]
      exact (ih r.length (hn ▸ hlt) r rfl).trans (hn ▸ hlt.le)

/-- Decoding a longer stream goes on from the rest of the shorter one. -/
theorem decodeAll_append (s t : List α) :
    decodeAll step (s ++ t) =
      ((decodeAll step s).1 ++ (decodeAll step ((decodeAll step s).2 ++ t)).1,
        (decodeAll step ((decodeAll step s).2 ++ t)).2) := by
  induction hn : s.length using Nat.strong_induction_on generalizing s with
  | _ n ih =>
    cases h : step s with
    | none => rw [decodeAll_of_none h, List.nil_append]
    | some p =>
      obtain ⟨e, r⟩ := p
      rw [decodeAll_of_some hstep h, decodeAll_of_some hstep (hstep.append h t),
        ih r.length (hn ▸ hstep.progress h) r rfl, List.cons_append]

end

end SeaClaw.Lib
