import SeaClaw.Security.PairingAtomic

/-!
# Guessing the pairing code

Five wrong codes start a lockout. The failures since the last reset are as many as the guard
counts, and all earlier ones are a lockout away, so that six failures in a row always span a
lockout. A code is spent by the first attempt that carries it, and no new one is made.
-/

namespace SeaClaw.Security

open SeaClaw.Lib

/-- The attempts that return, with their results. -/
def history (sha256 : Bytes → Octets 32) :
    PairingGuard → List PairAttempt → List (PairAttempt × PairAttemptResult)
  | _, [] => []
  | guard, a :: attempts =>
    match scPairingGuardAttemptPair sha256 guard a with
    | none => []
    | some (r, _, guard') => (a, r) :: history sha256 guard' attempts

/-- The attempts with a wrong code, in order. -/
def failures (sha256 : Bytes → Octets 32) (guard : PairingGuard) (attempts : List PairAttempt) :
    List PairAttempt :=
  ((history sha256 guard attempts).filter fun e => e.2 = .invalidCode).map Prod.fst

/-- The clock of the attempts does not go back behind `t`. -/
def ClockFrom : ℤ → List PairAttempt → Prop
  | _, [] => True
  | t, a :: attempts => t ≤ a.checked ∧ a.checked ≤ a.failed ∧ ClockFrom a.failed attempts

/-- Of six attempts in a row the first and the last are a lockout apart. -/
def Spread (fails : List PairAttempt) : Prop :=
  ∀ i, (h : i + maxPairAttempts < fails.length) →
    fails[i].failed + pairLockoutSecs ≤ fails[i + maxPairAttempts].checked

/-- What the counters say at time `t` about the failures so far: those that are not counted
are a lockout ago, and a lockout in force ends a lockout after each of them. -/
structure Counted (t : ℤ) (guard : PairingGuard) (fails : List PairAttempt) : Prop where
  fits : guard.Fits
  count : guard.failedCount ≤ maxPairAttempts
  le : guard.failedCount ≤ fails.length
  locked : guard.failedCount = maxPairAttempts → 0 < guard.lockoutUntil ∧
    ∀ x ∈ fails, x.failed + pairLockoutSecs ≤ guard.lockoutUntil
  old : ∀ x ∈ fails.take (fails.length - guard.failedCount), x.failed + pairLockoutSecs ≤ t
  past : ∀ x ∈ fails, x.failed ≤ t
  since : -1 ≤ t
  spread : Spread fails

variable {sha256 : Bytes → Octets 32} {guard : PairingGuard} {t : ℤ} {fails : List PairAttempt}

theorem Counted.later (h : Counted t guard fails) {t' : ℤ} (ht : t ≤ t') :
    Counted t' guard fails :=
  { h with
    old := fun x hx => (h.old x hx).trans ht
    past := fun x hx => (h.past x hx).trans ht
    since := h.since.trans ht }

/-- When no lockout is in force the counters may start anew, and then fewer than five
failures are counted. -/
theorem Counted.unlock (h : Counted t guard fails) (hlock : ¬ guard.locked t) :
    Counted t guard.unlock fails ∧ guard.unlock.failedCount < maxPairAttempts := by
  unfold PairingGuard.unlock
  by_cases hfull : guard.failedCount ≥ maxPairAttempts ∧ guard.lockoutUntil > 0
  · rw [if_pos hfull]
    obtain ⟨-, hall⟩ := h.locked (Nat.le_antisymm h.count hfull.1)
    have hover : guard.lockoutUntil ≤ t := by
      by_contra hlt
      exact hlock ⟨hfull.1, hfull.2, not_le.mp hlt⟩
    refine ⟨{ h with count := ?_, le := ?_, locked := ?_, old := ?_ },
      (by decide : 0 < maxPairAttempts)⟩
    · exact Nat.zero_le _
    · exact Nat.zero_le _
    · intro habs
      have hne : ¬ 0 = maxPairAttempts := by decide
      exact absurd habs hne
    · intro x hx
      exact (hall x (List.mem_of_mem_take hx)).trans hover
  · rw [if_neg hfull]
    refine ⟨h, lt_of_le_of_ne h.count ?_⟩
    intro heq
    exact hfull ⟨heq.ge, (h.locked heq).1⟩

/-- One more failure. -/
theorem Counted.fail {a : PairAttempt} (h : Counted a.checked guard fails)
    (hlt : guard.failedCount < maxPairAttempts) (ha : a.checked ≤ a.failed) :
    Counted a.failed (guard.countFailure a.failed) (fails ++ [a]) := by
  have hsince := h.since
  have hle := h.le
  have hcount : (guard.failedCount + 1) % 2 ^ 32 = guard.failedCount + 1 := by
    apply Nat.mod_eq_of_lt
    unfold maxPairAttempts at hlt
    omega
  have hpast : ∀ x ∈ fails ++ [a], x.failed ≤ a.failed := by
    intro x hx
    rcases List.mem_append.mp hx with hx | hx
    · exact (h.past x hx).trans ha
    · rw [List.mem_singleton.mp hx]
  constructor
  case fits => exact h.fits
  case past => exact hpast
  case since => exact hsince.trans ha
  case count =>
    rw [PairingGuard.countFailure]
    simp only [hcount]
    omega
  case le =>
    rw [PairingGuard.countFailure]
    simp only [hcount, List.length_append, List.length_singleton]
    omega
  case locked =>
    rw [PairingGuard.countFailure]
    simp only [hcount]
    intro heq
    rw [if_pos heq.ge]
    refine ⟨?_, ?_⟩
    · unfold pairLockoutSecs
      omega
    · intro x hx
      have := hpast x hx
      omega
  case old =>
    rw [PairingGuard.countFailure]
    simp only [hcount, List.length_append, List.length_singleton]
    intro x hx
    have htake : (fails ++ [a]).take (fails.length + 1 - (guard.failedCount + 1)) =
        fails.take (fails.length - guard.failedCount) := by
      rw [Nat.add_sub_add_right, List.take_append_of_le_length (Nat.sub_le _ _)]
    rw [htake] at hx
    exact (h.old x hx).trans ha
  case spread =>
    intro i hi
    rw [List.length_append, List.length_singleton] at hi
    by_cases hnew : i + maxPairAttempts < fails.length
    · rw [List.getElem_append_left (by omega), List.getElem_append_left hnew]
      exact h.spread i hnew
    · -- the failure five before the new one is no longer counted
      have heq : i + maxPairAttempts = fails.length := by omega
      have hi' : i < fails.length := by
        unfold maxPairAttempts at heq
        omega
      have hmem : fails[i] ∈ fails.take (fails.length - guard.failedCount) := by
        rw [List.mem_take_iff_getElem]
        exact ⟨i, by omega, rfl⟩
      rw [List.getElem_append_left hi', List.getElem_append_right (by omega)]
      simp only [heq, Nat.sub_self, List.getElem_singleton]
      exact h.old _ hmem

/-! ## Runs -/

/-- A guard without a code neither fails nor pairs again. -/
theorem history_of_no_code (hfits : guard.Fits) (h : guard.pairingCode = [])
    (attempts : List PairAttempt) : ∀ e ∈ history sha256 guard attempts,
      e.2 ≠ .invalidCode ∧ e.2 ≠ .paired := by
  induction attempts generalizing guard with
  | nil => simp [history]
  | cons a attempts ih =>
    rw [history]
    cases hrun : scPairingGuardAttemptPair sha256 guard a with
    | none => simp
    | some out =>
      obtain ⟨r, token, guard'⟩ := out
      have hno : ¬ Accepts guard a := by
        intro hyes
        have hlen := hyes.length
        rw [h] at hlen
        exact absurd hlen (by decide)
      have hfits' := (attempt_frame hfits hrun).1
      rcases attempt_outcome hfits hrun with ⟨hp, hi, -, hg⟩ | ⟨-, -, -, hcode, -⟩ | ⟨hyes, -⟩ |
        ⟨hyes, -⟩
      · rw [List.forall_mem_cons]
        refine ⟨⟨hi, hp⟩, ih hfits' ?_⟩
        rcases hg with rfl | ⟨rfl, -⟩
        · exact h
        · rw [unlock_pairingCode, h]
      · exact absurd h hcode
      · exact absurd hyes hno
      · exact absurd hyes hno

theorem failures_of_no_code (sha256 : Bytes → Octets 32) (hfits : guard.Fits) (h : guard.pairingCode = [])
    (attempts : List PairAttempt) : failures sha256 guard attempts = [] := by
  rw [failures, List.map_eq_nil_iff, List.filter_eq_nil_iff]
  intro e he
  simpa using (history_of_no_code hfits h attempts e he).1

/-- The failures of a run go on from those before it. -/
theorem Counted.run (h : Counted t guard fails) {attempts : List PairAttempt}
    (hclock : ClockFrom t attempts) : Spread (fails ++ failures sha256 guard attempts) := by
  induction attempts generalizing t guard fails with
  | nil => simpa [failures, history] using h.spread
  | cons a attempts ih =>
    obtain ⟨hchecked, hfailed, hrest⟩ := hclock
    have hnow := h.later hchecked
    unfold failures
    rw [history]
    cases hrun : scPairingGuardAttemptPair sha256 guard a with
    | none => simpa using h.spread
    | some out =>
      obtain ⟨r, token, guard'⟩ := out
      simp only
      have hfits' := (attempt_frame h.fits hrun).1
      rcases attempt_outcome h.fits hrun with ⟨-, hi, -, hg⟩ | ⟨rfl, -, rfl, -, hlock⟩ |
        ⟨-, rfl, -, hspent⟩ | ⟨-, buf, rfl, -, hspent⟩
      · rw [List.filter_cons_of_neg (by simpa using hi)]
        rcases hg with rfl | ⟨rfl, hlock⟩
        · exact ih (hnow.later hfailed) hrest
        · exact ih ((hnow.unlock hlock).1.later hfailed) hrest
      · obtain ⟨hopen, hlt⟩ := hnow.unlock hlock
        have hall := ih (hopen.fail hlt hfailed) hrest
        rw [List.append_assoc] at hall
        rw [List.filter_cons_of_pos (by simp), List.map_cons]
        exact hall
      · have hnone := failures_of_no_code sha256 hfits' hspent.pairingCode attempts
        rw [failures] at hnone
        rw [List.filter_cons_of_neg (by simp), hnone, List.append_nil]
        exact h.spread
      · have hnone := failures_of_no_code sha256 hfits' hspent.pairingCode attempts
        rw [failures] at hnone
        rw [List.filter_cons_of_neg (by simp), hnone, List.append_nil]
        exact h.spread

/-- A run pairs at most once. -/
theorem countP_paired_le (hfits : guard.Fits) (attempts : List PairAttempt) :
    (history sha256 guard attempts).countP (fun e => e.2 = .paired) ≤ 1 := by
  induction attempts generalizing guard with
  | nil => simp [history]
  | cons a attempts ih =>
    rw [history]
    cases hrun : scPairingGuardAttemptPair sha256 guard a with
    | none => simp
    | some out =>
      obtain ⟨r, token, guard'⟩ := out
      simp only
      have hfits' := (attempt_frame hfits hrun).1
      by_cases hr : r = .paired
      · subst hr
        have hcode : guard'.pairingCode = [] := by
          rcases attempt_outcome hfits hrun with ⟨hp, -⟩ | ⟨hp, -⟩ | ⟨-, hp, -⟩ |
            ⟨-, buf, -, -, hspent⟩
          · exact absurd rfl hp
          · exact absurd hp (by simp)
          · exact absurd hp (by simp)
          · exact hspent.pairingCode
        have hzero : (history sha256 guard' attempts).countP (fun e => e.2 = .paired) = 0 := by
          rw [List.countP_eq_zero]
          intro e he
          simpa using (history_of_no_code hfits' hcode attempts e he).2
        rw [List.countP_cons_of_pos (by simp), hzero]
      · rw [List.countP_cons_of_neg (by simpa using hr)]
        exact ih hfits'

/-- Guessing is bounded: on a guard that was created before, and by a clock of seconds since
the epoch (or -1 where it cannot be read) that does not go back, six wrong codes in a row
take a lockout at least, and only one attempt ever pairs. -/
theorem scPairingGuardAttemptPair_bounded (sha256 : Bytes → Octets 32) (env : CreateEnv)
    (requirePairing : Bool) (tokens : List (Option CString)) (guard : PairingGuard)
    (h : scPairingGuardCreate sha256 env requirePairing tokens = some guard)
    (attempts : List PairAttempt) (hclock : ClockFrom (-1) attempts) :
    Spread (failures sha256 guard attempts) ∧
      (history sha256 guard attempts).countP (fun e => e.2 = .paired) ≤ 1 := by
  have hnew := scPairingGuardCreate_created h
  refine ⟨?_, countP_paired_le hnew.fits attempts⟩
  have hcounted : Counted (-1) guard [] := by
    constructor
    case fits => exact hnew.fits
    case count => simp [hnew.failedCount]
    case le => simp [hnew.failedCount]
    case locked =>
      rw [hnew.failedCount]
      intro habs
      exact absurd habs (by decide)
    case old => simp
    case past => simp
    case since => exact le_rfl
    case spread =>
      intro i hi
      simp at hi
  exact hcounted.run hclock

/-- A wrong code at each of these times. -/
def wrongCodes (times : List ℤ) : List PairAttempt :=
  times.map fun t => { zeroCodeAttempt none with
    code := some ⟨ascii "1", by decide⟩, checked := t, failed := t }

/-- Five guesses at once, one while they are locked out, and one after the lockout. -/
theorem scPairingGuardAttemptPair_bounded_guesses :
    Spread (failures zeroDigest zeroCodeGuard (wrongCodes [0, 0, 0, 0, 0, 7, 600])) ∧
      (history zeroDigest zeroCodeGuard (wrongCodes [0, 0, 0, 0, 0, 7, 600])).countP
        (fun e => e.2 = .paired) ≤ 1 :=
  scPairingGuardAttemptPair_bounded zeroDigest goodEnv true [] zeroCodeGuard
    (scPairingGuardCreate_zeroCode zeroDigest) _ (by simp [wrongCodes, ClockFrom])

end SeaClaw.Security
