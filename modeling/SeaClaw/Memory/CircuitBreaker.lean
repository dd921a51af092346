import Mathlib.Data.Int.Notation
import Mathlib.Data.List.Induction
import Mathlib.Order.Basic
import Mathlib.Tactic.Common

/-!
# The circuit breaker of the embedding calls

`memory/vector/circuit_breaker.c`. The breaker opens when enough failures are recorded, and lets a
single probe through when the cooldown is over. Outcomes are recorded whenever they arrive, also
those of calls that were let through before the breaker opened.
-/

namespace SeaClaw.Memory.CircuitBreaker

/-! ## The code -/

/-- `sc_cb_state_t` -/
inductive CbState where
  | cbClosed | cbOpen | cbHalfOpen
  deriving DecidableEq

/-- `sc_circuit_breaker_t` -/
structure Breaker where
  state : CbState
  failureCount : ℕ
  threshold : UInt32
  cooldownNs : ℕ
  lastFailureNs : ℕ
  halfOpenProbeSent : Bool
  deriving DecidableEq

/-- `sc_circuit_breaker_init` -/
def scCircuitBreakerInit (threshold cooldownMs : UInt32) : Breaker :=
  ⟨.cbClosed, 0, threshold, cooldownMs.toNat * 1000000, 0, false⟩

/-- `sc_circuit_breaker_allow` at a reading of the clock. -/
def scCircuitBreakerAllow (now : ℕ) (cb : Breaker) : Breaker × Bool :=
  match cb.state with
  | .cbClosed => (cb, true)
  | .cbOpen =>
    if (cb.cooldownNs : ℤ) ≤ now - cb.lastFailureNs then
      ({ cb with state := .cbHalfOpen, halfOpenProbeSent := true }, true)
    else (cb, false)
  | .cbHalfOpen =>
    if cb.halfOpenProbeSent then (cb, false) else ({ cb with halfOpenProbeSent := true }, true)

/-- `sc_circuit_breaker_record_success` -/
def scCircuitBreakerRecordSuccess (cb : Breaker) : Breaker :=
  { cb with state := .cbClosed, failureCount := 0, halfOpenProbeSent := false }

/-- `sc_circuit_breaker_record_failure` at a reading of the clock. -/
def scCircuitBreakerRecordFailure (now : ℕ) (cb : Breaker) : Breaker :=
  let counted : Breaker :=
    { cb with
      failureCount := if cb.failureCount < 0xFFFFFFFF then cb.failureCount + 1 else cb.failureCount
      lastFailureNs := now }
  if cb.state = .cbHalfOpen ∨
      cb.state = .cbClosed ∧ cb.threshold.toNat ≤ counted.failureCount then
    { counted with state := .cbOpen, halfOpenProbeSent := false }
  else counted

/-! ## Runs -/

/-- What is called. -/
inductive Op where
  | allow | recordSuccess | recordFailure
  deriving DecidableEq

/-- A call and the clock when it takes place. -/
structure Call where
  op : Op
  now : ℕ
  deriving DecidableEq

/-- The breaker after a call. -/
def step (cb : Breaker) (c : Call) : Breaker :=
  match c.op with
  | .allow => (scCircuitBreakerAllow c.now cb).1
  | .recordSuccess => scCircuitBreakerRecordSuccess cb
  | .recordFailure => scCircuitBreakerRecordFailure c.now cb

/-- The breaker after calls. -/
def run (cb : Breaker) (cs : List Call) : Breaker := cs.foldl step cb

/-- The failures that are recorded after the last success. -/
def failuresSince (cs : List Call) : ℕ :=
  cs.foldl (fun n c => match c.op with
    | .allow => n
    | .recordSuccess => 0
    | .recordFailure => n + 1) 0

/-- The clock does not go back. -/
def ClockMoves (cs : List Call) : Prop := cs.Pairwise fun c d => c.now ≤ d.now

instance (cs : List Call) : Decidable (ClockMoves cs) :=
  inferInstanceAs (Decidable (cs.Pairwise fun c d => c.now ≤ d.now))

theorem run_concat (cb : Breaker) (cs : List Call) (c : Call) :
    run cb (cs ++ [c]) = step (run cb cs) c := by
  rw [run, run, List.foldl_append]
  rfl

theorem failuresSince_concat (cs : List Call) (c : Call) :
    failuresSince (cs ++ [c]) = match c.op with
      | .allow => failuresSince cs
      | .recordSuccess => 0
      | .recordFailure => failuresSince cs + 1 := by
  rw [failuresSince, failuresSince, List.foldl_append]
  rfl

/-! ## What the breaker keeps -/

/-- The breaker behind `n` failures: it is closed only while they are fewer than the threshold,
and a half-open breaker has sent its probe. -/
structure Keeps (threshold : UInt32) (cooldownNs n : ℕ) (cb : Breaker) : Prop where
  threshold_eq : cb.threshold = threshold
  cooldown_eq : cb.cooldownNs = cooldownNs
  closed : cb.state = .cbClosed → cb.failureCount = n ∧ n < threshold.toNat
  probe : cb.state = .cbHalfOpen → cb.halfOpenProbeSent = true

section Keeps

variable {threshold : UInt32} {cooldownNs n : ℕ} {cb : Breaker}

theorem Keeps.allow (h : Keeps threshold cooldownNs n cb) (now : ℕ) :
    Keeps threshold cooldownNs n (scCircuitBreakerAllow now cb).1 := by
  unfold scCircuitBreakerAllow
  cases hstate : cb.state with
  | cbClosed => exact h
  | cbOpen =>
    simp only
    split_ifs
    · exact ⟨h.threshold_eq, h.cooldown_eq, fun hclosed => (by cases hclosed), fun _ => rfl⟩
    · exact h
  | cbHalfOpen =>
    simp only [h.probe hstate, if_true]
    exact h

theorem Keeps.recordSuccess (h : Keeps threshold cooldownNs n cb) (hpos : 1 ≤ threshold.toNat) :
    Keeps threshold cooldownNs 0 (scCircuitBreakerRecordSuccess cb) :=
  ⟨h.threshold_eq, h.cooldown_eq, fun _ => ⟨rfl, hpos⟩, fun hhalf => (by cases hhalf)⟩

theorem Keeps.recordFailure (h : Keeps threshold cooldownNs n cb) (now : ℕ) :
    Keeps threshold cooldownNs (n + 1) (scCircuitBreakerRecordFailure now cb) := by
  unfold scCircuitBreakerRecordFailure
  simp only
  generalize hcount : (if cb.failureCount < 0xFFFFFFFF then cb.failureCount + 1
    else cb.failureCount) = m
  split_ifs with htrip
  · exact ⟨h.threshold_eq, h.cooldown_eq, fun hclosed => (by cases hclosed),
      fun hhalf => (by cases hhalf)⟩
  · refine ⟨h.threshold_eq, h.cooldown_eq, ?_, ?_⟩
    · -- the count was below the threshold, so it had not reached its largest value
      intro hclosed
      obtain ⟨hn, hlt⟩ := h.closed hclosed
      have hmax := threshold.toNat_lt
      have hbelow : ¬ cb.threshold.toNat ≤ m := fun hle => htrip (Or.inr ⟨hclosed, hle⟩)
      rw [h.threshold_eq] at hbelow
      rw [if_pos (by omega)] at hcount
      simp only
      omega
    · intro hhalf
      exact absurd (Or.inl hhalf) htrip

end Keeps

/-- The breaker after any calls. -/
theorem keeps_run (threshold cooldownMs : UInt32) (hpos : 1 ≤ threshold.toNat) (cs : List Call) :
    Keeps threshold (cooldownMs.toNat * 1000000) (failuresSince cs)
      (run (scCircuitBreakerInit threshold cooldownMs) cs) := by
  induction cs using List.reverseRecOn with
  | nil => exact ⟨rfl, rfl, fun _ => ⟨rfl, hpos⟩, fun hhalf => (by cases hhalf)⟩
  | append_singleton cs c ih =>
    rw [run_concat, failuresSince_concat, step]
    cases c.op with
    | allow => exact ih.allow c.now
    | recordSuccess => exact ih.recordSuccess hpos
    | recordFailure => exact ih.recordFailure c.now

/-! ## Spacing -/

/-- What the breaker is like after a call was let through at `t`, until a success is recorded. -/
def Waits (t : ℕ) (cb : Breaker) : Prop :=
  cb.state = .cbHalfOpen ∧ cb.halfOpenProbeSent = true ∨ cb.state = .cbOpen ∧ t ≤ cb.lastFailureNs

section Waits

variable {t : ℕ} {cb : Breaker}

/-- A call that is let through while the breaker is not closed makes it wait. -/
theorem waits_of_allowed (hstate : cb.state ≠ .cbClosed)
    (hallow : (scCircuitBreakerAllow t cb).2 = true) : Waits t (scCircuitBreakerAllow t cb).1 := by
  unfold scCircuitBreakerAllow at hallow ⊢
  cases hs : cb.state with
  | cbClosed => exact absurd hs hstate
  | cbOpen =>
    simp only [hs] at hallow ⊢
    split_ifs at hallow ⊢
    exact Or.inl ⟨rfl, rfl⟩
  | cbHalfOpen =>
    simp only [hs] at hallow ⊢
    split_ifs at hallow ⊢
    exact Or.inl ⟨rfl, rfl⟩

theorem Waits.step (h : Waits t cb) {c : Call} (hop : c.op ≠ .recordSuccess) (hnow : t ≤ c.now) :
    Waits t (step cb c) := by
  unfold CircuitBreaker.step
  cases hc : c.op with
  | recordSuccess => exact absurd hc hop
  | allow =>
    simp only
    unfold scCircuitBreakerAllow
    rcases h with ⟨hs, hprobe⟩ | ⟨hs, hlast⟩
    · simp only [hs, hprobe, if_true]
      exact Or.inl ⟨hs, hprobe⟩
    · simp only [hs]
      split_ifs
      · exact Or.inl ⟨rfl, rfl⟩
      · exact Or.inr ⟨hs, hlast⟩
  | recordFailure =>
    simp only
    unfold scCircuitBreakerRecordFailure
    rcases h with ⟨hs, -⟩ | ⟨hs, -⟩
    · simp only [hs, true_or, if_true]
      exact Or.inr ⟨rfl, hnow⟩
    · simp only [hs, reduceCtorEq, false_and, or_false, if_false]
      exact Or.inr ⟨rfl, hnow⟩

theorem Waits.run (h : Waits t cb) {cs : List Call} (hcs : ∀ c ∈ cs, c.op ≠ .recordSuccess)
    (hnow : ∀ c ∈ cs, t ≤ c.now) : Waits t (run cb cs) := by
  induction cs generalizing cb with
  | nil => exact h
  | cons c cs ih =>
    rw [List.forall_mem_cons] at hcs hnow
    exact ih (h.step hcs.1 hnow.1) hcs.2 hnow.2

/-- A waiting breaker lets a call through only when the cooldown is over. -/
theorem Waits.allowed (h : Waits t cb) {u : ℕ} (hallow : (scCircuitBreakerAllow u cb).2 = true) :
    t + cb.cooldownNs ≤ u := by
  unfold scCircuitBreakerAllow at hallow
  rcases h with ⟨hs, hprobe⟩ | ⟨hs, hlast⟩
  · simp [hs, hprobe] at hallow
  · simp only [hs] at hallow
    split_ifs at hallow with hover
    omega

end Waits

/-- Whether the breaker lets a call through after other calls. -/
def Allows (cb : Breaker) (before : List Call) (now : ℕ) : Prop :=
  (scCircuitBreakerAllow now (run cb before)).2 = true

instance (cb : Breaker) (before : List Call) (now : ℕ) : Decidable (Allows cb before now) :=
  inferInstanceAs (Decidable (_ = true))

/-- Once as many failures as the threshold are recorded since the last success, calls that are let
through are a cooldown apart, until a success is recorded. Failures may be recorded at any time. -/
theorem circuit_breaker_spaces (threshold cooldownMs : UInt32) (hpos : 1 ≤ threshold.toNat)
    (before between : List Call) (t u : ℕ)
    (hclock : ClockMoves (before ++ ⟨.allow, t⟩ :: between ++ [⟨.allow, u⟩]))
    (hfailures : threshold.toNat ≤ failuresSince before)
    (hnone : ∀ c ∈ between, c.op ≠ .recordSuccess)
    (hfirst : Allows (scCircuitBreakerInit threshold cooldownMs) before t)
    (hsecond : Allows (scCircuitBreakerInit threshold cooldownMs)
      (before ++ ⟨.allow, t⟩ :: between) u) :
    t + (scCircuitBreakerInit threshold cooldownMs).cooldownNs ≤ u := by
  obtain ⟨cb, hcb⟩ : ∃ cb, cb = run (scCircuitBreakerInit threshold cooldownMs) before := ⟨_, rfl⟩
  have hkeeps := keeps_run threshold cooldownMs hpos before
  rw [← hcb] at hkeeps
  have hnot : cb.state ≠ .cbClosed := by
    intro hclosed
    exact absurd (hkeeps.closed hclosed).2 (Nat.not_lt.mpr hfailures)
  rw [Allows, ← hcb] at hfirst
  have hwaits := waits_of_allowed hnot hfirst
  have hnow : ∀ c ∈ between, t ≤ c.now := by
    intro c hc
    have htail := (List.pairwise_append.mp (List.append_assoc _ _ _ ▸ hclock)).2.1
    exact (List.pairwise_cons.mp htail).1 c (List.mem_append_left _ hc)
  have hrun := hwaits.run hnone hnow
  have hsplit : run (scCircuitBreakerInit threshold cooldownMs)
      (before ++ ⟨.allow, t⟩ :: between) = run (scCircuitBreakerAllow t cb).1 between := by
    rw [hcb, run, run, run, List.foldl_append, List.foldl_cons]
    rfl
  have hcool := (keeps_run threshold cooldownMs hpos (before ++ ⟨.allow, t⟩ :: between)).cooldown_eq
  rw [Allows, hsplit] at hsecond
  rw [hsplit] at hcool
  have hspace := hrun.allowed hsecond
  rw [hcool] at hspace
  exact hspace

/-- A breaker of one failure and a millisecond, whose probe fails and is tried again. -/
theorem circuit_breaker_spaces_probes :
    1000000 + (scCircuitBreakerInit 1 1).cooldownNs ≤ 2000003 :=
  circuit_breaker_spaces 1 1 (by decide) [⟨.allow, 0⟩, ⟨.recordFailure, 0⟩]
    [⟨.recordFailure, 1000002⟩, ⟨.allow, 1000003⟩] 1000000 2000003 (by decide) (by decide)
    (by decide) (by decide) (by decide)

end SeaClaw.Memory.CircuitBreaker
