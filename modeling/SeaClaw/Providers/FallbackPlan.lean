import Mathlib.Data.List.Range
import SeaClaw.Providers.Reliable

/-!
# The plan of a request

What a request is to do, said of its inputs alone: the pairs of a model and a provider in their
order, and of each pair the answers of the calls that are made of it. The nested loops of the code
follow the pairs one after the other, until one of them succeeds.
-/

namespace SeaClaw.Providers

open SeaClaw.Lib SeaClaw.Lib.FirstStop

variable {Out : Type}

/-! ## The plan -/

/-- The fallbacks that are configured for a model. -/
def configuredFallbacks (r : ReliableCtx) (model : Bytes) : List Bytes :=
  ((r.modelFallbacks.find? (fun e => e.1 = model)).map (·.2)).getD []

/-- The breaker before the round of a model, where all rounds before it failed. -/
def breakerBefore (r : ReliableCtx) (w : World Out) : ℕ → Breaker
  | 0 => r.cb
  | i + 1 =>
    if circuitSkipPrimary (w.skipTime i) (breakerBefore r w i) then breakerBefore r w i
    else circuitRecordFailure (w.recordTime i) (breakerBefore r w i)

/-- The circuit of the primary provider is open in the round of a model. -/
def openAt (r : ReliableCtx) (w : World Out) (i : ℕ) : Bool :=
  circuitSkipPrimary (w.skipTime i) (breakerBefore r w i)

/-- The extra providers from one on, for a model. -/
def extraPairs (i : ℕ) (model : Bytes) (e n : ℕ) : List Pair :=
  (List.range' e n).map fun e => ⟨i, model, .extra e⟩

/-- The pairs of a model: the primary provider unless its circuit is open, then the extras. -/
def roundPairs (r : ReliableCtx) (w : World Out) (i : ℕ) (model : Bytes) : List Pair :=
  (if openAt r w i then [] else [⟨i, model, .primary⟩]) ++ extraPairs i model 0 r.extras.length

/-- The pairs of the models from a round on. -/
def planFrom (r : ReliableCtx) (w : World Out) : ℕ → List Bytes → List Pair
  | _, [] => []
  | i, model :: models => roundPairs r w i model ++ planFrom r w (i + 1) models

/-- The plan of a request: the requested model, then each of its configured fallbacks. -/
def plan (r : ReliableCtx) (w : World Out) (model : Bytes) : List Pair :=
  planFrom r w 0 (model :: configuredFallbacks r model)

theorem planFrom_append (r : ReliableCtx) (w : World Out) (i : ℕ) (l m : List Bytes) :
    planFrom r w i (l ++ m) = planFrom r w i l ++ planFrom r w (i + l.length) m := by
  induction l generalizing i with
  | nil => rfl
  | cons a l ih =>
    rw [List.cons_append, planFrom, planFrom, ih, List.append_assoc, List.length_cons,
      Nat.add_assoc, Nat.add_comm 1]

/-- The rounds of a plan are those of its models. -/
theorem round_of_mem_planFrom {r : ReliableCtx} {w : World Out} {i : ℕ} {l : List Bytes} {p : Pair}
    (hp : p ∈ planFrom r w i l) : i ≤ p.round ∧ p.round < i + l.length := by
  induction l generalizing i with
  | nil => exact absurd hp List.not_mem_nil
  | cons a l ih =>
    rw [planFrom, List.mem_append] at hp
    rw [List.length_cons]
    rcases hp with hp | hp
    · have hround : p.round = i := by
        rw [roundPairs, List.mem_append] at hp
        rcases hp with hp | hp
        · split at hp
          · exact absurd hp List.not_mem_nil
          · rw [List.mem_singleton.mp hp]
        · obtain ⟨e, _, rfl⟩ := List.mem_map.mp hp
          rfl
      omega
    · have hrounds := ih hp
      omega

/-- The provider of a pair. -/
def ReliableCtx.provider (r : ReliableCtx) : Which → Option Provider
  | .primary => some r.inner
  | .extra e => r.extras[e]?

/-- A pair can be called: its provider has the method. -/
def callable (method : Provider → Bool) (r : ReliableCtx) (p : Pair) : Bool :=
  (r.provider p.which).any method

/-- An answer that succeeds. -/
def succeeds : Except ScError Out → Bool
  | .ok _ => true
  | .error _ => false

/-- The codes that say rate limited in their text. -/
def rateLimits : List ScError := [.providerRateLimited, .securityRateLimited, .gatewayRateLimited]

/-- An answer after which a provider is not called again: a success, and a rate limit where there
is another provider. -/
def settles (r : ReliableCtx) : Except ScError Out → Bool
  | .ok _ => true
  | .error e => e ∈ rateLimits && 0 < r.extras.length

/-- The answers of the calls of a pair. -/
def asks (r : ReliableCtx) (w : World Out) (p : Pair) : List (Except ScError Out) :=
  through (settles r) ((List.range (r.maxRetries.toNat + 1)).map (w.answer p.round p.which))

/-- The attempts of a pair have no end: none settles it, and the count of them starts again. -/
def endless (r : ReliableCtx) (w : World Out) (p : Pair) : Bool :=
  r.maxRetries.toNat + 1 = 2 ^ 32 && !(asks r w p).any (settles r)

/-- The pairs that are called: those of the plan, through the first that succeeds. -/
def reached (r : ReliableCtx) (w : World Out) (model : Bytes) : List Pair :=
  through (fun p => (asks r w p).any succeeds) (plan r w model)

/-- Each pair is called. -/
theorem asks_ne_nil (r : ReliableCtx) (w : World Out) (p : Pair) : asks r w p ≠ [] := by
  apply through_ne_nil
  simp

theorem settles_of_succeeds {r : ReliableCtx} {a : Except ScError Out} (ha : succeeds a = true) :
    settles r a = true := by
  cases a with
  | ok out => rfl
  | error e => exact absurd ha (by simp [succeeds])

/-- The call of a pair that succeeds is the last of it. -/
theorem not_succeeds_of_mem_dropLast {r : ReliableCtx} {w : World Out} {p : Pair}
    {a : Except ScError Out} (ha : a ∈ (asks r w p).dropLast) : succeeds a = false := by
  have hnot : settles r a = false := not_stop_of_mem_dropLast ha
  cases hok : succeeds a with
  | false => rfl
  | true => exact absurd (hnot.symm.trans (settles_of_succeeds hok)) Bool.false_ne_true

/-- A pair that succeeds does so with its last call. -/
theorem getLast?_of_any_succeeds {r : ReliableCtx} {w : World Out} {p : Pair}
    (hany : (asks r w p).any succeeds = true) : ∃ out, (asks r w p).getLast? = some (.ok out) := by
  obtain ⟨a, ha, hsucceeds⟩ := List.any_eq_true.mp hany
  have hlast := List.getLast?_eq_some_getLast (asks_ne_nil r w p)
  generalize (asks r w p).getLast _ = last at hlast
  rw [← List.dropLast_append_getLast? _ hlast, List.mem_append, List.mem_singleton] at ha
  rcases ha with ha | rfl
  · exact absurd hsucceeds (by simp [not_succeeds_of_mem_dropLast ha])
  · cases a with
    | ok out => exact ⟨out, hlast⟩
    | error e => exact absurd hsucceeds (by simp [succeeds])

/-! ## The stored message -/

/-- The stored message after calls. -/
def storedAfter (msg : Bytes) (as : List (Except ScError Out)) : Bytes :=
  as.foldl (fun msg a => match a with | .ok _ => msg | .error e => storeError e) msg

theorem storedAfter_append (msg : Bytes) (as bs : List (Except ScError Out)) :
    storedAfter msg (as ++ bs) = storedAfter (storedAfter msg as) bs := List.foldl_append

/-- The text of a code is stored whole. -/
theorem storeError_eq (e : ScError) : storeError e = scErrorString e := by
  apply List.take_of_length_le
  have hlt := length_scErrorString_lt e
  omega

/-- What is stored is the text of the last failure. -/
theorem storedAfter_of_getLast? {msg : Bytes} {as : List (Except ScError Out)} {e : ScError}
    (h : as.getLast? = some (.error e)) : storedAfter msg as = scErrorString e := by
  rw [← List.dropLast_append_getLast? _ h, storedAfter_append]
  exact storeError_eq e

theorem scErrorIsRateLimited_storeError (e : ScError) :
    scErrorIsRateLimited (storeError e) = decide (e ∈ rateLimits) := by
  rw [storeError_eq, Bool.eq_iff_iff, scErrorIsRateLimited_string, decide_eq_true_eq]
  simp [rateLimits]

/-- The answer to a request that failed is a rate limit where the last failure says so. -/
theorem finalFailure_string (e : ScError) :
    finalFailure (scErrorString e) = .providerRateLimited ↔ e ∈ rateLimits := by
  rw [finalFailure, if_neg (by simp [scErrorIsContextExhausted_string])]
  split
  next h => simpa [rateLimits] using (scErrorIsRateLimited_string e).mp h
  next h =>
    rw [scErrorIsRateLimited_string] at h
    simpa [rateLimits] using h

/-! ## Trying one provider -/

/-- What the loop over the attempts leaves. -/
theorem tryLoop_spec (r : ReliableCtx) (answer : ℕ → Except ScError Out) (left attempt : ℕ)
    (msg : Bytes) :
    (tryLoop r answer left attempt msg).answers =
        through (settles r) ((List.range' attempt left).map answer) ∧
      (tryLoop r answer left attempt msg).lastErrorMsg =
        storedAfter msg (tryLoop r answer left attempt msg).answers ∧
      (∀ out, (tryLoop r answer left attempt msg).outcome = .ok out ↔
        (tryLoop r answer left attempt msg).answers.getLast? = some (.ok out)) ∧
      ((tryLoop r answer left attempt msg).outcome = .wraps ↔
        r.maxRetries.toNat + 1 = 2 ^ 32 ∧
          (tryLoop r answer left attempt msg).answers.any (settles r) = false) := by
  induction left generalizing attempt msg with
  | zero =>
    rw [tryLoop]
    split
    next hwrap => exact ⟨rfl, rfl, by simp, by simpa using hwrap⟩
    next hwrap => exact ⟨rfl, rfl, by simp, by simpa using hwrap⟩
  | succ left ih =>
    rw [tryLoop, List.range'_succ, List.map_cons, through]
    cases hans : answer attempt with
    | ok out =>
      refine ⟨by simp [settles], rfl, ?_, by simp [settles]⟩
      intro out'
      simp
    | error err =>
      have hretry : scErrorIsNonRetryable (storeError err) = false := by
        rw [storeError_eq, scErrorIsNonRetryable_string]
      dsimp only
      rw [if_neg (by simp [hretry]), scErrorIsRateLimited_storeError]
      by_cases hset : settles r (.error err : Except ScError Out) = true
      · rw [if_pos hset]
        have hlimit : (decide (err ∈ rateLimits) && decide (0 < r.extras.length)) = true := hset
        rw [if_pos hlimit]
        exact ⟨rfl, rfl, by simp, by simp [hset]⟩
      · rw [if_neg hset]
        have hlimit : ¬ (decide (err ∈ rateLimits) && decide (0 < r.extras.length)) = true := hset
        rw [if_neg hlimit]
        obtain ⟨hanswers, hmsg, hok, hwrap⟩ := ih (attempt + 1) (storeError err)
        refine ⟨by rw [hanswers], hmsg, ?_, ?_⟩
        · intro out
          rw [hok out]
          cases (tryLoop r answer left (attempt + 1) (storeError err)).answers with
          | nil => simp
          | cons a l => rw [List.getLast?_cons_cons]
        · rw [hwrap, List.any_cons, Bool.or_eq_false_iff]
          simp [hset]

/-- A provider as the plan has it: what it answers to the calls of a pair. -/
def visitOf (method : Provider → Bool) (r : ReliableCtx) (w : World Out) (p : Pair) : Visit Out :=
  ⟨p, if callable method r p then asks r w p else []⟩

/-- A visit after which the request ends. -/
def ends (r : ReliableCtx) (w : World Out) (v : Visit Out) : Bool :=
  v.answers.any succeeds || (!v.answers.isEmpty && endless r w v.pair)

/-- How a request ends with a visit that ends it. -/
def endOutcome (v : Visit Out) : Outcome Out :=
  match v.answers.getLast? with
  | some (.ok out) => .ok out
  | _ => .wraps

theorem endOutcome_ne_failed (v : Visit Out) (e : ScError) : endOutcome v ≠ .failed e := by
  rw [endOutcome]
  split <;> simp

/-- A provider that is tried is visited as the plan has it, and the request goes on after it
exactly where the plan does. -/
theorem tryMethod_spec (method : Provider → Bool) {r : ReliableCtx} (w : World Out) {p : Pair}
    {prov : Provider} (hprov : r.provider p.which = some prov) (msg : Bytes) (b : Breaker) :
    let t := tryMethod method { r with lastErrorMsg := msg, cb := b } prov
      (w.answer p.round p.which)
    let v := visitOf method r w p
    t.answers = v.answers ∧ t.lastErrorMsg = storedAfter msg v.answers ∧
      ((∃ e, t.outcome = .failed e) ∧ ends r w v = false ∨
        t.outcome = endOutcome v ∧ ends r w v = true) := by
  intro t v
  by_cases hcall : method prov = true
  · have hv : v.answers = asks r w p := by
      simp only [v, visitOf, callable, hprov, Option.any_some, hcall, if_true]
    have ht : t = tryLoop { r with lastErrorMsg := msg, cb := b } (w.answer p.round p.which)
        (r.maxRetries.toNat + 1) 0 msg := by
      simp only [t, tryMethod, hcall, if_true]
    obtain ⟨hanswers, hmsg, hok, hwrap⟩ := tryLoop_spec { r with lastErrorMsg := msg, cb := b }
      (w.answer p.round p.which) (r.maxRetries.toNat + 1) 0 msg
    rw [← ht] at hanswers hmsg hok hwrap
    have hasks : t.answers = asks r w p := by
      rw [hanswers, asks, List.range_eq_range']
      rfl
    refine ⟨hasks.trans hv.symm, by rw [hmsg, hasks, hv], ?_⟩
    have hends : ends r w v = ((asks r w p).any succeeds || endless r w p) := by
      have hne : (asks r w p).isEmpty = false := by
        rw [List.isEmpty_eq_false_iff]
        exact asks_ne_nil r w p
      rw [ends, hv, hne]
      rfl
    have hendless : endless r w p = true ↔ t.outcome = .wraps := by
      rw [hwrap, hasks, endless, Bool.and_eq_true, decide_eq_true_eq, Bool.not_eq_true']
      rfl
    cases hout : t.outcome with
    | ok out =>
      right
      have hlast := (hok out).mp hout
      rw [hasks] at hlast
      refine ⟨by rw [endOutcome, hv, hlast], ?_⟩
      have hany : (asks r w p).any succeeds = true :=
        List.any_eq_true.mpr ⟨_, List.mem_of_getLast? hlast, rfl⟩
      rw [hends, hany, Bool.true_or]
    | wraps =>
      right
      refine ⟨?_, by rw [hends, hendless.mpr hout, Bool.or_true]⟩
      rw [endOutcome, hv]
      split
      next out hlast =>
        rw [← hasks] at hlast
        exact absurd ((hok out).mpr hlast) (by simp [hout])
      next => rfl
    | failed e =>
      left
      refine ⟨⟨e, rfl⟩, ?_⟩
      rw [hends, Bool.or_eq_false_iff]
      constructor
      · rw [Bool.eq_false_iff]
        intro hany
        obtain ⟨out, hlast⟩ := getLast?_of_any_succeeds hany
        rw [← hasks] at hlast
        exact absurd ((hok out).mpr hlast) (by simp [hout])
      · rw [Bool.eq_false_iff]
        intro hwraps
        exact absurd (hendless.mp hwraps) (by simp [hout])
  · have hv : v.answers = [] := by
      simp only [v, visitOf, callable, hprov, Option.any_some, hcall]
      rfl
    have ht : t = ⟨.failed .invalidArgument, msg, []⟩ := by
      simp only [t, tryMethod, hcall]
      rfl
    rw [ht, hv]
    exact ⟨rfl, rfl, Or.inl ⟨⟨_, rfl⟩, by rw [ends, hv]; rfl⟩⟩

/-! ## The request as one loop -/

/-- A request as one loop over pairs: how it ends, and what is visited. -/
def pairsLoop (method : Provider → Bool) (r : ReliableCtx) (w : World Out) :
    List Pair → (msg : Bytes) → Outcome Out × List (Visit Out)
  | [], msg => (.failed (finalFailure msg), [])
  | p :: ps, msg =>
    let v := visitOf method r w p
    if ends r w v then (endOutcome v, [v])
    else
      let rest := pairsLoop method r w ps (storedAfter msg v.answers)
      (rest.1, v :: rest.2)

/-- What the caller and the providers see of a request. -/
def Run.seen (run : Run Out) : Outcome Out × List (Visit Out) := (run.outcome, run.visits)

theorem Run.seen_after (v : Visit Out) (run : Run Out) :
    (run.after v).seen = (run.seen.1, v :: run.seen.2) := rfl

/-- The extra providers are the pairs of them, and what follows is what follows in the plan. -/
theorem extrasLoop_seen {method : Provider → Bool} {r : ReliableCtx} {w : World Out} {i : ℕ}
    {model : Bytes} {next : ReliableCtx → Run Out} {ps : List Pair} {b : Breaker}
    (hnext : ∀ msg, (next { r with lastErrorMsg := msg, cb := b }).seen =
      pairsLoop method r w ps msg) {e : ℕ} {provs : List Provider}
    (hprovs : provs = r.extras.drop e) (msg : Bytes) :
    (extrasLoop (tryMethod method) w i model next e provs
        { r with lastErrorMsg := msg, cb := b }).seen =
      pairsLoop method r w (extraPairs i model e provs.length ++ ps) msg := by
  induction provs generalizing e msg with
  | nil => exact hnext msg
  | cons prov provs ih =>
    have hprov : r.provider (.extra e) = some prov := by
      have hget : (r.extras.drop e)[0]? = some prov := by
        rw [← hprovs]
        rfl
      rw [List.getElem?_drop] at hget
      exact hget
    have hrest : provs = r.extras.drop (e + 1) := by
      rw [← List.drop_drop, ← hprovs]
      rfl
    obtain ⟨hanswers, hmsg, hends⟩ := tryMethod_spec method w (p := ⟨i, model, .extra e⟩) hprov
      msg b
    rw [extrasLoop, List.length_cons, extraPairs, List.range'_succ, List.map_cons,
      List.cons_append, pairsLoop]
    rcases hends with ⟨⟨err, hout⟩, hends⟩ | ⟨hout, hends⟩
    · dsimp only at hout ⊢
      rw [hout, if_neg (by simp [hends]), hmsg, hanswers]
      dsimp only
      rw [Run.seen_after]
      have hih := ih hrest (storedAfter msg (visitOf method r w ⟨i, model, .extra e⟩).answers)
      rw [hih]
      rfl
    · dsimp only at hout ⊢
      rw [if_pos hends, hanswers]
      cases hend : endOutcome (visitOf method r w ⟨i, model, .extra e⟩) with
      | failed err => exact absurd hend (endOutcome_ne_failed _ err)
      | ok out =>
        rw [hout, hend]
        rfl
      | wraps =>
        rw [hout, hend]
        rfl

/-- The rounds of the models are those of the plan, with the breaker that it foresees. -/
theorem modelsLoop_seen (method : Provider → Bool) (r : ReliableCtx) (w : World Out) (i : ℕ)
    (chain : List Bytes) (msg : Bytes) :
    (modelsLoop (tryMethod method) w i chain
        { r with lastErrorMsg := msg, cb := breakerBefore r w i }).seen =
      pairsLoop method r w (planFrom r w i chain) msg := by
  induction chain generalizing i msg with
  | nil => rfl
  | cons model chain ih =>
    rw [modelsLoop, planFrom, roundPairs]
    have hskip : circuitSkipPrimary (w.skipTime i)
        ({ r with lastErrorMsg := msg, cb := breakerBefore r w i } : ReliableCtx).cb =
          openAt r w i := rfl
    have hextras : ∀ msg, (extrasLoop (tryMethod method) w i model
        (modelsLoop (tryMethod method) w (i + 1) chain) 0 r.extras
          { r with lastErrorMsg := msg, cb := breakerBefore r w (i + 1) }).seen =
        pairsLoop method r w (extraPairs i model 0 r.extras.length ++ planFrom r w (i + 1) chain)
          msg := fun msg => extrasLoop_seen (fun msg => ih (i + 1) msg) rfl msg
    rw [hskip]
    by_cases hopen : openAt r w i = true
    · have hnext : breakerBefore r w (i + 1) = breakerBefore r w i := if_pos hopen
      rw [if_pos hopen, if_pos hopen, List.nil_append]
      rw [hnext] at hextras
      exact hextras msg
    · have hnext : breakerBefore r w (i + 1) =
          circuitRecordFailure (w.recordTime i) (breakerBefore r w i) := if_neg hopen
      rw [if_neg hopen, if_neg hopen, List.append_assoc, List.singleton_append, pairsLoop]
      have hprov : r.provider .primary = some r.inner := rfl
      obtain ⟨hanswers, hmsg, hends⟩ := tryMethod_spec method w (p := ⟨i, model, .primary⟩) hprov
        msg (breakerBefore r w i)
      dsimp only at hanswers hmsg hends ⊢
      rcases hends with ⟨⟨err, hout⟩, hends⟩ | ⟨hout, hends⟩
      · rw [hout, if_neg (by simp [hends]), hmsg, hanswers]
        dsimp only
        rw [Run.seen_after]
        have hrest := hextras (storedAfter msg (visitOf method r w ⟨i, model, .primary⟩).answers)
        rw [hnext] at hrest
        rw [hrest]
        rfl
      · rw [if_pos hends, hanswers]
        cases hend : endOutcome (visitOf method r w ⟨i, model, .primary⟩) with
        | failed err => exact absurd hend (endOutcome_ne_failed _ err)
        | ok out =>
          rw [hout, hend]
          rfl
        | wraps =>
          rw [hout, hend]
          rfl

/-! ## What a loop over pairs leaves -/

/-- The answers of all calls. -/
def calls (visits : List (Visit Out)) : List (Except ScError Out) := visits.flatMap (·.answers)

variable {method : Provider → Bool} {r : ReliableCtx} {w : World Out}

/-- The pairs are visited through the first visit that ends the request. -/
theorem pairsLoop_visits (ps : List Pair) (msg : Bytes) :
    (pairsLoop method r w ps msg).2 = through (ends r w) (ps.map (visitOf method r w)) := by
  induction ps generalizing msg with
  | nil => rfl
  | cons p ps ih =>
    rw [pairsLoop, List.map_cons, through]
    dsimp only
    split
    · rfl
    · rw [ih]

/-- A visit that ends a request succeeds with its last call, or has no end. -/
theorem endOutcome_eq_wraps {p : Pair} (hends : ends r w (visitOf method r w p) = true) :
    endOutcome (visitOf method r w p) = .wraps ↔ endless r w p = true := by
  have hcall : callable method r p = true := by
    by_contra hcall
    rw [ends, visitOf, if_neg hcall] at hends
    exact Bool.false_ne_true hends
  have hanswers : (visitOf method r w p).answers = asks r w p := if_pos hcall
  by_cases hany : (asks r w p).any succeeds = true
  · obtain ⟨out, hlast⟩ := getLast?_of_any_succeeds hany
    have hsettled : (asks r w p).any (settles r) = true :=
      List.any_eq_true.mpr ⟨_, List.mem_of_getLast? hlast, rfl⟩
    simp [endOutcome, hanswers, hlast, endless, hsettled]
  · have hendless : endless r w p = true := by
      rw [ends, hanswers, Bool.or_eq_true, Bool.and_eq_true] at hends
      exact (hends.resolve_left hany).2
    have hnot : ∀ out, (asks r w p).getLast? ≠ some (.ok out) := by
      intro out hlast
      exact hany (List.any_eq_true.mpr ⟨_, List.mem_of_getLast? hlast, rfl⟩)
    rw [endOutcome, hanswers]
    split
    next out hlast => exact absurd hlast (hnot out)
    next => simp [hendless]

/-- A request has no end where a provider that it calls has none. -/
theorem pairsLoop_wraps (ps : List Pair) (msg : Bytes) :
    (pairsLoop method r w ps msg).1 = .wraps ↔
      ∃ v ∈ (pairsLoop method r w ps msg).2, v.answers ≠ [] ∧ endless r w v.pair = true := by
  induction ps generalizing msg with
  | nil => simp [pairsLoop]
  | cons p ps ih =>
    rw [pairsLoop]
    dsimp only
    by_cases hends : ends r w (visitOf method r w p) = true
    · have hne : endless r w p = true → (visitOf method r w p).answers ≠ [] := by
        intro _ hnil
        rw [ends, hnil] at hends
        exact Bool.false_ne_true hends
      rw [if_pos hends]
      simp only [List.mem_singleton, exists_eq_left, endOutcome_eq_wraps hends]
      exact ⟨fun h => ⟨hne h, h⟩, fun h => h.2⟩
    · have hnot : ¬ ((visitOf method r w p).answers ≠ [] ∧
          endless r w (visitOf method r w p).pair = true) := by
        rintro ⟨hne, hendless⟩
        apply hends
        rw [ends, hendless, List.isEmpty_eq_false_iff.mpr hne]
        simp
      rw [if_neg hends]
      simp only [List.mem_cons, exists_eq_or_imp, hnot, false_or]
      exact ih _

/-- A request succeeds exactly with its last call. -/
theorem pairsLoop_ok (ps : List Pair) (msg : Bytes) (out : Out) :
    (pairsLoop method r w ps msg).1 = .ok out ↔
      (calls (pairsLoop method r w ps msg).2).getLast? = some (.ok out) := by
  induction ps generalizing msg with
  | nil => simp [pairsLoop, calls]
  | cons p ps ih =>
    rw [pairsLoop]
    dsimp only
    by_cases hends : ends r w (visitOf method r w p) = true
    · rw [if_pos hends, calls, List.flatMap_singleton, endOutcome]
      split
      next out' hlast => simp [hlast]
      next hlast =>
        simp only [reduceCtorEq, false_iff]
        exact hlast out
    · have hnot : (visitOf method r w p).answers.getLast? ≠ some (.ok out) := by
        intro hlast
        apply hends
        rw [ends, List.any_eq_true.mpr ⟨_, List.mem_of_getLast? hlast, rfl⟩, Bool.true_or]
      rw [if_neg hends, calls, List.flatMap_cons, List.getLast?_append]
      dsimp only
      rw [ih, calls]
      cases ((pairsLoop method r w ps _).2.flatMap (·.answers)).getLast? with
      | none => simpa using hnot
      | some a => rfl

/-- No call before the last succeeds. -/
theorem pairsLoop_dropLast (ps : List Pair) (msg : Bytes) {a : Except ScError Out}
    (ha : a ∈ (calls (pairsLoop method r w ps msg).2).dropLast) : succeeds a = false := by
  induction ps generalizing msg with
  | nil => simp [pairsLoop, calls] at ha
  | cons p ps ih =>
    rw [pairsLoop] at ha
    dsimp only at ha
    have hdrop : ∀ a ∈ (visitOf method r w p).answers.dropLast, succeeds a = false := by
      intro a ha
      by_cases hcall : callable method r p = true
      · rw [visitOf, if_pos hcall] at ha
        exact not_succeeds_of_mem_dropLast ha
      · rw [visitOf, if_neg hcall] at ha
        exact absurd ha List.not_mem_nil
    by_cases hends : ends r w (visitOf method r w p) = true
    · rw [if_pos hends, calls, List.flatMap_singleton] at ha
      exact hdrop a ha
    · rw [if_neg hends, calls, List.flatMap_cons, List.dropLast_append] at ha
      split at ha
      next => exact hdrop a ha
      next =>
        rcases List.mem_append.mp ha with ha | ha
        · cases hsucceeds : succeeds a with
          | false => rfl
          | true =>
            refine absurd ?_ hends
            rw [ends, List.any_eq_true.mpr ⟨a, ha, hsucceeds⟩, Bool.true_or]
        · exact ih _ ha

/-- A request fails where no visit ends it, and its error is that of the stored message. -/
theorem pairsLoop_failed (ps : List Pair) (msg : Bytes) (e : ScError) :
    (pairsLoop method r w ps msg).1 = .failed e ↔
      (∀ p ∈ ps, ends r w (visitOf method r w p) = false) ∧
        e = finalFailure (storedAfter msg (calls (pairsLoop method r w ps msg).2)) := by
  induction ps generalizing msg with
  | nil =>
    rw [pairsLoop]
    simp only [List.not_mem_nil, false_imp_iff, implies_true, true_and, Outcome.failed.injEq]
    exact eq_comm
  | cons p ps ih =>
    rw [pairsLoop]
    dsimp only
    by_cases hends : ends r w (visitOf method r w p) = true
    · rw [if_pos hends]
      constructor
      · intro h
        exact absurd h (endOutcome_ne_failed _ e)
      · rintro ⟨hall, _⟩
        exact absurd hends (by simp [hall p List.mem_cons_self])
    · rw [if_neg hends, calls, List.flatMap_cons, storedAfter_append]
      dsimp only
      rw [ih, List.forall_mem_cons, calls]
      simp [hends]

end SeaClaw.Providers
