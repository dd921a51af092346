import SeaClaw.Lib.FirstStop
import SeaClaw.Providers.ErrorClassify

/-!
# The provider that retries and falls back

`providers/reliable.c`. A request is made for each model of a chain, of the primary provider unless
its circuit is open and then of the extra ones, and of each of them until it succeeds or its
attempts are used up. Waiting between attempts changes nothing but the clock, and the clock is read
from the world here, as are the answers of the providers.
-/

namespace SeaClaw.Providers

open SeaClaw.Lib

/-! ## The provider -/

/-- The methods of `sc_provider_vtable_t` that a request uses: whether they are there. -/
structure Vtable where
  chatWithSystem : Bool
  chat : Bool
  deriving DecidableEq

/-- `sc_provider_t`, which may have no table. -/
structure Provider where
  vtable : Option Vtable
  deriving DecidableEq

/-- Whether a provider can be asked by `chat`. -/
def Provider.hasChat (p : Provider) : Bool := p.vtable.any (·.chat)

/-- Whether a provider can be asked by `chat_with_system`. -/
def Provider.hasChatWithSystem (p : Provider) : Bool := p.vtable.any (·.chatWithSystem)

/-- The circuit breaker of `sc_reliable_ctx_t`, disabled where the threshold is not positive. -/
structure Breaker where
  failureThreshold : ℤ
  recoverySeconds : ℤ
  failures : ℤ
  openUntil : ℤ
  deriving DecidableEq

/-- `sc_reliable_ctx_t` -/
structure ReliableCtx where
  inner : Provider
  extras : List Provider
  modelFallbacks : List (Bytes × List Bytes)
  maxRetries : UInt32
  lastErrorMsg : Bytes
  cb : Breaker
  deriving DecidableEq

/-- `sc_reliable_create_ex`; `none` is a context for which there is no memory. -/
def scReliableCreateEx (memory : Bool) (inner : Provider) (maxRetries : UInt32)
    (extras : List Provider) (modelFallbacks : List (Bytes × List Bytes)) :
    Except ScError ReliableCtx :=
  if memory then .ok ⟨inner, extras, modelFallbacks, maxRetries, [], ⟨0, 0, 0, 0⟩⟩
  else .error .outOfMemory

/-- What `sc_reliable_provider_create` reads of `sc_reliable_config_t`. -/
structure ReliableConfig where
  primary : Provider
  fallback : Provider
  maxRetries : ℤ
  failureThreshold : ℤ
  recoveryTimeoutSeconds : ℤ

/-- `sc_reliable_provider_create` -/
def scReliableProviderCreate (memory : Bool) (config : ReliableConfig) :
    Except ScError ReliableCtx :=
  if config.primary.vtable.isNone then .error .invalidArgument
  else
    let retries : ℤ := if config.maxRetries > 0 then config.maxRetries else 3
    let extras := if config.fallback.vtable.isSome then [config.fallback] else []
    match scReliableCreateEx memory config.primary (UInt32.ofNat retries.toNat) extras [] with
    | .error e => .error e
    | .ok r =>
      .ok { r with
        cb := { r.cb with
          failureThreshold := if config.failureThreshold > 0 then config.failureThreshold else 5
          recoverySeconds :=
            if config.recoveryTimeoutSeconds > 0 then config.recoveryTimeoutSeconds else 60 } }

/-- A context of a configuration has a finite count of attempts, a breaker that is enabled, at most
one extra provider and no fallbacks of models. -/
theorem scReliableProviderCreate_spec {memory : Bool} {config : ReliableConfig} {r : ReliableCtx}
    (hretries : config.maxRetries < 2 ^ 31)
    (h : scReliableProviderCreate memory config = .ok r) :
    0 < r.maxRetries.toNat ∧ r.maxRetries.toNat < 2 ^ 31 ∧ 0 < r.cb.failureThreshold ∧
      0 < r.cb.recoverySeconds ∧ r.extras.length ≤ 1 ∧ r.modelFallbacks = [] := by
  rw [scReliableProviderCreate] at h
  split at h
  next => cases h
  next =>
    cases memory with
    | false => cases h
    | true =>
      obtain rfl := Except.ok.inj h
      dsimp only
      refine ⟨?_, ?_, ?_, ?_, ?_, rfl⟩
      · rw [UInt32.toNat_ofNat']
        split <;> omega
      · rw [UInt32.toNat_ofNat']
        split <;> omega
      · split <;> omega
      · split <;> omega
      · split <;> simp

/-! ## Its breaker and its last error -/

/-- `circuit_skip_primary` at a reading of the clock. -/
def circuitSkipPrimary (now : ℤ) (b : Breaker) : Bool :=
  if b.failureThreshold ≤ 0 then false
  else if b.failures < b.failureThreshold then false
  else if now ≥ b.openUntil then false
  else true

/-- `circuit_record_failure` at a reading of the clock. -/
def circuitRecordFailure (now : ℤ) (b : Breaker) : Breaker :=
  if b.failureThreshold ≤ 0 then b
  else
    { b with
      failures := b.failures + 1
      openUntil :=
        if b.failures + 1 ≥ b.failureThreshold then now + b.recoverySeconds else b.openUntil }

/-- `circuit_record_success` -/
def circuitRecordSuccess (b : Breaker) : Breaker :=
  if b.failureThreshold ≤ 0 then b else { b with failures := 0 }

/-- `store_error`: what the stored message is. -/
def storeError (err : ScError) : Bytes := (scErrorString err).take 255

/-- `final_failure` -/
def finalFailure (msg : Bytes) : ScError :=
  if scErrorIsContextExhausted msg then .providerResponse
  else if scErrorIsRateLimited msg then .providerRateLimited
  -- a text about images and any other text have the same answer
  else .providerResponse

/-- `SC_MODEL_CHAIN_MAX` -/
def modelChainMax : ℕ := 32

/-- `model_chain`: the model and the fallbacks of the first entry for it. -/
def modelChain (r : ReliableCtx) (memory : Bool) (model : Bytes) : Except ScError (List Bytes) :=
  if memory then
    match r.modelFallbacks.find? (fun e => e.1 = model) with
    | some e => .ok ((model :: e.2).take modelChainMax)
    | none => .ok [model]
  else .error .outOfMemory

/-! ## A request -/

/-- Which provider is asked. -/
inductive Which where
  | primary
  | extra (e : ℕ)
  deriving DecidableEq

/-- A provider that is asked for a model, which is the `round`-th of the chain. -/
structure Pair where
  round : ℕ
  model : Bytes
  which : Which
  deriving DecidableEq

/-- What a request meets: whether there is memory for the chain, what each attempt at each provider
answers in the round of each model, and the clock where the breaker reads it in that round. -/
structure World (Out : Type) where
  memory : Bool
  answer : ℕ → Which → ℕ → Except ScError Out
  skipTime : ℕ → ℤ
  recordTime : ℕ → ℤ

/-- How trying a provider ends, and a request with it. The attempts are counted in 32 bits: where
none is too many, the count starts again at zero and the calls go on. -/
inductive Outcome (Out : Type) where
  | ok (out : Out)
  | failed (e : ScError)
  | wraps
  deriving DecidableEq

/-- A provider that is tried: its outcome, the stored message and what the calls of it answered. -/
structure Tried (Out : Type) where
  outcome : Outcome Out
  lastErrorMsg : Bytes
  answers : List (Except ScError Out)

variable {Out : Type}

/-- The loop over the attempts of `try_chat` and of `try_chat_with_system`, which are the same. -/
def tryLoop (r : ReliableCtx) (answer : ℕ → Except ScError Out) :
    (left attempt : ℕ) → (msg : Bytes) → Tried Out
  | 0, _, msg =>
    if r.maxRetries.toNat + 1 = 2 ^ 32 then ⟨.wraps, msg, []⟩
    else ⟨.failed (finalFailure msg), msg, []⟩
  | left + 1, attempt, _msg =>
    match answer attempt with
    | .ok out => ⟨.ok out, _msg, [.ok out]⟩
    | .error err =>
      let msg := storeError err
      if scErrorIsNonRetryable msg then ⟨.failed err, msg, [.error err]⟩
      else if scErrorIsRateLimited msg && 0 < r.extras.length then
        ⟨.failed (finalFailure msg), msg, [.error err]⟩
      else
        let rest := tryLoop r answer left (attempt + 1) msg
        { rest with answers := .error err :: rest.answers }

/-- Trying a provider by one of its methods. -/
def tryMethod (method : Provider → Bool) (r : ReliableCtx) (prov : Provider)
    (answer : ℕ → Except ScError Out) : Tried Out :=
  if method prov then tryLoop r answer (r.maxRetries.toNat + 1) 0 r.lastErrorMsg
  else ⟨.failed .invalidArgument, r.lastErrorMsg, []⟩

/-- `try_chat_with_system`; what is read of the call is its answer. -/
def tryChatWithSystem (r : ReliableCtx) (prov : Provider) (answer : ℕ → Except ScError Bytes) :
    Tried Bytes := tryMethod Provider.hasChatWithSystem r prov answer

/-- `try_chat` -/
def tryChat (r : ReliableCtx) (prov : Provider) (answer : ℕ → Except ScError Out) : Tried Out :=
  tryMethod Provider.hasChat r prov answer

/-- A provider that was tried, and what the calls of it answered. -/
structure Visit (Out : Type) where
  pair : Pair
  answers : List (Except ScError Out)

/-- A request that was made: its outcome, the context after it and the providers it tried. -/
structure Run (Out : Type) where
  outcome : Outcome Out
  ctx : ReliableCtx
  visits : List (Visit Out)

/-- How a provider is tried for a request. -/
abbrev Try (Out : Type) := ReliableCtx → Provider → (ℕ → Except ScError Out) → Tried Out

/-- What comes after a visit. -/
def Run.after (v : Visit Out) (rest : Run Out) : Run Out :=
  { rest with visits := v :: rest.visits }

/-- The loop over the extra providers; `next` is what follows where all of them fail. -/
def extrasLoop (try_ : Try Out) (w : World Out) (i : ℕ) (model : Bytes)
    (next : ReliableCtx → Run Out) : (e : ℕ) → List Provider → ReliableCtx → Run Out
  | _, [], r => next r
  | e, prov :: extras, r =>
    let t := try_ r prov (w.answer i (.extra e))
    let r := { r with lastErrorMsg := t.lastErrorMsg }
    let v : Visit Out := ⟨⟨i, model, .extra e⟩, t.answers⟩
    match t.outcome with
    | .failed _ => (extrasLoop try_ w i model next (e + 1) extras r).after v
    | outcome => ⟨outcome, r, [v]⟩

/-- The loop over the models. -/
def modelsLoop (try_ : Try Out) (w : World Out) : (i : ℕ) → List Bytes → ReliableCtx → Run Out
  | _, [], r => ⟨.failed (finalFailure r.lastErrorMsg), r, []⟩
  | i, model :: chain, r =>
    if circuitSkipPrimary (w.skipTime i) r.cb then
      extrasLoop try_ w i model (modelsLoop try_ w (i + 1) chain) 0 r.extras r
    else
      let t := try_ r r.inner (w.answer i .primary)
      let r := { r with lastErrorMsg := t.lastErrorMsg }
      let v : Visit Out := ⟨⟨i, model, .primary⟩, t.answers⟩
      match t.outcome with
      | .failed _ =>
        let r := { r with cb := circuitRecordFailure (w.recordTime i) r.cb }
        (extrasLoop try_ w i model (modelsLoop try_ w (i + 1) chain) 0 r.extras r).after v
      | .ok out => ⟨.ok out, { r with cb := circuitRecordSuccess r.cb }, [v]⟩
      | .wraps => ⟨.wraps, r, [v]⟩

/-- A request: the loop over the chain of its model. -/
def reliableRequest (try_ : Try Out) (r : ReliableCtx) (w : World Out) (model : Bytes) :
    Run Out :=
  match modelChain r w.memory model with
  | .error e => ⟨.failed e, r, []⟩
  | .ok chain => modelsLoop try_ w 0 chain r

/-- `reliable_chat_with_system` -/
def reliableChatWithSystem (r : ReliableCtx) (w : World Bytes) (model : Bytes) : Run Bytes :=
  reliableRequest tryChatWithSystem r w model

/-- `reliable_chat` -/
def reliableChat (r : ReliableCtx) (w : World Out) (model : Bytes) : Run Out :=
  reliableRequest tryChat r w model

end SeaClaw.Providers
