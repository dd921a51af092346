import SeaClaw.Lib.CString
import SeaClaw.Lib.Machine

/-!
# OAuth logins

A start generates a verifier and a state from the clock and keeps them in a table of pending
logins; a callback with the state finds the verifier there. The callback holds on to the slot of
the verifier while the entry is removed and those behind it move up. The starts that were handed
out and not called back are kept beside the table.
-/

namespace SeaClaw.Gateway

open SeaClaw.Lib

/-! ## Requests -/

/-- `path_starts_with` -/
def pathStartsWith (path base : Bytes) : Bool :=
  base.isPrefixOf path && (path.drop base.length).head?.all (· = ch '?')

/-- Whether a text starts with a name, without regard to case, and an equals sign. -/
def hasName (name p : Bytes) : Bool :=
  (p.take name.length).map toLower = name.map toLower && p[name.length]? = some (ch '=')

/-- The loop of `query_param_value`: at the start of a parameter its value, if it has the key, and
otherwise on to the next one. -/
def queryLoop (key : Bytes) : Bool → Bytes → Option Bytes
  | _, [] => none
  | atStart, b :: p =>
    if atStart && hasName key (b :: p) then
      some (((b :: p).drop (key.length + 1)).takeWhile (· ≠ ch '&'))
    else queryLoop key (b = ch '&') p

/-- `query_param_value` -/
def queryParamValue (path key : Bytes) : Option Bytes :=
  (strchr (ch '?') path).bind fun q => queryLoop key true q.tail

/-- The loop of `cookie_value`, which skips blanks at the start of a cookie. -/
def cookieLoop (name : Bytes) : Bool → Bytes → Option Bytes
  | _, [] => none
  | atStart, b :: p =>
    if atStart && b = ch ' ' then cookieLoop name true p
    else if atStart && hasName name (b :: p) then
      some (((b :: p).drop (name.length + 1)).takeWhile (· ≠ ch ';'))
    else cookieLoop name (b = ch ';') p

/-- `cookie_value` -/
def cookieValue (header name : Bytes) : Option Bytes := cookieLoop name true header

/-! ## Generated texts -/

/-- The letters of verifiers and states. -/
def pkceLetters : Bytes := ascii "ABCDEFGHIJKLMNOPQRSTUVWXYZabcdefghijklmnopqrstuvwxyz0123456789-_"

/-- So many letters from a seed. -/
def pkceText : ℕ → UInt32 → Bytes
  | 0, _ => []
  | n + 1, seed =>
    let seed := seed * 1103515245 + 12345
    pkceLetters.getD ((seed >>> 16) &&& 63).toNat 0 :: pkceText n seed

/-- The seed from the clock and the low half of the address of the context. -/
def pkceSeed (oauthCtx : UInt32) (time : ℤ) : UInt32 := UInt32.ofInt time ^^^ oauthCtx

/-! ## The table -/

/-- `SC_OAUTH_PENDING_MAX` -/
def oauthPendingMax : ℕ := 64

/-- `SC_OAUTH_STATE_LEN` -/
def oauthStateLen : ℕ := 48

/-- `SC_OAUTH_VERIFIER_LEN` -/
def oauthVerifierLen : ℕ := 64

/-- `sc_oauth_pending_entry_t` -/
structure PendingEntry where
  state : Bytes
  verifier : Bytes
  createdAt : ℤ
  deriving DecidableEq

/-- An entry of zeros, as behind the entries in use. -/
def PendingEntry.zero : PendingEntry := ⟨[], [], 0⟩

/-- `oauth_pending_store` -/
def oauthPendingStore (table : List PendingEntry) (state verifier : Bytes) (now : ℤ) :
    List PendingEntry :=
  if oauthPendingMax ≤ table.length then table
  else table ++ [⟨state.take (oauthStateLen - 1), verifier.take (oauthVerifierLen - 1), now⟩]

/-- Whether an entry is at most ten minutes old. -/
def PendingEntry.Live (e : PendingEntry) (now : ℤ) : Prop := now - e.createdAt ≤ 600

instance (e : PendingEntry) (now : ℤ) : Decidable (e.Live now) :=
  inferInstanceAs (Decidable (_ ≤ _))

/-- `oauth_pending_lookup`, which gives the slot of the verifier. -/
def oauthPendingLookup (table : List PendingEntry) (state : Bytes) (now : ℤ) : Option ℕ :=
  (table.findIdx? (·.state = state)).filter fun i => (table.getD i .zero).Live now

/-- `oauth_pending_remove` -/
def oauthPendingRemove (table : List PendingEntry) (state : Bytes) : List PendingEntry :=
  match table.findIdx? (·.state = state) with
  | some i => table.eraseIdx i
  | none => table

/-! ## The handlers -/

/-- What a request is answered, or what it passes to `sc_oauth_exchange_code`. -/
inductive OauthAnswer where
  | started (state : Bytes)
  | badRequest
  | unauthorized
  | internal
  | exchange (code verifier : Bytes)
  | other
  deriving DecidableEq

/-- The times a start reads the clock: for the verifier, for the state, and when it is stored. -/
structure StartTimes where
  verifier : ℤ
  state : ℤ
  stored : ℤ

/-- What is fixed for a gateway: the context, and whether an authorization address fits. -/
structure OauthConfig where
  oauthCtx : UInt32
  urlFits : Bool

/-- The entry a start generates. -/
def OauthConfig.generated (cfg : OauthConfig) (t : StartTimes) : PendingEntry :=
  ⟨pkceText 43 (pkceSeed cfg.oauthCtx t.state), pkceText 43 (pkceSeed cfg.oauthCtx t.verifier),
    t.stored⟩

/-- The start of a login. -/
def oauthStart (cfg : OauthConfig) (table : List PendingEntry) (t : StartTimes) :
    OauthAnswer × List PendingEntry :=
  let e := cfg.generated t
  let table := oauthPendingStore table e.state e.verifier e.createdAt
  if cfg.urlFits then (.started e.state, table)
  else (.internal, oauthPendingRemove table e.state)

/-- The code and the state of a callback, if both are there. -/
def callbackParams (path : Bytes) : Option (Bytes × Bytes) :=
  match queryParamValue path (ascii "code"), queryParamValue path (ascii "state") with
  | some code, some state => if code = [] ∨ state = [] then none else some (code, state)
  | _, _ => none

/-- Whether the cookie has the state. -/
def cookieHasState (cookieHeader : Option Bytes) (state : Bytes) : Bool :=
  cookieHeader.bind (cookieValue · (ascii "oauth_state")) = some state

/-- The callback of a login. The verifier is read from its slot after the removal. -/
def oauthCallback (table : List PendingEntry) (path : Bytes) (cookieHeader : Option Bytes)
    (now : ℤ) : OauthAnswer × List PendingEntry :=
  match callbackParams path with
  | none => (.badRequest, table)
  | some (code, state) =>
    if cookieHasState cookieHeader state then
      let state := state.take (oauthStateLen - 1)
      let verifier := oauthPendingLookup table state now
      let table := oauthPendingRemove table state
      match verifier with
      | none => (.unauthorized, table)
      | some i => (.exchange (code.take 511) (table.getD i .zero).verifier, table)
    else (.unauthorized, table)

/-! ## Runs -/

/-- A GET request with the clock as its handler reads it. -/
structure OauthRequest where
  path : Bytes
  cookieHeader : Option Bytes
  start : StartTimes
  now : ℤ

/-- Which handler a request goes to. -/
inductive OauthRoute where
  | start
  | callback
  | other
  deriving DecidableEq

/-- The routes of `handle_http_request`. -/
def OauthRequest.route (r : OauthRequest) : OauthRoute :=
  if pathStartsWith r.path (ascii "/api/auth/oauth/start") then .start
  else if pathStartsWith r.path (ascii "/api/auth/oauth/callback") then .callback
  else .other

/-- The table, and the starts that were handed out and not called back. -/
structure OauthRun where
  table : List PendingEntry
  open_ : List PendingEntry

/-- What a request is answered, and the table behind it. -/
def oauthHandle (cfg : OauthConfig) (table : List PendingEntry) (r : OauthRequest) :
    OauthAnswer × List PendingEntry :=
  match r.route with
  | .start => oauthStart cfg table r.start
  | .callback => oauthCallback table r.path r.cookieHeader r.now
  | .other => (.other, table)

/-- Whether a start can be called back with a state. -/
def PendingEntry.Answers (e : PendingEntry) (state : Bytes) (now : ℤ) : Prop :=
  e.state = state ∧ e.Live now

instance (e : PendingEntry) (state : Bytes) (now : ℤ) : Decidable (e.Answers state now) :=
  inferInstanceAs (Decidable (_ ∧ _))

/-- The state of a callback with a code, if its cookie has it too. -/
def OauthRequest.calledState (r : OauthRequest) : Option Bytes :=
  (callbackParams r.path).bind fun p =>
    if cookieHasState r.cookieHeader p.2 then some p.2 else none

/-- The start that a callback is for. -/
def OauthRun.calledStart (s : OauthRun) (r : OauthRequest) : Option PendingEntry :=
  r.calledState.bind fun state => s.open_.find? (·.Answers state r.now)

/-- The open starts after a request. -/
def OauthRun.openAfter (s : OauthRun) (cfg : OauthConfig) (r : OauthRequest) : List PendingEntry :=
  match r.route with
  | .start => if cfg.urlFits then s.open_ ++ [cfg.generated r.start] else s.open_
  | .callback =>
    match r.calledState with
    | some state => s.open_.eraseP (·.Answers state r.now)
    | none => s.open_
  | .other => s.open_

/-- One request. -/
def oauthStep (cfg : OauthConfig) (s : OauthRun) (r : OauthRequest) : Option OauthRun :=
  some ⟨(oauthHandle cfg s.table r).2, s.openAfter cfg r⟩

/-- A callback for an open start passes on its verifier, and any other with a code and a state is
turned away. -/
def OwnVerifier (cfg : OauthConfig) (s : OauthRun) (r : OauthRequest) : Prop :=
  match r.route with
  | .callback =>
    match s.calledStart r with
    | some e => ∃ code, (oauthHandle cfg s.table r).1 = .exchange code e.verifier
    | none => (callbackParams r.path).isSome → (oauthHandle cfg s.table r).1 = .unauthorized
  | _ => True

/-- The first entry of the table with the state is not too old, and the entry behind it has the
verifier too. -/
def HeldTwice (table : List PendingEntry) (state verifier : Bytes) (now : ℤ) : Prop :=
  ∃ front e next back, table = front ++ e :: next :: back ∧ (∀ x ∈ front, x.state ≠ state) ∧
    e.Answers state now ∧ next.verifier = verifier

/-- A callback for an open start finds it so in the table. -/
def FindsStart (s : OauthRun) (r : OauthRequest) : Prop :=
  match r.route with
  | .callback => ∀ e, s.calledStart r = some e → HeldTwice s.table e.state e.verifier r.now
  | _ => True

end SeaClaw.Gateway
