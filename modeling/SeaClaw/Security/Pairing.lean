import SeaClaw.Lib.Hex
import SeaClaw.Lib.Printf

/-!
# The pairing guard

A client trades a one-time code for a token, and the guard keeps the SHA-256 of the token as
hexadecimal text. Allocations, random octets and the clock answer from outside: each call
takes their answers with its arguments. Storing into a table that was never allocated is
undefined.
-/

namespace SeaClaw.Security

open SeaClaw.Lib

/-- `SC_MAX_PAIR_ATTEMPTS` -/
def maxPairAttempts : ℕ := 5

/-- `SC_PAIR_LOCKOUT_SECS` -/
def pairLockoutSecs : ℤ := 600

/-- `SC_PAIRING_CODE_LEN` -/
def pairingCodeLen : ℕ := 8

/-- `SC_TOKEN_PREFIX` -/
def tokenPrefix : Bytes := ascii "zc_"

/-- `sc_pair_attempt_result_t` -/
inductive PairAttemptResult where
  | paired | missingCode | invalidCode | alreadyPaired | disabled | lockedOut | internalError
  deriving DecidableEq

/-- `struct sc_pairing_guard`. The table is `none` where its pointer is `NULL`; the count is
the number of its entries. -/
structure PairingGuard where
  requirePairing : Bool
  pairingCode : Bytes
  pairedTokenHashes : Option (List Bytes)
  tokenCap : ℕ
  failedCount : ℕ
  lockoutUntil : ℤ

/-- The stored hashes. -/
def PairingGuard.hashes (guard : PairingGuard) : List Bytes := guard.pairedTokenHashes.getD []

/-- `token_count` -/
def PairingGuard.tokenCount (guard : PairingGuard) : ℕ := guard.hashes.length

/-! ## Text -/

/-- `generate_code`: eight digits of four random octets. -/
def generateCode (buf : Octets 4) : Bytes :=
  fmtPad pairingCodeLen (Nat.ofDigits 256 (buf.val.map UInt8.toNat) % 100000000)

/-- `generate_token` -/
def generateToken (buf : Octets 32) : Bytes := tokenPrefix ++ hexEncode buf.val

theorem tokenPrefix_noNul : 0 ∉ tokenPrefix := by decide

/-- A token as the caller gets it. -/
def tokenOf (buf : Octets 32) : CString :=
  ⟨generateToken buf, by
    rw [generateToken, List.mem_append, not_or]
    exact ⟨tokenPrefix_noNul, hexEncode_noNul _⟩⟩

/-- `hash_token_sha256` -/
def hashTokenSha256 (sha256 : Bytes → Octets 32) (token : Bytes) : Bytes :=
  hexEncode (sha256 token).val

/-- `is_token_hash` -/
def isTokenHash (s : Bytes) : Bool := s.length = 64 && s.all isHexDigit

/-- `sc_pairing_guard_constant_time_eq` -/
def constantTimeEq (a b : Bytes) : Bool :=
  if a.length ≠ b.length then false
  else (List.zipWith (· ^^^ ·) a b).foldl (· ||| ·) 0 == 0

/-- The digits of a code, up to the room left in the buffer. -/
def trimCode : ℕ → Bytes → Bytes
  | 0, _ => []
  | _, [] => []
  | room + 1, b :: code =>
    if b ≠ ch ' ' ∧ b ≠ ch '\t' ∧ b ≠ ch '\r' ∧ b ≠ ch '\n' ∧ isDigit b then
      b :: trimCode room code
    else trimCode (room + 1) code

/-! ## Creating a guard -/

/-- What a call of `sc_pairing_guard_create` gets from outside. -/
structure CreateEnv where
  guardAlloc : Bool
  tableAlloc : Bool
  slotAlloc : ℕ → Bool
  random : Option (Octets 4)

/-- What is stored for a token given at creation. -/
def storedEntry (sha256 : Bytes → Octets 32) (token : Bytes) : Bytes :=
  if isTokenHash token then token else hashTokenSha256 sha256 token

/-- The loop over the given tokens; `none` when a slot cannot be allocated. -/
def storeTokens (sha256 : Bytes → Octets 32) (slotAlloc : ℕ → Bool) :
    ℕ → List (Option CString) → Option (List Bytes)
  | _, [] => some []
  | i, none :: tokens => storeTokens sha256 slotAlloc (i + 1) tokens
  | i, some t :: tokens =>
    if slotAlloc i then
      (storeTokens sha256 slotAlloc (i + 1) tokens).map (storedEntry sha256 t.octets :: ·)
    else none

/-- The guard after its storage is zeroed. -/
def blankGuard (requirePairing : Bool) : PairingGuard := ⟨requirePairing, [], none, 0, 0, 0⟩

/-- The table of a new guard. If it cannot be allocated the guard goes without it. -/
def fillTable (sha256 : Bytes → Octets 32) (env : CreateEnv) (guard : PairingGuard)
    (existingTokens : List (Option CString)) : Option PairingGuard :=
  if existingTokens.length > 0 then
    let guard := { guard with
      tokenCap := if existingTokens.length < 8 then 8 else existingTokens.length }
    if env.tableAlloc then
      (storeTokens sha256 env.slotAlloc 0 existingTokens).map fun hashes =>
        { guard with pairedTokenHashes := some hashes }
    else some guard
  else some guard

/-- `sc_pairing_guard_create`; `none` where it returns `NULL`. -/
def scPairingGuardCreate (sha256 : Bytes → Octets 32) (env : CreateEnv) (requirePairing : Bool)
    (existingTokens : List (Option CString)) : Option PairingGuard :=
  if ¬ env.guardAlloc then none
  else
    (fillTable sha256 env (blankGuard requirePairing) existingTokens).bind fun guard =>
      if requirePairing ∧ guard.tokenCount = 0 then
        env.random.map fun buf => { guard with pairingCode := generateCode buf }
      else some guard

/-! ## Pairing -/

/-- The arguments of one call of `sc_pairing_guard_attempt_pair`, and what it gets from
outside: the clock when the lockout is checked and when it is set, and the answers of the
random source and of the allocator. -/
structure PairAttempt where
  code : Option CString
  outToken : Bool
  checked : ℤ
  failed : ℤ
  random : Option (Octets 32)
  tableAlloc : Bool
  slotAlloc : Bool
  tokenAlloc : Bool

/-- The lockout is in force. -/
def PairingGuard.locked (guard : PairingGuard) (now : ℤ) : Prop :=
  guard.failedCount ≥ maxPairAttempts ∧ guard.lockoutUntil > 0 ∧ now < guard.lockoutUntil

instance (guard : PairingGuard) (now : ℤ) : Decidable (guard.locked now) :=
  inferInstanceAs (Decidable (_ ∧ _))

/-- A lockout that is over is forgotten. -/
def PairingGuard.unlock (guard : PairingGuard) : PairingGuard :=
  if guard.failedCount ≥ maxPairAttempts ∧ guard.lockoutUntil > 0 then
    { guard with failedCount := 0, lockoutUntil := 0 }
  else guard

/-- A wrong code is counted, and the last one that is allowed starts a lockout. -/
def PairingGuard.countFailure (guard : PairingGuard) (now : ℤ) : PairingGuard :=
  let failedCount := (guard.failedCount + 1) % 2 ^ 32
  { guard with
    failedCount := failedCount
    lockoutUntil :=
      if failedCount ≥ maxPairAttempts then now + pairLockoutSecs else guard.lockoutUntil }

/-- Room for one more entry; `none` when the table cannot grow. -/
def PairingGuard.growTable (guard : PairingGuard) (tableAlloc : Bool) : Option PairingGuard :=
  if guard.tokenCount ≥ guard.tokenCap then
    if tableAlloc then
      some { guard with
        pairedTokenHashes := some guard.hashes
        tokenCap := if guard.tokenCap ≠ 0 then guard.tokenCap * 2 else 8 }
    else none
  else some guard

/-- The entry behind the last one is written; `none` where there is no such place. -/
def PairingGuard.storeHash (guard : PairingGuard) (hash : Bytes) : Option PairingGuard :=
  guard.pairedTokenHashes.bind fun hashes =>
    if hashes.length < guard.tokenCap then
      some { guard with pairedTokenHashes := some (hashes ++ [hash]) }
    else none

/-- The code is accepted: the counters start anew and the code is spent. -/
def PairingGuard.spendCode (guard : PairingGuard) : PairingGuard :=
  { guard with failedCount := 0, lockoutUntil := 0, pairingCode := [] }

/-- What `sc_pairing_guard_attempt_pair` does once the code is accepted. -/
def issueToken (sha256 : Bytes → Octets 32) (guard : PairingGuard) (a : PairAttempt) :
    Option (PairAttemptResult × Option CString × PairingGuard) :=
  let guard := guard.spendCode
  match a.random with
  | none => some (.internalError, none, guard)
  | some buf =>
    match guard.growTable a.tableAlloc with
    | none => some (.internalError, none, guard)
    | some guard =>
      if ¬ a.slotAlloc ∨ ¬ a.tokenAlloc then some (.internalError, none, guard)
      else
        (guard.storeHash (hashTokenSha256 sha256 (generateToken buf))).map fun guard =>
          (.paired, some (tokenOf buf), guard)

/-- `sc_pairing_guard_attempt_pair`: the result, the token and the guard after the call. -/
def scPairingGuardAttemptPair (sha256 : Bytes → Octets 32) (guard : PairingGuard)
    (a : PairAttempt) : Option (PairAttemptResult × Option CString × PairingGuard) :=
  if ¬ a.outToken then some (.internalError, none, guard)
  else if ¬ guard.requirePairing then some (.disabled, none, guard)
  else if guard.tokenCount > 0 ∧ guard.pairingCode = [] then some (.alreadyPaired, none, guard)
  else
    match a.code with
    | none => some (.missingCode, none, guard)
    | some code =>
      if code.octets = [] then some (.missingCode, none, guard)
      else if guard.locked a.checked then some (.lockedOut, none, guard)
      else
        let guard := guard.unlock
        if guard.pairingCode = [] then some (.alreadyPaired, none, guard)
        else
          let trimmed := trimCode 15 code.octets
          if trimmed.length ≠ pairingCodeLen then
            some (.invalidCode, none, guard.countFailure a.failed)
          else if ¬ constantTimeEq trimmed guard.pairingCode then
            some (.invalidCode, none, guard.countFailure a.failed)
          else issueToken sha256 guard a

/-- `sc_pairing_guard_is_authenticated` -/
def scPairingGuardIsAuthenticated (sha256 : Bytes → Octets 32) (guard : PairingGuard)
    (token : Option CString) : Bool :=
  if ¬ guard.requirePairing then true
  else
    match token with
    | none => false
    | some t => guard.hashes.any fun hash =>
        constantTimeEq (hashTokenSha256 sha256 t.octets) hash

end SeaClaw.Security
