import Mathlib.Data.List.ReduceOption
import SeaClaw.Security.PairingSteps

/-!
# Pairing under failures

An attempt should either pair or leave the code and the hashes alone. The code is spent
before the token exists, so that every failure in between loses it: an attempt is atomic
exactly when it is not accepted or gets all that it asks for.
-/

namespace SeaClaw.Security

open SeaClaw.Lib

/-! ## New guards -/

/-- What is stored for the tokens given at creation. -/
theorem storeTokens_eq {sha256 : Bytes → Octets 32} {slotAlloc : ℕ → Bool} {i : ℕ}
    {tokens : List (Option CString)} {hashes : List Bytes}
    (h : storeTokens sha256 slotAlloc i tokens = some hashes) :
    hashes = tokens.reduceOption.map fun t => storedEntry sha256 t.octets := by
  induction tokens generalizing i hashes with
  | nil =>
    obtain rfl := Option.some.inj h
    rfl
  | cons t tokens ih =>
    cases t with
    | none => exact ih h
    | some t =>
      rw [storeTokens] at h
      split_ifs at h with hslot
      obtain ⟨rest, hrest, rfl⟩ := Option.map_eq_some_iff.mp h
      rw [ih hrest]
      rfl

/-- A new guard: what it stores, and that it has a code unless it has a hash or asks for no
pairing. -/
structure Created (sha256 : Bytes → Octets 32) (env : CreateEnv) (requirePairing : Bool)
    (tokens : List (Option CString)) (guard : PairingGuard) : Prop where
  requirePairing : guard.requirePairing = requirePairing
  hashes : guard.hashes = if env.tableAlloc then
    tokens.reduceOption.map fun t => storedEntry sha256 t.octets else []
  fits : guard.Fits
  code : guard.pairingCode = [] ∨ guard.pairingCode.length = pairingCodeLen
  available : guard.requirePairing = true → guard.hashes = [] → guard.pairingCode ≠ []
  failedCount : guard.failedCount = 0
  lockoutUntil : guard.lockoutUntil = 0

theorem generateCode_length (buf : Octets 4) : (generateCode buf).length = pairingCodeLen :=
  length_fmtPad (by decide) (Nat.mod_lt _ (by decide))

/-- What the table of a new guard holds. -/
theorem fillTable_spec {sha256 : Bytes → Octets 32} {env : CreateEnv} {requirePairing : Bool}
    {tokens : List (Option CString)} {guard : PairingGuard}
    (h : fillTable sha256 env (blankGuard requirePairing) tokens = some guard) :
    guard = { blankGuard requirePairing with
      pairedTokenHashes := guard.pairedTokenHashes, tokenCap := guard.tokenCap } ∧
    guard.hashes = (if env.tableAlloc then
      tokens.reduceOption.map fun t => storedEntry sha256 t.octets else []) ∧ guard.Fits := by
  unfold fillTable at h
  by_cases hlen : tokens.length > 0
  · rw [if_pos hlen] at h
    by_cases htable : env.tableAlloc = true
    · simp only [htable, if_true] at h ⊢
      obtain ⟨hashes, hstore, rfl⟩ := Option.map_eq_some_iff.mp h
      have heq := storeTokens_eq hstore
      have hle : hashes.length ≤ tokens.length := by
        rw [heq, List.length_map]
        exact List.reduceOption_length_le tokens
      refine ⟨rfl, heq, ?_⟩
      simp only [PairingGuard.Fits, PairingGuard.tokenCount, PairingGuard.hashes,
        Option.getD_some]
      split_ifs <;> omega
    · simp only [htable, if_false, Bool.false_eq_true] at h ⊢
      obtain rfl := Option.some.inj h
      exact ⟨rfl, rfl, Nat.zero_le _⟩
  · rw [if_neg hlen] at h
    obtain rfl := Option.some.inj h
    have hnil : tokens = [] := by
      rw [← List.length_eq_zero_iff]
      omega
    subst hnil
    exact ⟨rfl, by simp [PairingGuard.hashes, blankGuard], Nat.zero_le _⟩

/-- What a guard is when it is created. -/
theorem scPairingGuardCreate_created {sha256 : Bytes → Octets 32} {env : CreateEnv}
    {requirePairing : Bool} {tokens : List (Option CString)} {guard : PairingGuard}
    (h : scPairingGuardCreate sha256 env requirePairing tokens = some guard) :
    Created sha256 env requirePairing tokens guard := by
  unfold scPairingGuardCreate at h
  split_ifs at h
  obtain ⟨filled, hfilled, h⟩ := Option.bind_eq_some_iff.mp h
  obtain ⟨hblank, hhashes, hfits⟩ := fillTable_spec hfilled
  have hcode : filled.pairingCode = [] := by rw [hblank]; rfl
  split_ifs at h with hneed
  · obtain ⟨buf, -, rfl⟩ := Option.map_eq_some_iff.mp h
    have hlen := generateCode_length buf
    refine ⟨by rw [hblank]; rfl, hhashes, hfits, Or.inr hlen, fun _ _ hnil => ?_,
      by rw [hblank]; rfl, by rw [hblank]; rfl⟩
    rw [show generateCode buf = [] from hnil] at hlen
    exact absurd hlen (by decide)
  · obtain rfl := Option.some.inj h
    have hreq : filled.requirePairing = requirePairing := by rw [hblank]; rfl
    refine ⟨hreq, hhashes, hfits, Or.inl hcode, fun hr hnil => ?_, by rw [hblank]; rfl,
      by rw [hblank]; rfl⟩
    refine absurd ⟨hreq ▸ hr, ?_⟩ hneed
    rw [PairingGuard.tokenCount, hnil, List.length_nil]

/-! ## Attempts -/

/-- The guard after an attempt. -/
def attemptStep (sha256 : Bytes → Octets 32) (guard : PairingGuard) (a : PairAttempt) :
    Option PairingGuard :=
  (scPairingGuardAttemptPair sha256 guard a).map fun r => r.2.2

/-- An attempt returns, and pairs or leaves the code and the hashes as they are. -/
def Atomic (sha256 : Bytes → Octets 32) (guard : PairingGuard) (a : PairAttempt) : Prop :=
  ∃ r token guard', scPairingGuardAttemptPair sha256 guard a = some (r, token, guard') ∧
    (r ≠ .paired → guard'.pairingCode = guard.pairingCode ∧ guard'.hashes = guard.hashes) ∧
    (r = .paired → ∃ t, token = some t ∧ guard'.pairingCode = [] ∧
      guard'.hashes = guard.hashes ++ [hashTokenSha256 sha256 t.octets])

/-- A guard that asks for pairing and has no token has a code. -/
def Available (guard : PairingGuard) : Prop :=
  guard.requirePairing = true → guard.hashes = [] → guard.pairingCode ≠ []

/-- If the code is accepted, nothing fails afterwards. -/
def Survives (guard : PairingGuard) (a : PairAttempt) : Prop :=
  Accepts guard a → Supplied guard a

variable {sha256 : Bytes → Octets 32} {guard guard' : PairingGuard} {a : PairAttempt}

/-- An attempt is atomic exactly when nothing fails after its code is accepted. -/
theorem atomic_iff (hfits : guard.Fits) : Atomic sha256 guard a ↔ Survives guard a := by
  rcases scPairingGuardAttemptPair_cases sha256 guard a with ⟨hno, r, g, hrun, hr, -, hg⟩ |
    ⟨hno, hrun, -, -⟩ | ⟨hyes, hrun⟩
  · refine ⟨fun _ h => absurd h hno, fun _ => ⟨r, none, g, hrun, fun _ => ?_, fun h => absurd h hr⟩⟩
    rcases hg with rfl | ⟨rfl, -⟩ <;> simp
  · exact ⟨fun _ h => absurd h hno, fun _ => ⟨_, _, _, hrun, fun _ => by simp, by simp⟩⟩
  · constructor
    · rintro ⟨r, token, g, hatt, hkeep, -⟩ -
      by_contra hs
      rcases issueToken_of_not_supplied sha256 hfits hs with hnone | ⟨g', hissue, hspent⟩
      · rw [hrun, hnone] at hatt
        exact absurd hatt (by simp)
      · rw [hrun, hissue, Option.some.injEq, Prod.mk.injEq, Prod.mk.injEq] at hatt
        obtain ⟨rfl, -, rfl⟩ := hatt
        have hcode := (hkeep (by simp)).1
        have hlen := hyes.length
        rw [← hcode, hspent.pairingCode] at hlen
        exact absurd hlen (by decide)
    · intro h
      obtain ⟨buf, g, -, hissue, hspent⟩ := issueToken_of_supplied sha256 hfits (h hyes)
      exact ⟨_, _, _, hrun.trans hissue, fun hne => absurd rfl hne,
        fun _ => ⟨_, rfl, hspent.pairingCode, hspent.hashes⟩⟩

/-- An atomic attempt leaves a code to a guard that needs one. -/
theorem Atomic.available (hfits : guard.Fits) (hav : Available guard)
    (h : Atomic sha256 guard a) : ∃ guard', attemptStep sha256 guard a = some guard' ∧
      guard'.Fits ∧ Available guard' := by
  obtain ⟨r, token, g, hrun, hkeep, hpair⟩ := h
  obtain ⟨hfits', hreq⟩ := attempt_frame hfits hrun
  refine ⟨g, by rw [attemptStep, hrun, Option.map_some], hfits', ?_⟩
  intro hr hnil
  by_cases hp : r = .paired
  · obtain ⟨t, -, -, hhashes⟩ := hpair hp
    rw [hhashes] at hnil
    simp at hnil
  · obtain ⟨hcode, hhashes⟩ := hkeep hp
    rw [hcode]
    exact hav (hreq ▸ hr) (hhashes ▸ hnil)

/-- In every run of attempts on a new guard, every attempt is atomic and the guard never
needs a code that it does not have, if and only if nothing fails after a code is
accepted. -/
theorem scPairingGuardAttemptPair_atomic_iff (sha256 : Bytes → Octets 32) (env : CreateEnv)
    (requirePairing : Bool) (tokens : List (Option CString)) (guard : PairingGuard)
    (h : scPairingGuardCreate sha256 env requirePairing tokens = some guard)
    (attempts : List PairAttempt) :
    (Machine.EveryStep (attemptStep sha256) (Atomic sha256) guard attempts ∧
      Machine.Throughout (attemptStep sha256) Available guard attempts) ↔
    Machine.EveryStep (attemptStep sha256) Survives guard attempts := by
  have hnew := scPairingGuardCreate_created h
  have hiff : Machine.EveryStep (attemptStep sha256) (Atomic sha256) guard attempts ↔
      Machine.EveryStep (attemptStep sha256) Survives guard attempts := by
    refine Machine.everyStep_congr (I := PairingGuard.Fits) ?_ (fun s a hs => atomic_iff hs)
      hnew.fits attempts
    intro g a g' hg hstep
    obtain ⟨r, hrun, rfl⟩ := Option.map_eq_some_iff.mp hstep
    exact (attempt_frame hg hrun).1
  rw [← hiff]
  refine ⟨fun hboth => hboth.1, fun hatomic => ⟨hatomic, ?_⟩⟩
  have hall := hatomic.throughout (I := fun g => g.Fits ∧ Available g) ?_
    ⟨hnew.fits, hnew.available⟩
  · exact hall.mono fun g hg => hg.2
  · rintro g a ⟨hg, hav⟩ hat
    exact hat.available hg hav

/-- Every answer from outside is favourable, and the random octets are zero. -/
def goodEnv : CreateEnv := ⟨true, true, fun _ => true, some ⟨[0, 0, 0, 0], rfl⟩⟩

/-- A digest that is the same for every text. -/
def zeroDigest (_ : Bytes) : Octets 32 := ⟨List.replicate 32 0, List.length_replicate⟩

/-- The guard created with these answers and no tokens. -/
def zeroCodeGuard : PairingGuard := ⟨true, ascii "00000000", none, 0, 0, 0⟩

theorem zeroCode_noNul : 0 ∉ ascii "0000 0000" := by decide

/-- The right code, with the given answer of the random source. -/
def zeroCodeAttempt (random : Option (Octets 32)) : PairAttempt :=
  ⟨some ⟨ascii "0000 0000", zeroCode_noNul⟩, true, 0, 0, random, true, true, true⟩

theorem scPairingGuardCreate_zeroCode (sha256 : Bytes → Octets 32) :
    scPairingGuardCreate sha256 goodEnv true [] = some zeroCodeGuard := by
  have hcode : generateCode ⟨[0, 0, 0, 0], rfl⟩ = ascii "00000000" := by decide
  rw [scPairingGuardCreate, if_neg (by simp [goodEnv]), fillTable, if_neg (by simp),
    Option.bind_some, if_pos ⟨rfl, rfl⟩]
  simp only [goodEnv, Option.map_some, hcode]
  rfl

theorem scPairingGuardAttemptPair_atomic_zeroCode :
    Machine.EveryStep (attemptStep zeroDigest) (Atomic zeroDigest) zeroCodeGuard
        [zeroCodeAttempt (some (zeroDigest []))] ∧
      Machine.Throughout (attemptStep zeroDigest) Available zeroCodeGuard
        [zeroCodeAttempt (some (zeroDigest []))] := by
  refine (scPairingGuardAttemptPair_atomic_iff zeroDigest goodEnv true [] zeroCodeGuard
    (scPairingGuardCreate_zeroCode zeroDigest) _).mpr ⟨fun _ => ?_, fun _ _ => trivial⟩
  exact ⟨Option.some_ne_none _, fun _ => rfl, rfl, rfl, fun h => absurd h (by decide)⟩

/-- Without random octets for the token, the right code is spent for nothing. -/
theorem scPairingGuardAttemptPair_loses_code :
    scPairingGuardCreate zeroDigest goodEnv true [] = some zeroCodeGuard ∧
    ¬ (Machine.EveryStep (attemptStep zeroDigest) (Atomic zeroDigest) zeroCodeGuard
          [zeroCodeAttempt none] ∧
        Machine.Throughout (attemptStep zeroDigest) Available zeroCodeGuard
          [zeroCodeAttempt none]) := by
  refine ⟨scPairingGuardCreate_zeroCode zeroDigest, ?_⟩
  rintro ⟨-, -, guard, hguard, hav⟩
  obtain rfl : zeroCodeGuard.spendCode = guard := Option.some.inj hguard
  exact hav rfl rfl rfl

end SeaClaw.Security
