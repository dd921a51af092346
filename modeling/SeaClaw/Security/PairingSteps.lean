import SeaClaw.Security.Pairing
import SeaClaw.Lib.Machine

/-!
# What one attempt does

An attempt is refused, counted as a failure, or accepted; and an accepted attempt issues a
token if everything it needs is supplied. These are all the ways in which a guard changes.
-/

namespace SeaClaw.Security

open SeaClaw.Lib

/-! ## Comparing texts -/

/-- The comparison in constant time is equality. -/
@[simp] theorem constantTimeEq_iff (a b : Bytes) : constantTimeEq a b = true ↔ a = b := by
  unfold constantTimeEq
  by_cases hlen : a.length = b.length
  · simp only [hlen, ne_eq, not_true_eq_false, if_false, beq_iff_eq, foldl_xor_eq_zero_iff hlen]
  · rw [if_pos hlen]
    refine ⟨fun h => absurd h (by simp), ?_⟩
    rintro rfl
    exact absurd rfl hlen

theorem trimCode_nil (room : ℕ) : trimCode room [] = [] := by
  cases room <;> rfl

/-! ## Outcomes -/

variable (sha256 : Bytes → Octets 32)

/-- The table has as many entries as its capacity allows. -/
def PairingGuard.Fits (guard : PairingGuard) : Prop := guard.tokenCount ≤ guard.tokenCap

/-- The attempt carries the code of a guard that is not locked. -/
structure Accepts (guard : PairingGuard) (a : PairAttempt) : Prop where
  outToken : a.outToken = true
  requirePairing : guard.requirePairing = true
  unlocked : ¬ guard.locked a.checked
  length : guard.pairingCode.length = pairingCodeLen
  code : ∃ code, a.code = some code ∧ trimCode 15 code.octets = guard.pairingCode

/-- Whatever an accepted attempt asks for it gets, and the table has been allocated if it
has room. -/
structure Supplied (guard : PairingGuard) (a : PairAttempt) : Prop where
  random : a.random ≠ none
  table : guard.tokenCount ≥ guard.tokenCap → a.tableAlloc = true
  slot : a.slotAlloc = true
  token : a.tokenAlloc = true
  allocated : guard.tokenCount < guard.tokenCap → guard.pairedTokenHashes ≠ none

/-- The code is spent, nothing is counted, and the hashes are these. -/
structure Spent (guard guard' : PairingGuard) (hashes : List Bytes) : Prop where
  requirePairing : guard'.requirePairing = guard.requirePairing
  pairingCode : guard'.pairingCode = []
  failedCount : guard'.failedCount = 0
  lockoutUntil : guard'.lockoutUntil = 0
  hashes : guard'.hashes = hashes
  fits : guard'.Fits

variable {sha256} {guard : PairingGuard} {a : PairAttempt}

@[simp] theorem unlock_pairingCode : guard.unlock.pairingCode = guard.pairingCode := by
  unfold PairingGuard.unlock
  split_ifs <;> rfl

theorem unlock_spendCode : guard.unlock.spendCode = guard.spendCode := by
  unfold PairingGuard.unlock
  split_ifs <;> rfl

@[simp] theorem unlock_requirePairing : guard.unlock.requirePairing = guard.requirePairing := by
  unfold PairingGuard.unlock
  split_ifs <;> rfl

@[simp] theorem unlock_hashes : guard.unlock.hashes = guard.hashes := by
  unfold PairingGuard.unlock
  split_ifs <;> rfl

@[simp] theorem unlock_tokenCap : guard.unlock.tokenCap = guard.tokenCap := by
  unfold PairingGuard.unlock
  split_ifs <;> rfl

/-- An attempt is refused, counted, or accepted. -/
theorem scPairingGuardAttemptPair_cases (sha256 : Bytes → Octets 32) (guard : PairingGuard)
    (a : PairAttempt) :
    (¬ Accepts guard a ∧ ∃ r guard', scPairingGuardAttemptPair sha256 guard a =
        some (r, none, guard') ∧ r ≠ .paired ∧ r ≠ .invalidCode ∧
        (guard' = guard ∨ guard' = guard.unlock ∧ ¬ guard.locked a.checked)) ∨
    (¬ Accepts guard a ∧ scPairingGuardAttemptPair sha256 guard a =
        some (.invalidCode, none, guard.unlock.countFailure a.failed) ∧
        guard.pairingCode ≠ [] ∧ ¬ guard.locked a.checked) ∨
    (Accepts guard a ∧
      scPairingGuardAttemptPair sha256 guard a = issueToken sha256 guard a) := by
  unfold scPairingGuardAttemptPair
  by_cases hout : a.outToken = true
  swap
  · refine Or.inl ⟨fun h => hout h.outToken, .internalError, guard, ?_, by simp, by simp, .inl rfl⟩
    rw [if_pos hout]
  by_cases hreq : guard.requirePairing = true
  swap
  · refine Or.inl ⟨fun h => hreq h.requirePairing, .disabled, guard, ?_, by simp, by simp, .inl rfl⟩
    rw [if_neg (not_not.mpr hout), if_pos hreq]
  rw [if_neg (not_not.mpr hout), if_neg (not_not.mpr hreq)]
  by_cases hpaired : guard.tokenCount > 0 ∧ guard.pairingCode = []
  · refine Or.inl ⟨?_, .alreadyPaired, guard, if_pos hpaired, by simp, by simp, .inl rfl⟩
    intro h
    have := h.length
    simp [hpaired.2, pairingCodeLen] at this
  rw [if_neg hpaired]
  cases hcode : a.code with
  | none =>
    refine Or.inl ⟨?_, .missingCode, guard, rfl, by simp, by simp, .inl rfl⟩
    rintro ⟨-, -, -, -, code, hc, -⟩
    rw [hcode] at hc
    exact absurd hc (by simp)
  | some code =>
    simp only
    by_cases hempty : code.octets = []
    · refine Or.inl ⟨?_, .missingCode, guard, if_pos hempty, by simp, by simp, .inl rfl⟩
      rintro ⟨-, -, -, hlen, code', hc, htrim⟩
      obtain rfl := Option.some.inj (hcode.symm.trans hc)
      rw [← htrim, hempty, trimCode_nil] at hlen
      simp [pairingCodeLen] at hlen
    rw [if_neg hempty]
    by_cases hlock : guard.locked a.checked
    · exact Or.inl ⟨fun h => h.unlocked hlock, .lockedOut, guard, if_pos hlock, by simp, by simp,
        .inl rfl⟩
    rw [if_neg hlock, unlock_pairingCode]
    by_cases hnone : guard.pairingCode = []
    · refine Or.inl ⟨?_, .alreadyPaired, guard.unlock, if_pos hnone, by simp, by simp,
        .inr ⟨rfl, hlock⟩⟩
      intro h
      have := h.length
      simp [hnone, pairingCodeLen] at this
    rw [if_neg hnone]
    by_cases hlen : (trimCode 15 code.octets).length = pairingCodeLen
    swap
    · refine Or.inr (Or.inl ⟨?_, if_pos hlen, hnone, hlock⟩)
      rintro ⟨-, -, -, hlen', code', hc, htrim⟩
      obtain rfl := Option.some.inj (hcode.symm.trans hc)
      rw [htrim] at hlen
      exact hlen hlen'
    rw [if_neg (not_not.mpr hlen)]
    by_cases heq : trimCode 15 code.octets = guard.pairingCode
    · refine Or.inr (Or.inr ⟨⟨hout, hreq, hlock, by rw [← heq, hlen], code, hcode, heq⟩, ?_⟩)
      rw [if_neg (not_not.mpr ((constantTimeEq_iff _ _).mpr heq)), issueToken, unlock_spendCode]
      rfl
    · refine Or.inr (Or.inl ⟨?_, ?_, hnone, hlock⟩)
      · rintro ⟨-, -, -, -, code', hc, htrim⟩
        obtain rfl := Option.some.inj (hcode.symm.trans hc)
        exact heq htrim
      · rw [if_pos]
        rwa [constantTimeEq_iff]

/-- A code is spent and the hashes stay. -/
theorem spent_spendCode (hfits : guard.Fits) : Spent guard guard.spendCode guard.hashes :=
  ⟨rfl, rfl, rfl, rfl, rfl, hfits⟩

/-- The table grows when it is full, and keeps its entries. -/
theorem growTable_of_alloc (hfits : guard.Fits) (h : guard.tokenCount ≥ guard.tokenCap) :
    ∃ cap, guard.tokenCount < cap ∧ guard.growTable true =
      some { guard with pairedTokenHashes := some guard.hashes, tokenCap := cap } := by
  refine ⟨if guard.tokenCap ≠ 0 then guard.tokenCap * 2 else 8, ?_, ?_⟩
  · unfold PairingGuard.Fits at hfits
    split_ifs <;> omega
  · rw [PairingGuard.growTable, if_pos h, if_pos rfl]

/-- A new entry stands behind the others. -/
theorem storeHash_of_room {g : PairingGuard} {hashes : List Bytes}
    (h : g.pairedTokenHashes = some hashes) (hroom : hashes.length < g.tokenCap) (hash : Bytes) :
    g.storeHash hash = some { g with pairedTokenHashes := some (hashes ++ [hash]) } := by
  rw [PairingGuard.storeHash, h, Option.bind_some, if_pos hroom]

/-- With everything supplied, the token is issued and its hash stored behind the others. -/
theorem issueToken_of_supplied (sha256 : Bytes → Octets 32) (hfits : guard.Fits) (h : Supplied guard a) :
    ∃ buf guard', a.random = some buf ∧
      issueToken sha256 guard a = some (.paired, some (tokenOf buf), guard') ∧
      Spent guard guard' (guard.hashes ++ [hashTokenSha256 sha256 (generateToken buf)]) := by
  obtain ⟨buf, hbuf⟩ := Option.ne_none_iff_exists'.mp h.random
  have hslots : ¬ (¬ a.slotAlloc = true ∨ ¬ a.tokenAlloc = true) := by simp [h.slot, h.token]
  unfold issueToken
  simp only [hbuf]
  have hspent := spent_spendCode hfits
  by_cases hfull : guard.tokenCount ≥ guard.tokenCap
  · obtain ⟨cap, hcap, hgrow⟩ := growTable_of_alloc hspent.fits hfull
    rw [h.table hfull, hgrow]
    simp only [if_neg hslots]
    have hstore := storeHash_of_room (g := { guard.spendCode with
      pairedTokenHashes := some guard.spendCode.hashes, tokenCap := cap }) rfl hcap
      (hashTokenSha256 sha256 (generateToken buf))
    rw [hstore, Option.map_some]
    refine ⟨buf, _, rfl, rfl, ⟨rfl, rfl, rfl, rfl, rfl, ?_⟩⟩
    simp only [PairingGuard.Fits, PairingGuard.tokenCount, PairingGuard.hashes,
      Option.getD_some, List.length_append, List.length_singleton]
    exact hcap
  · obtain ⟨hashes, hhashes⟩ := Option.ne_none_iff_exists'.mp (h.allocated (by omega))
    have hget : guard.hashes = hashes := by rw [PairingGuard.hashes, hhashes, Option.getD_some]
    have hroom : hashes.length < guard.tokenCap := by
      rw [← hget]
      exact Nat.lt_of_not_le hfull
    have hgrow : guard.spendCode.growTable a.tableAlloc = some guard.spendCode := if_neg hfull
    rw [hgrow]
    simp only [if_neg hslots]
    rw [storeHash_of_room (g := guard.spendCode) hhashes hroom, Option.map_some]
    refine ⟨buf, _, rfl, rfl, ⟨rfl, rfl, rfl, rfl, by rw [hget]; rfl, ?_⟩⟩
    simp only [PairingGuard.Fits, PairingGuard.tokenCount, PairingGuard.hashes,
      Option.getD_some, List.length_append, List.length_singleton]
    exact hroom

/-- Without something it needs, an accepted attempt spends the code and stores nothing, or
writes through a table that was never allocated. -/
theorem issueToken_of_not_supplied (sha256 : Bytes → Octets 32) (hfits : guard.Fits) (h : ¬ Supplied guard a) :
    issueToken sha256 guard a = none ∨
      ∃ guard', issueToken sha256 guard a = some (.internalError, none, guard') ∧
        Spent guard guard' guard.hashes := by
  have hspent := spent_spendCode hfits
  unfold issueToken
  cases hbuf : a.random with
  | none => exact Or.inr ⟨_, rfl, hspent⟩
  | some buf =>
    simp only
    by_cases hfull : guard.tokenCount ≥ guard.tokenCap
    · cases htable : a.tableAlloc with
      | false =>
        have hgrow : guard.spendCode.growTable false = none :=
          (if_pos hfull).trans (if_neg (by simp))
        rw [hgrow]
        exact Or.inr ⟨_, rfl, hspent⟩
      | true =>
        obtain ⟨cap, hcap, hgrow⟩ :=
          growTable_of_alloc hspent.fits hfull
        have hslots : ¬ a.slotAlloc = true ∨ ¬ a.tokenAlloc = true := by
          by_contra hno
          rw [not_or, not_not, not_not] at hno
          exact h ⟨by simp [hbuf], fun _ => htable, hno.1, hno.2,
            fun hlt => absurd hfull (Nat.not_le_of_lt hlt)⟩
        rw [hgrow]
        simp only [if_pos hslots]
        exact Or.inr ⟨_, rfl, ⟨rfl, rfl, rfl, rfl, rfl, Nat.le_of_lt hcap⟩⟩
    · have hgrow : guard.spendCode.growTable a.tableAlloc = some guard.spendCode := if_neg hfull
      rw [hgrow]
      simp only
      by_cases hslots : ¬ a.slotAlloc = true ∨ ¬ a.tokenAlloc = true
      · rw [if_pos hslots]
        exact Or.inr ⟨_, rfl, hspent⟩
      · rw [if_neg hslots]
        rw [not_or, not_not, not_not] at hslots
        have hnull : guard.pairedTokenHashes = none := by
          by_contra hsome
          exact h ⟨by simp [hbuf], fun hge => absurd hge hfull, hslots.1, hslots.2, fun _ => hsome⟩
        refine Or.inl ?_
        rw [PairingGuard.storeHash]
        simp [PairingGuard.spendCode, hnull]

/-- All that an attempt which returns can have done. -/
theorem attempt_outcome (hfits : guard.Fits) {r : PairAttemptResult} {token : Option CString}
    {guard' : PairingGuard}
    (h : scPairingGuardAttemptPair sha256 guard a = some (r, token, guard')) :
    (r ≠ .paired ∧ r ≠ .invalidCode ∧ token = none ∧
      (guard' = guard ∨ guard' = guard.unlock ∧ ¬ guard.locked a.checked)) ∨
    (r = .invalidCode ∧ token = none ∧ guard' = guard.unlock.countFailure a.failed ∧
      guard.pairingCode ≠ [] ∧ ¬ guard.locked a.checked) ∨
    (Accepts guard a ∧ r = .internalError ∧ token = none ∧ Spent guard guard' guard.hashes) ∨
    (Accepts guard a ∧ ∃ buf, r = .paired ∧ token = some (tokenOf buf) ∧
      Spent guard guard' (guard.hashes ++ [hashTokenSha256 sha256 (generateToken buf)])) := by
  rcases scPairingGuardAttemptPair_cases sha256 guard a with ⟨-, r', g, hrun, hpaired, hinv, hg⟩ |
    ⟨-, hrun, hcode, hlock⟩ | ⟨hyes, hrun⟩
  · rw [hrun, Option.some.injEq, Prod.mk.injEq, Prod.mk.injEq] at h
    obtain ⟨rfl, rfl, rfl⟩ := h
    exact Or.inl ⟨hpaired, hinv, rfl, hg⟩
  · rw [hrun, Option.some.injEq, Prod.mk.injEq, Prod.mk.injEq] at h
    obtain ⟨rfl, rfl, rfl⟩ := h
    exact Or.inr (Or.inl ⟨rfl, rfl, rfl, hcode, hlock⟩)
  · rw [hrun] at h
    refine Or.inr (Or.inr ?_)
    by_cases hs : Supplied guard a
    · obtain ⟨buf, g, -, hissue, hspent⟩ := issueToken_of_supplied sha256 hfits hs
      rw [hissue, Option.some.injEq, Prod.mk.injEq, Prod.mk.injEq] at h
      obtain ⟨rfl, rfl, rfl⟩ := h
      exact Or.inr ⟨hyes, buf, rfl, rfl, hspent⟩
    · rcases issueToken_of_not_supplied sha256 hfits hs with hnone | ⟨g, hissue, hspent⟩
      · rw [hnone] at h
        exact absurd h (by simp)
      · rw [hissue, Option.some.injEq, Prod.mk.injEq, Prod.mk.injEq] at h
        obtain ⟨rfl, rfl, rfl⟩ := h
        exact Or.inl ⟨hyes, rfl, rfl, hspent⟩

@[simp] theorem countFailure_pairingCode (now : ℤ) :
    (guard.countFailure now).pairingCode = guard.pairingCode := rfl

@[simp] theorem countFailure_hashes (now : ℤ) :
    (guard.countFailure now).hashes = guard.hashes := rfl

/-- An attempt leaves the table within its capacity, and does not turn pairing on or off. -/
theorem attempt_frame (hfits : guard.Fits) {r : PairAttemptResult} {token : Option CString}
    {guard' : PairingGuard}
    (h : scPairingGuardAttemptPair sha256 guard a = some (r, token, guard')) :
    guard'.Fits ∧ guard'.requirePairing = guard.requirePairing := by
  have hunlock : guard.unlock.Fits := by
    simpa [PairingGuard.Fits, PairingGuard.tokenCount] using hfits
  rcases attempt_outcome hfits h with ⟨-, -, -, rfl | ⟨rfl, -⟩⟩ | ⟨-, -, rfl, -, -⟩ |
    ⟨-, -, -, hspent⟩ |
    ⟨-, buf, -, -, hspent⟩
  · exact ⟨hfits, rfl⟩
  · exact ⟨hunlock, unlock_requirePairing⟩
  · exact ⟨hunlock, unlock_requirePairing⟩
  · exact ⟨hspent.fits, hspent.requirePairing⟩
  · exact ⟨hspent.fits, hspent.requirePairing⟩

end SeaClaw.Security
