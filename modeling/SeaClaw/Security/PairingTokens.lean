import SeaClaw.Security.PairingLockout
import Mathlib.Data.Set.Function

/-!
# Who is authenticated

A guard stores the hash of every raw token it was given and of every token it issued, and
the hashes it was given as they were written. A token is looked up by the print of its hash,
which is in lower case, so that a hash given in upper case is never found.
-/

namespace SeaClaw.Security

open SeaClaw.Lib

/-- The tokens issued in a run of attempts, and the guard behind it. -/
def pairRun (sha256 : Bytes → Octets 32) :
    PairingGuard → List PairAttempt → Option (List CString × PairingGuard)
  | guard, [] => some ([], guard)
  | guard, a :: attempts =>
    (scPairingGuardAttemptPair sha256 guard a).bind fun (_, token, guard') =>
      (pairRun sha256 guard' attempts).map fun (issued, last) => (token.toList ++ issued, last)

/-- The token was issued, or given raw, or its hash was given in digits of either case. -/
def Entitled (sha256 : Bytes → Octets 32) (tokens : List (Option CString)) (issued : List CString)
    (t : CString) : Prop :=
  t ∈ issued ∨ (some t ∈ tokens ∧ isTokenHash t.octets = false) ∨
    ∃ hash, some hash ∈ tokens ∧ isTokenHash hash.octets = true ∧
      hexDecode hash.octets = some (sha256 t.octets).val

/-- A token that was not issued is not given at creation in any form; or the table was
allocated, and the token was given raw or by its hash in lower case. -/
def Findable (sha256 : Bytes → Octets 32) (env : CreateEnv) (tokens : List (Option CString))
    (issued : List CString) (t : CString) : Prop :=
  t ∈ issued ∨
    ((some t ∈ tokens → isTokenHash t.octets = true) ∧ ∀ hash, some hash ∈ tokens →
      isTokenHash hash.octets = true → hexDecode hash.octets ≠ some (sha256 t.octets).val) ∨
    (env.tableAlloc = true ∧ ((some t ∈ tokens ∧ isTokenHash t.octets = false) ∨
      ∃ hash, some hash ∈ tokens ∧ hash.octets = hexEncode (sha256 t.octets).val))

variable {sha256 : Bytes → Octets 32} {env : CreateEnv} {tokens : List (Option CString)}

/-- A run adds the hashes of the tokens it issues, in order. -/
theorem pairRun_hashes {guard last : PairingGuard} (hfits : guard.Fits)
    {attempts : List PairAttempt} {issued : List CString}
    (h : pairRun sha256 guard attempts = some (issued, last)) :
    last.requirePairing = guard.requirePairing ∧ last.hashes = guard.hashes ++
      issued.map fun t => hashTokenSha256 sha256 t.octets := by
  induction attempts generalizing guard issued with
  | nil =>
    obtain ⟨rfl, rfl⟩ := Prod.mk.inj (Option.some.inj h)
    simp
  | cons a attempts ih =>
    rw [pairRun] at h
    obtain ⟨⟨r, token, guard'⟩, hrun, h⟩ := Option.bind_eq_some_iff.mp h
    obtain ⟨⟨rest, last'⟩, hrest, h⟩ := Option.map_eq_some_iff.mp h
    obtain ⟨rfl, rfl⟩ := Prod.mk.inj h
    obtain ⟨hfits', hreq⟩ := attempt_frame hfits hrun
    obtain ⟨hreq', hhashes⟩ := ih hfits' hrest
    refine ⟨hreq'.trans hreq, ?_⟩
    rw [hhashes]
    rcases attempt_outcome hfits hrun with ⟨-, -, rfl, hg⟩ | ⟨-, rfl, rfl, -, -⟩ |
      ⟨-, -, rfl, hspent⟩ | ⟨-, buf, -, rfl, hspent⟩
    · rcases hg with rfl | ⟨rfl, -⟩ <;> simp
    · simp
    · rw [hspent.hashes]
      rfl
    · rw [hspent.hashes, List.append_assoc]
      rfl

/-- A hash that spells a digest has the digits of a hash. -/
theorem isTokenHash_hexEncode (d : Octets 32) : isTokenHash (hexEncode d.val) = true := by
  have hlen : (hexEncode d.val).length = 64 := by rw [length_hexEncode, d.property]
  have hall : ∀ s : Bytes, (hexEncode s).all isHexDigit = true := by
    intro s
    induction s with
    | nil => rfl
    | cons b s ih =>
      have hb := b.toNat_lt
      have hdigit : ∀ n < 16, isHexDigit (hexDigit n) = true := by decide
      rw [hexEncode, List.all_cons, List.all_cons, hdigit _ (by omega), hdigit _ (by omega), ih]
      rfl
  rw [isTokenHash, hall, hlen]
  rfl

/-- Without collisions, a stored entry is the hash of `t` when it is that of `t` given raw or
is given as this text. -/
theorem storedEntry_eq_iff {t s : CString}
    (hinj : sha256 s.octets = sha256 t.octets → s.octets = t.octets) :
    storedEntry sha256 s.octets = hashTokenSha256 sha256 t.octets ↔
      (s = t ∧ isTokenHash t.octets = false) ∨ s.octets = hexEncode (sha256 t.octets).val := by
  unfold storedEntry
  by_cases hs : isTokenHash s.octets = true
  · rw [if_pos hs]
    refine ⟨Or.inr, ?_⟩
    rintro (⟨rfl, hraw⟩ | heq)
    · rw [hs] at hraw
      exact absurd hraw (by simp)
    · exact heq
  · rw [if_neg hs]
    constructor
    · intro heq
      have hoct := hinj (Subtype.ext (hexEncode_injective heq))
      obtain rfl : s = t := CString.ext hoct
      exact Or.inl ⟨rfl, by simpa using hs⟩
    · rintro (⟨rfl, -⟩ | heq)
      · rfl
      · rw [heq] at hs
        exact absurd (isTokenHash_hexEncode _) hs

/-- What the guard of a run finds. -/
theorem isAuthenticated_iff {guard last : PairingGuard} {attempts : List PairAttempt}
    {issued : List CString} (h : scPairingGuardCreate sha256 env true tokens = some guard)
    (hrun : pairRun sha256 guard attempts = some (issued, last)) (t : CString)
    (hinj : Set.InjOn sha256 {x | ∃ s : CString, x = s.octets ∧
      (s = t ∨ some s ∈ tokens ∨ s ∈ issued)}) :
    scPairingGuardIsAuthenticated sha256 last (some t) = true ↔ t ∈ issued ∨
      (env.tableAlloc = true ∧ ((some t ∈ tokens ∧ isTokenHash t.octets = false) ∨
        ∃ hash, some hash ∈ tokens ∧ hash.octets = hexEncode (sha256 t.octets).val)) := by
  have hnew := scPairingGuardCreate_created h
  obtain ⟨hreq, hhashes⟩ := pairRun_hashes hnew.fits hrun
  have ht : t.octets ∈ {x | ∃ s : CString, x = s.octets ∧
      (s = t ∨ some s ∈ tokens ∨ s ∈ issued)} := ⟨t, rfl, Or.inl rfl⟩
  have hmem : ∀ s : CString, some s ∈ tokens ↔ s ∈ tokens.reduceOption := fun s =>
    List.reduceOption_mem_iff.symm
  rw [scPairingGuardIsAuthenticated, hreq, hnew.requirePairing, if_neg (by simp)]
  simp only [List.any_eq_true, constantTimeEq_iff, hhashes, hnew.hashes, exists_eq_right']
  rw [List.mem_append, or_comm]
  refine or_congr ?_ ?_
  · rw [List.mem_map]
    constructor
    · rintro ⟨s, hs, heq⟩
      have hoct := hinj ⟨s, rfl, Or.inr (Or.inr hs)⟩ ht (Subtype.ext (hexEncode_injective heq))
      obtain rfl : s = t := CString.ext hoct
      exact hs
    · intro hs
      exact ⟨t, hs, rfl⟩
  · split_ifs with htable
    · simp only [htable, true_and, List.mem_map]
      constructor
      · rintro ⟨s, hs, heq⟩
        rw [← hmem] at hs
        rw [storedEntry_eq_iff fun he => hinj ⟨s, rfl, Or.inr (Or.inl hs)⟩ ht he] at heq
        rcases heq with ⟨rfl, hraw⟩ | heq
        · exact Or.inl ⟨hs, hraw⟩
        · exact Or.inr ⟨s, hs, heq⟩
      · rintro (⟨hs, hraw⟩ | ⟨s, hs, heq⟩)
        · exact ⟨t, (hmem t).mp hs, (storedEntry_eq_iff fun _ => rfl).mpr (Or.inl ⟨rfl, hraw⟩)⟩
        · refine ⟨s, (hmem s).mp hs, (storedEntry_eq_iff fun he => ?_).mpr (Or.inr heq)⟩
          exact hinj ⟨s, rfl, Or.inr (Or.inl hs)⟩ ht he
    · simp [htable]

/-- A guard that requires pairing authenticates exactly the tokens that are entitled to it,
if and only if the token is findable. The hashes of the tokens in play do not collide. -/
theorem scPairingGuardIsAuthenticated_entitled_iff (sha256 : Bytes → Octets 32) (env : CreateEnv)
    (tokens : List (Option CString)) (guard last : PairingGuard) (attempts : List PairAttempt)
    (issued : List CString) (h : scPairingGuardCreate sha256 env true tokens = some guard)
    (hrun : pairRun sha256 guard attempts = some (issued, last)) (t : CString)
    (hinj : Set.InjOn sha256 {x | ∃ s : CString, x = s.octets ∧
      (s = t ∨ some s ∈ tokens ∨ s ∈ issued)}) :
    (scPairingGuardIsAuthenticated sha256 last (some t) = true ↔
        Entitled sha256 tokens issued t) ↔ Findable sha256 env tokens issued t := by
  rw [isAuthenticated_iff h hrun t hinj]
  have hlower : ∀ hash : CString, hash.octets = hexEncode (sha256 t.octets).val →
      isTokenHash hash.octets = true ∧ hexDecode hash.octets = some (sha256 t.octets).val := by
    intro hash heq
    rw [heq]
    exact ⟨isTokenHash_hexEncode _, hexDecode_hexEncode _⟩
  unfold Entitled Findable
  constructor
  · intro hiff
    by_cases hent : t ∈ issued ∨ (some t ∈ tokens ∧ isTokenHash t.octets = false) ∨
        ∃ hash, some hash ∈ tokens ∧ isTokenHash hash.octets = true ∧
          hexDecode hash.octets = some (sha256 t.octets).val
    · rcases hiff.mpr hent with hi | hstored
      · exact Or.inl hi
      · exact Or.inr (Or.inr hstored)
    · rw [not_or, not_or, not_and, Bool.not_eq_false] at hent
      obtain ⟨-, hraw, hhash⟩ := hent
      refine Or.inr (Or.inl ⟨hraw, ?_⟩)
      intro hash hm hshape hdec
      exact hhash ⟨hash, hm, hshape, hdec⟩
  · rintro (hi | ⟨hraw, hhash⟩ | hstored)
    · exact iff_of_true (Or.inl hi) (Or.inl hi)
    · refine or_congr Iff.rfl (iff_of_false ?_ ?_)
      · rintro ⟨-, ⟨hm, hno⟩ | ⟨hash, hm, heq⟩⟩
        · rw [hraw hm] at hno
          exact absurd hno (by simp)
        · exact hhash hash hm (hlower hash heq).1 (hlower hash heq).2
      · rintro (⟨hm, hno⟩ | ⟨hash, hm, hshape, hdec⟩)
        · rw [hraw hm] at hno
          exact absurd hno (by simp)
        · exact hhash hash hm hshape hdec
    · refine iff_of_true (Or.inr hstored) (Or.inr ?_)
      rcases hstored.2 with hr | ⟨hash, hm, heq⟩
      · exact Or.inl hr
      · exact Or.inr ⟨hash, hm, (hlower hash heq).1, (hlower hash heq).2⟩

/-- A digest that keeps the first octet of a text. -/
def headDigest (text : Bytes) : Octets 32 :=
  ⟨text.headD 0 :: List.replicate 31 0, by simp⟩

theorem tokenJ_noNul : 0 ∉ ascii "j" := by decide

theorem upperHash_noNul : 0 ∉ ascii "6A" ++ List.replicate 62 (ch '0') := by decide

/-- A raw token, and its digest in capital letters. -/
def tokenJ : CString := ⟨ascii "j", tokenJ_noNul⟩

def upperHash : CString := ⟨ascii "6A" ++ List.replicate 62 (ch '0'), upperHash_noNul⟩

/-- A guard with one hash in its table. -/
def oneHashGuard (hash : Bytes) : PairingGuard := ⟨true, [], some [hash], 8, 0, 0⟩

theorem injOn_headDigest : Set.InjOn headDigest {x | ∃ s : CString, x = s.octets ∧
    (s = tokenJ ∨ some s ∈ [some upperHash] ∨ s ∈ ([] : List CString))} := by
  have hne : headDigest tokenJ.octets ≠ headDigest upperHash.octets := by decide
  rintro x ⟨s, rfl, hs⟩ y ⟨s', rfl, hs'⟩ heq
  simp only [List.mem_singleton, Option.some.injEq, List.not_mem_nil, or_false] at hs hs'
  rcases hs with rfl | rfl <;> rcases hs' with rfl | rfl
  · rfl
  · exact absurd heq hne
  · exact absurd heq.symm hne
  · rfl

theorem scPairingGuardIsAuthenticated_entitled_raw :
    (scPairingGuardIsAuthenticated zeroDigest
        (oneHashGuard (hexEncode (List.replicate 32 0))) (some tokenJ) = true ↔
      Entitled zeroDigest [some tokenJ] [] tokenJ) ↔
    Findable zeroDigest goodEnv [some tokenJ] [] tokenJ := by
  refine scPairingGuardIsAuthenticated_entitled_iff zeroDigest goodEnv [some tokenJ] _ _ [] [] rfl
    rfl tokenJ ?_
  rintro x ⟨s, rfl, hs⟩ y ⟨s', rfl, hs'⟩ -
  simp only [List.mem_singleton, Option.some.injEq, List.not_mem_nil, or_false, or_self] at hs hs'
  rw [hs, hs']

/-- A digest given in capital letters is kept as it is, and its token is not found. -/
theorem scPairingGuardIsAuthenticated_upperHash :
    scPairingGuardCreate headDigest goodEnv true [some upperHash] =
        some (oneHashGuard upperHash.octets) ∧
      pairRun headDigest (oneHashGuard upperHash.octets) [] =
        some ([], oneHashGuard upperHash.octets) ∧
      Set.InjOn headDigest {x | ∃ s : CString, x = s.octets ∧
        (s = tokenJ ∨ some s ∈ [some upperHash] ∨ s ∈ ([] : List CString))} ∧
      ¬ (scPairingGuardIsAuthenticated headDigest (oneHashGuard upperHash.octets) (some tokenJ) =
          true ↔ Entitled headDigest [some upperHash] [] tokenJ) := by
  have hshape : isTokenHash upperHash.octets = true := by decide
  refine ⟨?_, rfl, injOn_headDigest, fun hiff => ?_⟩
  · rw [scPairingGuardCreate, fillTable]
    simp only [storeTokens, storedEntry, hshape, if_true, goodEnv]
    rfl
  · have hent : Entitled headDigest [some upperHash] [] tokenJ :=
      Or.inr (Or.inr ⟨upperHash, List.mem_singleton.mpr rfl, hshape, by decide⟩)
    exact absurd (hiff.mpr hent) (by decide)

end SeaClaw.Security
