import SeaClaw.Core.Error
import SeaClaw.Gateway.Oauth
import SeaClaw.Lib.Sextets

/-!
# The challenge of a login

The challenge is the hash of the verifier in letters. The loop goes by groups of three octets as
long as the buffer has room, and the last group of the hash has only two: a buffer that is larger
than the challenge gets a letter for the octet that is not there.
-/

namespace SeaClaw.Gateway

open SeaClaw.Lib

/-- The letters of an octet string without padding, with `-` and `_` for the last two. -/
def base64Url (s : Bytes) : Bytes := (sextets s).map (pkceLetters.getD · 0)

/-- `challenge[ci++] = ...` where there is room for it and the terminator. -/
def putLetter (size : ℕ) (out : Bytes) (letter : UInt8) : Bytes :=
  if out.length < size - 1 then out ++ [letter] else out

/-- The four letters of one round of the loop. -/
def putGroup (size triple : ℕ) (out : Bytes) : Bytes :=
  let out := putLetter size out (tblAt pkceLetters triple 18)
  let out := putLetter size out (tblAt pkceLetters triple 12)
  let out := putLetter size out (tblAt pkceLetters triple 6)
  putLetter size out (tblAt pkceLetters triple 0)

/-- The loop over the hash. -/
def challengeLoop (size : ℕ) : Bytes → Bytes → Bytes
  | [], out => out
  | [a], out => if out.length < size - 2 then putGroup size (a.toNat <<< 16) out else out
  | [a, b], out =>
    if out.length < size - 2 then putGroup size (a.toNat <<< 16 ||| b.toNat <<< 8) out else out
  | a :: b :: c :: hash, out =>
    if out.length < size - 2 then challengeLoop size hash (putGroup size (groupBits a b c) out)
    else out

/-- `sc_oauth_generate_pkce` with the hash function, the low half of the address of the context
and the clock: the verifier and the challenge. -/
def scOauthGeneratePkce (sha256 : Bytes → Fin 32 → UInt8) (oauthCtx : UInt32) (time : ℤ)
    (verifierSize challengeSize : ℕ) : Except ScError (Bytes × Bytes) :=
  if verifierSize < 44 ∨ challengeSize < 44 then .error .invalidArgument
  else
    let verifier := pkceText 43 (pkceSeed oauthCtx time)
    .ok (verifier, challengeLoop challengeSize (List.ofFn (sha256 verifier)) [])

section Loop

variable {size : ℕ} {out : Bytes}

theorem putLetter_room (h : out.length < size - 1) (letter : UInt8) :
    putLetter size out letter = out ++ [letter] := if_pos h

theorem putLetter_full (h : ¬ out.length < size - 1) (letter : UInt8) :
    putLetter size out letter = out := if_neg h

/-- The letters of one round, one after the other while there is room. -/
theorem putGroup_three_room (h : out.length + 3 ≤ size - 1) (triple : ℕ) :
    putGroup size triple out = putLetter size (out ++ [tblAt pkceLetters triple 18,
      tblAt pkceLetters triple 12, tblAt pkceLetters triple 6]) (tblAt pkceLetters triple 0) := by
  obtain ⟨x, y, z, hx, hy, hz⟩ : ∃ x y z, tblAt pkceLetters triple 18 = x ∧
    tblAt pkceLetters triple 12 = y ∧ tblAt pkceLetters triple 6 = z := ⟨_, _, _, rfl, rfl, rfl⟩
  have hfirst : putLetter size out x = out ++ [x] := putLetter_room (by omega) x
  have hsecond : putLetter size (out ++ [x]) y = out ++ [x, y] := by
    rw [putLetter_room (by rw [List.length_append, List.length_singleton]; omega),
      List.append_assoc]
    rfl
  have hthird : putLetter size (out ++ [x, y]) z = out ++ [x, y, z] := by
    have hroom : (out ++ [x, y]).length < size - 1 := by
      simp only [List.length_append, List.length_cons, List.length_nil]
      omega
    rw [putLetter_room hroom, List.append_assoc]
    rfl
  simp only [putGroup, hx, hy, hz, hfirst, hsecond, hthird]

/-- With room for four letters, a round writes all of them. -/
theorem putGroup_room (h : out.length + 4 ≤ size - 1) (triple : ℕ) : putGroup size triple out =
    out ++ [tblAt pkceLetters triple 18, tblAt pkceLetters triple 12, tblAt pkceLetters triple 6,
      tblAt pkceLetters triple 0] := by
  rw [putGroup_three_room (by omega), putLetter_room, List.append_assoc]
  · rfl
  · rw [List.length_append]
    simp only [List.length_cons, List.length_nil]
    omega

/-- With room for three letters only, the fourth is left out. -/
theorem putGroup_three (h : out.length + 3 = size - 1) (triple : ℕ) : putGroup size triple out =
    out ++ [tblAt pkceLetters triple 18, tblAt pkceLetters triple 12,
      tblAt pkceLetters triple 6] := by
  rw [putGroup_three_room h.le, putLetter_full]
  rw [List.length_append]
  simp only [List.length_cons, List.length_nil]
  omega

/-- Whole groups in front of the last octets, while there is room for their letters. -/
theorem challengeLoop_groups (s hash : Bytes) (hs : s.length % 3 = 0)
    (hroom : out.length + s.length / 3 * 4 ≤ size - 1)
    (hmore : out.length + s.length / 3 * 4 < size - 2) :
    challengeLoop size (s ++ hash) out = challengeLoop size hash (out ++ base64Url s) := by
  induction s using sextets.induct generalizing out with
  | case1 => rw [List.nil_append, base64Url, sextets, List.map_nil, List.append_nil]
  | case2 a => exact absurd hs (by simp)
  | case3 a b => exact absurd hs (by simp)
  | case4 a b c s ih =>
    simp only [List.length_cons] at hs hroom hmore
    have hlen : s.length % 3 = 0 := by omega
    have hguard : out.length < size - 2 := by omega
    simp only [List.cons_append, challengeLoop, if_pos hguard]
    rw [putGroup_room (by omega), ih hlen (by simp; omega) (by simp; omega), List.append_assoc]
    simp only [base64Url, sextets, tblAt_eq, groupBits_eq, List.map_cons, List.cons_append,
      List.nil_append, pow_zero]

end Loop

/-- The hash is ten groups and two octets. -/
theorem split_hash (hash : Fin 32 → UInt8) :
    ∃ s a b, List.ofFn hash = s ++ [a, b] ∧ s.length = 30 := by
  have hlen : (List.ofFn hash).length = 32 := List.length_ofFn
  have hdrop : ((List.ofFn hash).drop 30).length = 2 := by rw [List.length_drop, hlen]
  obtain ⟨a, b, hab⟩ := List.length_eq_two.mp hdrop
  refine ⟨(List.ofFn hash).take 30, a, b, ?_, ?_⟩
  · rw [← hab, List.take_append_drop]
  · rw [List.length_take, hlen]
    rfl

theorem sextets_append (s t : Bytes) (hs : s.length % 3 = 0) :
    sextets (s ++ t) = sextets s ++ sextets t := by
  induction s using sextets.induct with
  | case1 => rfl
  | case2 a => exact absurd hs (by simp)
  | case3 a b => exact absurd hs (by simp)
  | case4 a b c s ih =>
    simp only [List.length_cons] at hs
    simp only [List.cons_append, sextets, ih (by omega)]

theorem length_sextets (s : Bytes) (hs : s.length % 3 = 0) :
    (sextets s).length = s.length / 3 * 4 := by
  induction s using sextets.induct with
  | case1 => rfl
  | case2 a => exact absurd hs (by simp)
  | case3 a b => exact absurd hs (by simp)
  | case4 a b c s ih =>
    simp only [List.length_cons] at hs
    simp only [sextets, List.length_cons, ih (by omega)]
    omega

/-- The encoding of a hash: forty letters and three for the last two octets. -/
theorem base64Url_hash {s : Bytes} (hs : s.length = 30) (a b : UInt8) :
    (base64Url s).length = 40 ∧ base64Url (s ++ [a, b]) = base64Url s ++
      [tblAt pkceLetters (a.toNat <<< 16 ||| b.toNat <<< 8) 18,
        tblAt pkceLetters (a.toNat <<< 16 ||| b.toNat <<< 8) 12,
        tblAt pkceLetters (a.toNat <<< 16 ||| b.toNat <<< 8) 6] := by
  have hmod : s.length % 3 = 0 := by rw [hs]
  constructor
  · rw [base64Url, List.length_map, length_sextets s hmod, hs]
  · rw [base64Url, sextets_append s _ hmod, List.map_append]
    simp only [sextets, tblAt_eq, groupBits_two, List.map_cons, List.map_nil]
    rfl

/-- The challenge of a call that is accepted is the encoding of the hash of the verifier, of 43
letters, exactly if the buffer has no more than the 44 octets that it takes. -/
theorem oauth_challenge_iff (sha256 : Bytes → Fin 32 → UInt8) (oauthCtx : UInt32) (time : ℤ)
    {verifierSize challengeSize : ℕ} {verifier challenge : Bytes}
    (h : scOauthGeneratePkce sha256 oauthCtx time verifierSize challengeSize =
      .ok (verifier, challenge)) :
    (challenge = base64Url (List.ofFn (sha256 verifier)) ∧ challenge.length = 43) ↔
      challengeSize = 44 := by
  rw [scOauthGeneratePkce] at h
  split_ifs at h with hsmall
  rw [Except.ok.injEq, Prod.mk.injEq] at h
  obtain ⟨hverifier, hchallenge⟩ := h
  rw [hverifier] at hchallenge
  obtain ⟨s, a, b, hsplit, hs⟩ := split_hash (sha256 verifier)
  obtain ⟨hforty, hurl⟩ := base64Url_hash hs a b
  have hloop := @challengeLoop_groups challengeSize [] s [a, b] (by rw [hs])
    (by rw [hs, List.length_nil]; omega) (by rw [hs, List.length_nil]; omega)
  have hguard : (base64Url s).length < challengeSize - 2 := by omega
  rw [hsplit, hloop, List.nil_append, challengeLoop, if_pos hguard] at hchallenge
  rw [hsplit, hurl, ← hchallenge]
  by_cases hsize : challengeSize = 44
  · rw [putGroup_three (by omega)]
    simp only [hsize, true_and, List.length_append, hforty, List.length_cons,
      List.length_nil]
  · rw [putGroup_room (by omega)]
    simp only [hsize, List.length_append, hforty, List.length_cons, List.length_nil, Nat.reduceAdd,
      Nat.reduceEqDiff, and_false]

/-- The digest of the verifier that the seed zero gives. -/
def firstDigest : List UInt8 :=
  [34, 102, 116, 33, 2, 162, 226, 171, 252, 151, 34, 35, 88, 233, 221, 68, 10, 100, 237, 172, 57,
    3, 90, 162, 117, 55, 14, 29, 118, 216, 206, 48]

theorem pkceText_first : pkceText 43 (pkceSeed 0 0) =
    ascii "AcElqftdaalsbefTw5s9Q_ZvgdEs0dCrG4z6yffu3IZ" := by decide

/-- A context at an address with no low half, at the start of the clock, and a buffer of 44
octets. -/
theorem oauth_challenge_first :
    ∃ challenge, scOauthGeneratePkce (fun _ i => firstDigest.getD i 0) 0 0 44 44 =
        .ok (ascii "AcElqftdaalsbefTw5s9Q_ZvgdEs0dCrG4z6yffu3IZ", challenge) ∧
      ((challenge = base64Url (List.ofFn fun i : Fin 32 => firstDigest.getD i 0) ∧
        challenge.length = 43) ↔ 44 = 44) := by
  obtain ⟨challenge, h⟩ : ∃ challenge, scOauthGeneratePkce (fun _ i => firstDigest.getD i 0) 0 0
      44 44 = .ok (ascii "AcElqftdaalsbefTw5s9Q_ZvgdEs0dCrG4z6yffu3IZ", challenge) :=
    ⟨_, by rw [scOauthGeneratePkce, if_neg (by decide), pkceText_first]⟩
  exact ⟨challenge, h, oauth_challenge_iff (fun _ i => firstDigest.getD i 0) 0 0 h⟩

/-- In a buffer of 64 octets the challenge has a letter too many. -/
theorem oauth_challenge_too_long :
    ∃ challenge, scOauthGeneratePkce (fun _ i => firstDigest.getD i 0) 0 0 44 64 =
        .ok (ascii "AcElqftdaalsbefTw5s9Q_ZvgdEs0dCrG4z6yffu3IZ", challenge) ∧
      challenge = base64Url (List.ofFn fun i : Fin 32 => firstDigest.getD i 0) ++ [ch 'A'] := by
  refine ⟨challengeLoop 64 (List.ofFn fun i : Fin 32 => firstDigest.getD i 0) [], ?_, ?_⟩
  · rw [scOauthGeneratePkce, if_neg (by decide), pkceText_first]
  · decide

end SeaClaw.Gateway
