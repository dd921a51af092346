import SeaClaw.Lib.CString

/-!
# Scrubbing of secrets

`sc_scrub_secret_patterns` of `providers/scrub.c`. At each place of the text the scan looks for
a bearer scheme and then for the known key prefixes; either counts when a token octet follows,
and takes all token octets that follow. What is not taken is copied.
-/

namespace SeaClaw.Providers

open SeaClaw.Lib

/-- `SC_SCRUB_REDACTED` -/
def scScrubRedacted : Bytes := ascii "[REDACTED]"

/-- `isalnum` in the C locale. -/
def isAlnum (b : UInt8) : Bool := isDigit b || (ch 'a' ≤ toLower b && toLower b ≤ ch 'z')

/-- `is_secret_char` -/
def isSecretChar (b : UInt8) : Bool :=
  isAlnum b || b == ch '-' || b == ch '_' || b == ch '.' || b == ch ':'

/-- `token_end` -/
def tokenEnd (s : Bytes) (start : ℕ) : ℕ := start + ((s.drop start).takeWhile isSecretChar).length

/-- The prefixes of `match_bearer`. -/
def bearerPrefixes : List Bytes := [ascii "Bearer ", ascii "bearer ", ascii "BEARER "]

/-- `strncasecmp(s, p, strlen(p)) == 0` for a text `s` that is long enough. -/
def startsFold (p s : Bytes) : Bool := (p.map toLower).isPrefixOf (s.map toLower)

/-- `match_bearer` at the start of the text: the length of the prefix and the end of the token. -/
def matchBearer (s : Bytes) : Option (ℕ × ℕ) :=
  bearerPrefixes.findSome? fun p =>
    if startsFold p s ∧ p.length < tokenEnd s p.length then
      some (p.length, tokenEnd s p.length)
    else none

/-- `secret_prefixes` -/
def secretPrefixes : List Bytes :=
  [ascii "sk-", ascii "xoxb-", ascii "xoxp-", ascii "ghp_", ascii "gho_", ascii "ghs_",
    ascii "ghu_", ascii "glpat-", ascii "AKIA", ascii "pypi-", ascii "npm_", ascii "shpat_"]

/-- The loop over the key prefixes: the end of the token. -/
def matchKey (s : Bytes) : Option ℕ :=
  secretPrefixes.findSome? fun p =>
    if p.isPrefixOf s ∧ p.length < tokenEnd s p.length then some (tokenEnd s p.length) else none

/-- One turn of the loop: what is written and where the scan goes on. -/
def scrubStep : Bytes → Bytes × Bytes
  | [] => ([], [])
  | b :: s =>
    match matchBearer (b :: s) with
    | some (prefixLen, stop) =>
      ((b :: s).take prefixLen ++
        (if stop - prefixLen > 4 then ((b :: s).drop prefixLen).take 4 else []) ++ scScrubRedacted,
        (b :: s).drop stop)
    | none =>
      match matchKey (b :: s) with
      | some tok => (scScrubRedacted, (b :: s).drop tok)
      | none => ([b], s)

/-- The loop. Each turn takes an octet at least. -/
def scrubLoop : ℕ → Bytes → Bytes
  | 0, _ => []
  | n + 1, s => if s = [] then [] else (scrubStep s).1 ++ scrubLoop n (scrubStep s).2

/-- The octets that `sc_scrub_secret_patterns` writes before the terminator. -/
def scScrubSecretPatterns (input : Option Bytes) (inputLen : ℕ) : Bytes :=
  let input := input.getD []
  let text := if inputLen = 0 then input.takeWhile (· ≠ 0) else input.take inputLen
  scrubLoop text.length text

/-- A text scrubbed as a whole. -/
def scrub (s : Bytes) : Bytes := scrubLoop s.length s

theorem scScrubSecretPatterns_text (s : Bytes) :
    scScrubSecretPatterns (some s) s.length = scrub s := by
  simp only [scScrubSecretPatterns, Option.getD_some, scrub]
  split_ifs with h
  · rw [List.length_eq_zero_iff.mp h]
    rfl
  · rw [List.take_length]

/-! ## What a match is -/

/-- The token octets at the start of a text. -/
def token (s : Bytes) : Bytes := s.takeWhile isSecretChar

/-- What is behind them. -/
def afterToken (s : Bytes) : Bytes := s.dropWhile isSecretChar

/-- The scheme in any letter case, and a token behind it. -/
structure BearerSplit (s p r : Bytes) : Prop where
  eq : s = p ++ r
  scheme : p.map toLower = ascii "bearer "
  token : token r ≠ []

/-- A known key prefix, and a token behind it. -/
structure KeySplit (s p r : Bytes) : Prop where
  eq : s = p ++ r
  known : p ∈ secretPrefixes
  token : token r ≠ []

theorem BearerSplit.length {s p r : Bytes} (h : BearerSplit s p r) : p.length = 7 := by
  have hlen := congrArg List.length h.scheme
  rwa [List.length_map] at hlen

theorem tokenEnd_append (p r : Bytes) : tokenEnd (p ++ r) p.length = p.length + (token r).length := by
  rw [tokenEnd, List.drop_left, token]

theorem lt_tokenEnd_iff {p r : Bytes} : p.length < tokenEnd (p ++ r) p.length ↔ token r ≠ [] := by
  rw [tokenEnd_append, Nat.lt_add_right_iff_pos, List.length_pos_iff]

theorem drop_tokenEnd (p r : Bytes) : (p ++ r).drop (tokenEnd (p ++ r) p.length) = afterToken r := by
  have hr : token r ++ afterToken r = r := List.takeWhile_append_dropWhile
  rw [tokenEnd_append, ← List.drop_drop, List.drop_left]
  calc r.drop (token r).length = (token r ++ afterToken r).drop (token r).length := by rw [hr]
    _ = afterToken r := List.drop_left

/-- The three prefixes are one up to the case of their letters. -/
theorem map_toLower_bearerPrefixes : ∀ p ∈ bearerPrefixes,
    p.map toLower = ascii "bearer " ∧ p.length = 7 := by decide

/-- No known key prefix starts another one. -/
theorem secretPrefixes_prefixFree :
    ∀ p ∈ secretPrefixes, ∀ q ∈ secretPrefixes, p.isPrefixOf q = true → p = q := by decide

/-- A key prefix does not start like the scheme. -/
theorem secretPrefixes_head :
    ∀ p ∈ secretPrefixes, (p.map toLower).head? ≠ (ascii "bearer ").head? := by decide

theorem KeySplit.unique {s p q r t : Bytes} (hp : KeySplit s p r) (hq : KeySplit s q t) :
    p = q ∧ r = t := by
  have hpq : p = q := by
    have hps : p <+: s := ⟨r, hp.eq.symm⟩
    have hqs : q <+: s := ⟨t, hq.eq.symm⟩
    rcases List.prefix_or_prefix_of_prefix hps hqs with h | h
    · exact secretPrefixes_prefixFree p hp.known q hq.known (List.isPrefixOf_iff_prefix.mpr h)
    · exact (secretPrefixes_prefixFree q hq.known p hp.known
        (List.isPrefixOf_iff_prefix.mpr h)).symm
  refine ⟨hpq, ?_⟩
  have heq := hp.eq.symm.trans hq.eq
  rw [hpq] at heq
  exact List.append_cancel_left heq

theorem KeySplit.not_bearer {s p r q t : Bytes} (hp : KeySplit s p r) : ¬ BearerSplit s q t := by
  intro hq
  have hmap := congrArg (List.map toLower) (hp.eq.symm.trans hq.eq)
  rw [List.map_append, List.map_append, hq.scheme] at hmap
  have hhead := congrArg List.head? hmap
  cases p with
  | nil => exact absurd hp.known (by decide)
  | cons b p =>
    apply secretPrefixes_head _ hp.known
    simpa [ascii] using hhead

/-- The test of one bearer prefix. -/
theorem matchBearer_some_of_split {s p r : Bytes} (h : BearerSplit s p r) :
    matchBearer s = some (7, 7 + (token r).length) := by
  have hbody : startsFold (ascii "Bearer ") s = true := by
    rw [startsFold, List.isPrefixOf_iff_prefix, h.eq, List.map_append, h.scheme]
    exact List.prefix_append _ _
  have hlt := (lt_tokenEnd_iff (p := p)).mpr h.token
  have hend := tokenEnd_append p r
  rw [← h.eq, h.length] at hlt hend
  rw [matchBearer, bearerPrefixes, List.findSome?_cons]
  have hseven : (ascii "Bearer ").length = 7 := rfl
  rw [hend] at hlt
  simp only [hbody, hseven, hend, hlt, and_self, if_true]

theorem matchBearer_eq_some {s : Bytes} {n stop : ℕ} (h : matchBearer s = some (n, stop)) :
    ∃ p r, BearerSplit s p r := by
  obtain ⟨q, hq, hn⟩ := List.exists_of_findSome?_eq_some h
  obtain ⟨hfold, hlen⟩ := map_toLower_bearerPrefixes q hq
  split_ifs at hn with hheads
  obtain ⟨hstarts, hlt⟩ := hheads
  rw [startsFold, List.isPrefixOf_iff_prefix, hfold, List.prefix_iff_eq_take, ← List.map_take]
    at hstarts
  have hseven : (ascii "bearer ").length = 7 := rfl
  rw [hseven] at hstarts
  have htake : (s.take 7).length = 7 := by
    have hl := congrArg List.length hstarts
    rw [List.length_map, hseven] at hl
    exact hl.symm
  have hs : s = s.take 7 ++ s.drop 7 := (List.take_append_drop 7 s).symm
  refine ⟨s.take 7, s.drop 7, hs, hstarts.symm, ?_⟩
  rw [hlen, hs] at hlt
  rw [← lt_tokenEnd_iff (p := s.take 7), htake]
  exact hlt

theorem matchBearer_eq_none_iff {s : Bytes} :
    matchBearer s = none ↔ ∀ p r, ¬ BearerSplit s p r := by
  constructor
  · intro h p r hs
    rw [matchBearer_some_of_split hs] at h
    exact absurd h (by simp)
  · intro h
    by_contra hne
    obtain ⟨⟨n, stop⟩, hsome⟩ := Option.ne_none_iff_exists'.mp hne
    obtain ⟨p, r, hs⟩ := matchBearer_eq_some hsome
    exact h p r hs

theorem matchKey_eq_some {s : Bytes} {n : ℕ} (h : matchKey s = some n) :
    ∃ p r, KeySplit s p r ∧ n = p.length + (token r).length := by
  obtain ⟨p, hp, hn⟩ := List.exists_of_findSome?_eq_some h
  split_ifs at hn with hheads
  obtain ⟨⟨r, rfl⟩, hlt⟩ := And.imp_left List.isPrefixOf_iff_prefix.mp hheads
  refine ⟨p, r, ⟨rfl, hp, lt_tokenEnd_iff.mp hlt⟩, ?_⟩
  rw [← tokenEnd_append]
  exact (Option.some.inj hn).symm

theorem matchKey_eq_none_iff {s : Bytes} : matchKey s = none ↔ ∀ p r, ¬ KeySplit s p r := by
  constructor
  · intro h p r hs
    rw [matchKey, List.findSome?_eq_none_iff] at h
    have hp := h p hs.known
    rw [hs.eq, if_pos ⟨List.isPrefixOf_iff_prefix.mpr (List.prefix_append p r),
      lt_tokenEnd_iff.mpr hs.token⟩] at hp
    exact absurd hp (by simp)
  · intro h
    by_contra hne
    obtain ⟨n, hsome⟩ := Option.ne_none_iff_exists'.mp hne
    obtain ⟨p, r, hs, -⟩ := matchKey_eq_some hsome
    exact h p r hs

/-! ## One turn -/

/-- What is left of a bearer token. -/
def kept (t : Bytes) : Bytes := if 4 < t.length then t.take 4 else []

theorem scrubStep_bearer {s p r : Bytes} (h : BearerSplit s p r) :
    scrubStep s = (p ++ kept (token r) ++ scScrubRedacted, afterToken r) := by
  cases s with
  | nil =>
    have hlen := congrArg List.length h.eq
    rw [List.length_append, h.length, List.length_nil] at hlen
    omega
  | cons b s =>
    have hstop := drop_tokenEnd p r
    rw [tokenEnd_append, ← h.eq, h.length] at hstop
    have htake : (b :: s).take 7 = p := by
      rw [h.eq, ← h.length, List.take_left]
    have hdrop : (b :: s).drop 7 = r := by
      rw [h.eq, ← h.length, List.drop_left]
    simp only [scrubStep, matchBearer_some_of_split h, hstop, htake, hdrop, kept,
      Nat.add_sub_cancel_left, gt_iff_lt]
    congr 3
    by_cases hlong : 4 < (token r).length
    · have hr : token r ++ afterToken r = r := List.takeWhile_append_dropWhile
      rw [if_pos hlong, if_pos hlong]
      conv_lhs => rw [← hr]
      exact List.take_append_of_le_length hlong.le
    · rw [if_neg hlong, if_neg hlong]

theorem scrubStep_key {s p r : Bytes} (h : KeySplit s p r) :
    scrubStep s = (scScrubRedacted, afterToken r) := by
  cases s with
  | nil =>
    have hp : p = [] := (List.append_eq_nil_iff.mp h.eq.symm).1
    exact absurd (hp ▸ h.known) (by decide)
  | cons b s =>
    have hb : matchBearer (b :: s) = none := matchBearer_eq_none_iff.mpr fun q t => h.not_bearer
    have hk : matchKey (b :: s) ≠ none := by
      rw [ne_eq, matchKey_eq_none_iff]
      exact fun hall => hall p r h
    obtain ⟨n, hn⟩ := Option.ne_none_iff_exists'.mp hk
    obtain ⟨q, t, hq, hnq⟩ := matchKey_eq_some hn
    obtain ⟨rfl, rfl⟩ := h.unique hq
    have hstop := drop_tokenEnd p r
    rw [tokenEnd_append, ← h.eq] at hstop
    simp only [scrubStep, hb, hn, hnq, hstop]

/-- Whether a match starts here. -/
def Matches (s : Bytes) : Prop := (∃ p r, BearerSplit s p r) ∨ ∃ p r, KeySplit s p r

theorem scrubStep_plain {b : UInt8} {s : Bytes} (h : ¬ Matches (b :: s)) :
    scrubStep (b :: s) = ([b], s) := by
  rw [Matches, not_or] at h
  have hb : matchBearer (b :: s) = none :=
    matchBearer_eq_none_iff.mpr fun p r hs => h.1 ⟨p, r, hs⟩
  have hk : matchKey (b :: s) = none := matchKey_eq_none_iff.mpr fun p r hs => h.2 ⟨p, r, hs⟩
  simp only [scrubStep, hb, hk]

theorem length_afterToken_le (s : Bytes) : (afterToken s).length ≤ s.length :=
  List.length_dropWhile_le _ _

/-- Each turn takes an octet at least. -/
theorem length_scrubStep_lt {s : Bytes} (h : s ≠ []) : (scrubStep s).2.length < s.length := by
  by_cases hm : Matches s
  · rcases hm with ⟨p, r, hs⟩ | ⟨p, r, hs⟩
    · have hlen := length_afterToken_le r
      have hseven := hs.length
      rw [scrubStep_bearer hs, hs.eq, List.length_append]
      dsimp only
      omega
    · have hlen := length_afterToken_le r
      have hpos : 0 < p.length := by
        rw [List.length_pos_iff]
        rintro rfl
        exact absurd hs.known (by decide)
      rw [scrubStep_key hs, hs.eq, List.length_append]
      dsimp only
      omega
  · obtain ⟨b, s, rfl⟩ := List.exists_cons_of_ne_nil h
    rw [scrubStep_plain hm]
    exact Nat.lt_succ_self _

/-- More turns than octets change nothing. -/
theorem scrubLoop_congr {n m : ℕ} {s : Bytes} (hn : s.length ≤ n) (hm : s.length ≤ m) :
    scrubLoop n s = scrubLoop m s := by
  induction n generalizing m s with
  | zero =>
    rw [List.length_eq_zero_iff.mp (Nat.le_zero.mp hn)]
    cases m <;> rfl
  | succ n ih =>
    by_cases hs : s = []
    · subst hs
      cases m <;> rfl
    · have hlt := length_scrubStep_lt hs
      have hpos := List.length_pos_iff.mpr hs
      obtain ⟨m, rfl⟩ := Nat.exists_eq_add_one_of_ne_zero (show m ≠ 0 by omega)
      rw [scrubLoop, scrubLoop, if_neg hs, if_neg hs, @ih m _ (by omega) (by omega)]

@[simp] theorem scrub_nil : scrub [] = [] := rfl

/-- The scan writes what one turn writes and goes on with what it leaves. -/
theorem scrub_eq {s : Bytes} (h : s ≠ []) : scrub s = (scrubStep s).1 ++ scrub (scrubStep s).2 := by
  have hlt := length_scrubStep_lt h
  rw [scrub, scrub, scrubLoop_congr le_rfl (Nat.le_succ s.length), scrubLoop, if_neg h,
    scrubLoop_congr hlt.le le_rfl]

theorem scrub_bearer {s p r : Bytes} (h : BearerSplit s p r) :
    scrub s = p ++ kept (token r) ++ scScrubRedacted ++ scrub (afterToken r) := by
  have hs : s ≠ [] := by
    intro hnil
    have hlen := congrArg List.length h.eq
    rw [hnil, List.length_append, h.length, List.length_nil] at hlen
    omega
  rw [scrub_eq hs, scrubStep_bearer h]

theorem scrub_key {s p r : Bytes} (h : KeySplit s p r) :
    scrub s = scScrubRedacted ++ scrub (afterToken r) := by
  have hs : s ≠ [] := by
    rintro rfl
    have hp : p = [] := (List.append_eq_nil_iff.mp h.eq.symm).1
    exact absurd (hp ▸ h.known) (by decide)
  rw [scrub_eq hs, scrubStep_key h]

theorem scrub_plain {b : UInt8} {s : Bytes} (h : ¬ Matches (b :: s)) :
    scrub (b :: s) = b :: scrub s := by
  rw [scrub_eq (List.cons_ne_nil b s), scrubStep_plain h, List.singleton_append]

end SeaClaw.Providers
