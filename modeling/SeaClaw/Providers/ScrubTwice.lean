import SeaClaw.Providers.ScrubTokens

/-!
# Scrubbing a scrubbed text

The mark of a hidden secret holds no pattern and no pattern reaches over its bracket, so what
was copied is copied again. Only a bearer token of more than four octets is changed a second
time: the four octets that were kept are then a token of their own, and go.
-/

namespace SeaClaw.Providers

open SeaClaw.Lib

/-- The bracket that the mark starts with. -/
def bracket : UInt8 := ch '['

theorem isCut_bracket : IsCut bracket := ⟨by decide, by decide⟩

theorem scScrubRedacted_eq : scScrubRedacted = bracket :: ascii "REDACTED]" := rfl

/-- What holds no such octet lies before the first of them. -/
theorem prefix_before {w a s : Bytes} {d : UInt8} (h : w <+: a ++ d :: s) (hd : d ∉ w) : w <+: a := by
  by_cases hlen : w.length ≤ a.length
  · exact List.prefix_of_prefix_length_le h (List.prefix_append a _) hlen
  · have had : a ++ [d] <+: w := by
      apply List.prefix_of_prefix_length_le _ h
      · rw [List.length_append, List.length_singleton]
        omega
      · exact ⟨s, by rw [List.append_assoc, List.singleton_append]⟩
    exact absurd (had.subset (List.mem_append_right _ List.mem_cons_self)) hd

theorem prefix_of_kept (t : Bytes) : kept t <+: t := by
  rw [kept]
  split_ifs
  · exact List.take_prefix 4 t
  · exact List.nil_prefix

/-- What the scrubbed text starts with before a mark, the text starts with. -/
theorem prefix_of_prefix_scrub {w s : Bytes} (hw : bracket ∉ w) (h : w <+: scrub s) : w <+: s := by
  induction hn : s.length using Nat.strong_induction_on generalizing s w with
  | _ n ih =>
    by_cases hm : Matches s
    · rcases hm with ⟨p, r, hs⟩ | ⟨p, r, hs⟩
      · rw [scrub_bearer hs, scScrubRedacted_eq, List.append_assoc, List.cons_append] at h
        have hpre := prefix_before h hw
        rw [hs.eq]
        refine hpre.trans ((List.prefix_append_right_inj p).mpr ?_)
        refine (prefix_of_kept _).trans ⟨afterToken r, token_append r⟩
      · rw [scrub_key hs, scScrubRedacted_eq, ← List.nil_append (bracket :: _ ++ _),
          List.cons_append] at h
        have hpre := prefix_before h hw
        rw [List.prefix_nil.mp hpre]
        exact List.nil_prefix
    · cases s with
      | nil => exact h
      | cons b s =>
        rw [scrub_plain hm] at h
        cases w with
        | nil => exact List.nil_prefix
        | cons c w =>
          rw [List.cons_prefix_cons] at h ⊢
          rw [List.mem_cons, not_or] at hw
          exact ⟨h.1, ih s.length (hn ▸ Nat.lt_succ_self _) hw.2 h.2 rfl⟩

/-- A pattern and the token octet behind it were there before. -/
theorem split_of_split_scrub {b : UInt8} {s p r : Bytes} (hp : p ≠ []) (hbracket : bracket ∉ p)
    (h : b :: scrub s = p ++ r) (hr : token r ≠ []) : ∃ r', b :: s = p ++ r' ∧ token r' ≠ [] := by
  obtain ⟨c, hc, hsecret⟩ := token_ne_nil_iff.mp hr
  obtain ⟨r, rfl⟩ : ∃ t, r = c :: t := by
    cases r with
    | nil => exact absurd hc (by simp)
    | cons x t => exact ⟨t, by simpa using hc⟩
  obtain ⟨x, p, rfl⟩ := List.exists_cons_of_ne_nil hp
  rw [List.cons_append, List.cons.injEq] at h
  rw [List.mem_cons, not_or] at hbracket
  have hw : bracket ∉ p ++ [c] := by
    rw [List.mem_append, List.mem_singleton, not_or]
    refine ⟨hbracket.2, ?_⟩
    rintro rfl
    exact absurd hsecret (by decide)
  obtain ⟨r', hr'⟩ := prefix_of_prefix_scrub hw ⟨r, by rw [h.2, List.append_assoc]; rfl⟩
  refine ⟨c :: r', ?_, token_ne_nil_iff.mpr ⟨c, rfl, hsecret⟩⟩
  rw [h.1, ← hr', List.append_assoc]
  rfl

theorem BearerSplit.bracket_notMem {s p r : Bytes} (h : BearerSplit s p r) : bracket ∉ p := by
  intro hmem
  have hmap := List.mem_map_of_mem (f := toLower) hmem
  rw [h.scheme] at hmap
  exact absurd hmap (by decide)

/-- What was copied is copied again. -/
theorem not_matches_scrub {b : UInt8} {s : Bytes} (h : ¬ Matches (b :: s)) :
    ¬ Matches (b :: scrub s) := by
  rintro (⟨p, r, hs⟩ | ⟨p, r, hs⟩)
  · have hne : p ≠ [] := by
      rintro rfl
      exact absurd hs.length (by simp)
    obtain ⟨r', heq, htok⟩ := split_of_split_scrub hne hs.bracket_notMem hs.eq hs.token
    exact h (Or.inl ⟨p, r', heq, hs.scheme, htok⟩)
  · have hknown : ∀ p ∈ secretPrefixes, p ≠ [] ∧ bracket ∉ p := by decide
    obtain ⟨hne, hbracket⟩ := hknown p hs.known
    obtain ⟨r', heq, htok⟩ := split_of_split_scrub hne hbracket hs.eq hs.token
    exact h (Or.inr ⟨p, r', heq, hs.known, htok⟩)

/-! ## The mark -/

/-- No pattern starts with these two octets. -/
theorem not_matches_of_pair {b c : UInt8} {s : Bytes} (hscheme : toLower b ≠ ch 'b')
    (hknown : ∀ p ∈ secretPrefixes, p.take 2 ≠ [b, c]) : ¬ Matches (b :: c :: s) := by
  rintro (⟨p, r, h⟩ | ⟨p, r, h⟩)
  · have hmap := congrArg (fun l => (l.map toLower).head?) h.eq
    simp only [List.map_append, h.scheme] at hmap
    exact hscheme (by simpa [ascii] using hmap)
  · have htwo : ∀ p ∈ secretPrefixes, 2 ≤ p.length := by decide
    apply hknown p h.known
    have htake := congrArg (List.take 2) h.eq
    rw [List.take_append_of_le_length (htwo p h.known)] at htake
    exact htake.symm

/-- The mark is copied. -/
theorem scrub_mark (s : Bytes) : scrub (scScrubRedacted ++ s) = scScrubRedacted ++ scrub s := by
  have hpair (b c : UInt8) (t : Bytes) (hscheme : toLower b ≠ ch 'b')
      (hknown : ∀ p ∈ secretPrefixes, p.take 2 ≠ [b, c]) :
      scrub (b :: c :: t) = b :: scrub (c :: t) := scrub_plain (not_matches_of_pair hscheme hknown)
  have hlast : scrub (ch ']' :: s) = ch ']' :: scrub s :=
    scrub_plain (not_matches_of_head (by decide) (by decide))
  have hmark : scScrubRedacted =
      [ch '[', ch 'R', ch 'E', ch 'D', ch 'A', ch 'C', ch 'T', ch 'E', ch 'D', ch ']'] := rfl
  rw [hmark]
  simp only [List.cons_append, List.nil_append]
  rw [hpair _ _ _ (by decide) (by decide), hpair _ _ _ (by decide) (by decide),
    hpair _ _ _ (by decide) (by decide), hpair _ _ _ (by decide) (by decide),
    hpair _ _ _ (by decide) (by decide), hpair _ _ _ (by decide) (by decide),
    hpair _ _ _ (by decide) (by decide), hpair _ _ _ (by decide) (by decide),
    hpair _ _ _ (by decide) (by decide), hlast]

theorem not_containsKey_scheme {p : Bytes} (h : p.map toLower = ascii "bearer ") :
    ¬ ContainsKey p := by
  rintro ⟨k, hk, hin⟩
  have hnone : ∀ k ∈ secretPrefixes, ¬ k.map toLower <:+: ascii "bearer " := by decide
  apply hnone k hk
  rw [← h]
  exact hin.map toLower

/-- The scheme before a mark is copied. -/
theorem scrub_scheme_mark {p : Bytes} (h : p.map toLower = ascii "bearer ") (s : Bytes) :
    scrub (p ++ (scScrubRedacted ++ s)) = p ++ (scScrubRedacted ++ scrub s) := by
  have hlen : p.length = 7 := by
    have hl := congrArg List.length h
    rwa [List.length_map] at hl
  rw [← scrub_mark, scScrubRedacted_eq, List.cons_append]
  obtain ⟨b, p, rfl⟩ := List.exists_cons_of_ne_nil (show p ≠ [] by rintro rfl; exact absurd hlen (by simp))
  have hkey := not_containsKey_scheme h
  have hplain : ¬ Matches (b :: p ++ bracket :: (ascii "REDACTED]" ++ s)) := by
    rintro (⟨q, r, hs⟩ | ⟨q, r, hs⟩)
    · obtain ⟨z, hz, hs'⟩ := hs.cut isCut_bracket (List.cons_ne_nil b p) []
      have hzlen := congrArg List.length hz
      rw [hlen, List.length_append, hs.length] at hzlen
      have hnil : z = [] := List.length_eq_zero_iff.mp (by omega)
      have htok := hs'.token
      rw [hnil] at htok
      exact htok (token_cons_of_neg (by decide))
    · obtain ⟨z, hz, -⟩ := hs.cut isCut_bracket (List.cons_ne_nil b p) []
      refine hkey ⟨q, hs.known, ?_⟩
      rw [hz]
      exact (List.prefix_append q z).isInfix
  rw [List.cons_append] at hplain ⊢
  rw [scrub_plain hplain, scrub_copies isCut_bracket, List.cons_append]
  · rw [List.length_cons] at hlen
    omega
  · rintro ⟨q, hq, hin⟩
    exact hkey ⟨q, hq, hin.trans (List.suffix_cons b p).isInfix⟩

/-- The four octets that were kept of a bearer token go. -/
theorem scrub_scheme_kept {p r : Bytes} (h : p.map toLower = ascii "bearer ")
    (hr : 4 < (token r).length) (s : Bytes) :
    scrub (p ++ (kept (token r) ++ (scScrubRedacted ++ s))) =
      p ++ (scScrubRedacted ++ (scScrubRedacted ++ scrub s)) := by
  have hsecret : SecretOnly ((token r).take 4) := by
    intro b hb
    exact List.mem_takeWhile_imp (List.mem_of_mem_take hb)
  have hfour : ((token r).take 4).length = 4 := by
    rw [List.length_take]
    omega
  have hmark : token (scScrubRedacted ++ s) = [] := by
    rw [scScrubRedacted_eq]
    exact token_cons_of_neg (by decide)
  have htok := token_run hsecret hmark
  rw [kept_of_long hr]
  have hsplit : BearerSplit (p ++ ((token r).take 4 ++ (scScrubRedacted ++ s))) p
      ((token r).take 4 ++ (scScrubRedacted ++ s)) := by
    refine ⟨rfl, h, ?_⟩
    rw [htok]
    intro hnil
    rw [hnil] at hfour
    exact absurd hfour (by simp)
  rw [scrub_bearer hsplit, htok, afterToken_run hsecret hmark, scrub_mark, kept,
    if_neg (by omega), List.append_nil, List.append_assoc]

/-! ## Twice -/

/-- The scan comes to a bearer token of more than four octets. -/
def HasLongBearer (s : Bytes) : Prop :=
  ∃ n p r, BearerSplit (rest^[n] s) p r ∧ 4 < (token r).length

theorem hasLongBearer_iff (s : Bytes) : HasLongBearer s ↔
    (∃ p r, BearerSplit s p r ∧ 4 < (token r).length) ∨ HasLongBearer (rest s) := by
  constructor
  · rintro ⟨n, p, r, h⟩
    cases n with
    | zero => exact Or.inl ⟨p, r, h⟩
    | succ n => exact Or.inr ⟨n, p, r, by rwa [Function.iterate_succ_apply] at h⟩
  · rintro (⟨p, r, h⟩ | ⟨n, p, r, h⟩)
    · exact ⟨0, p, r, h⟩
    · exact ⟨n + 1, p, r, by rwa [Function.iterate_succ_apply]⟩

theorem not_hasLongBearer_nil : ¬ HasLongBearer [] := by
  rintro ⟨n, p, r, h, -⟩
  rw [iterate_rest_nil] at h
  have hlen := congrArg List.length h.eq
  rw [List.length_append, h.length, List.length_nil] at hlen
  omega

theorem BearerSplit.unique {s p r q t : Bytes} (hp : BearerSplit s p r) (hq : BearerSplit s q t) :
    p = q ∧ r = t :=
  List.append_inj (hp.eq.symm.trans hq.eq) (hp.length.trans hq.length.symm)

theorem hasLongBearer_of_key {s p r : Bytes} (h : KeySplit s p r) :
    HasLongBearer s ↔ HasLongBearer (afterToken r) := by
  rw [hasLongBearer_iff, rest, scrubStep_key h]
  apply or_iff_right
  rintro ⟨q, t, hq, -⟩
  exact h.not_bearer hq

theorem hasLongBearer_of_plain {b : UInt8} {s : Bytes} (h : ¬ Matches (b :: s)) :
    HasLongBearer (b :: s) ↔ HasLongBearer s := by
  rw [hasLongBearer_iff, rest, scrubStep_plain h]
  apply or_iff_right
  rintro ⟨q, t, hq, -⟩
  exact h (Or.inl ⟨q, t, hq⟩)

theorem hasLongBearer_of_bearer {s p r : Bytes} (h : BearerSplit s p r) :
    HasLongBearer s ↔ 4 < (token r).length ∨ HasLongBearer (afterToken r) := by
  rw [hasLongBearer_iff, rest, scrubStep_bearer h]
  refine or_congr ⟨?_, fun hlong => ⟨p, r, h, hlong⟩⟩ Iff.rfl
  rintro ⟨q, t, hq, hlong⟩
  rwa [(h.unique hq).2]

/-- A second scan changes the text just where the first one came to a long bearer token, and
then makes it longer. -/
theorem scrub_scrub (s : Bytes) : (scrub s).length ≤ (scrub (scrub s)).length ∧
    (HasLongBearer s → (scrub s).length < (scrub (scrub s)).length) ∧
    (¬ HasLongBearer s → scrub (scrub s) = scrub s) := by
  induction hn : s.length using Nat.strong_induction_on generalizing s with
  | _ n ih =>
    by_cases hm : Matches s
    · rcases hm with ⟨p, r, hs⟩ | ⟨p, r, hs⟩
      · have hlt : (afterToken r).length < n := by
          have hle := length_afterToken_le r
          rw [← hn, hs.eq, List.length_append, hs.length]
          omega
        obtain ⟨hle, hlong, hsame⟩ := ih _ hlt _ rfl
        rw [hasLongBearer_of_bearer hs, scrub_bearer hs]
        by_cases hr : 4 < (token r).length
        · have hfour : (kept (token r)).length = 4 := by
            rw [kept_of_long hr, List.length_take]
            omega
          have hmark : scScrubRedacted.length = 10 := rfl
          simp only [List.append_assoc, scrub_scheme_kept hs.scheme hr, List.length_append, hfour,
            hmark, hr, true_or, not_true_eq_false, false_imp_iff, and_true]
          exact ⟨by omega, fun _ => by omega⟩
        · have hnil : kept (token r) = [] := if_neg hr
          simp only [hnil, List.append_nil, List.append_assoc, scrub_scheme_mark hs.scheme,
            List.length_append, hr, false_or]
          refine ⟨by omega, fun h => ?_, fun h => by rw [hsame h]⟩
          have := hlong h
          omega
      · have hlt : (afterToken r).length < n := by
          have hle := length_afterToken_le r
          have hpos : ∀ p ∈ secretPrefixes, 0 < p.length := by decide
          have := hpos p hs.known
          rw [← hn, hs.eq, List.length_append]
          omega
        obtain ⟨hle, hlong, hsame⟩ := ih _ hlt _ rfl
        rw [hasLongBearer_of_key hs, scrub_key hs, scrub_mark, List.length_append,
          List.length_append]
        refine ⟨by omega, fun h => ?_, fun h => by rw [hsame h]⟩
        have := hlong h
        omega
    · cases s with
      | nil => exact ⟨le_rfl, fun h => absurd h not_hasLongBearer_nil, fun _ => rfl⟩
      | cons b s =>
        obtain ⟨hle, hlong, hsame⟩ := ih s.length (hn ▸ Nat.lt_succ_self _) s rfl
        rw [hasLongBearer_of_plain hm, scrub_plain hm, scrub_plain (not_matches_scrub hm),
          List.length_cons, List.length_cons]
        refine ⟨by omega, fun h => ?_, fun h => by rw [hsame h]⟩
        have := hlong h
        omega

theorem scrub_scrub_iff (s : Bytes) : scrub (scrub s) = scrub s ↔ ¬ HasLongBearer s := by
  obtain ⟨-, hlong, hsame⟩ := scrub_scrub s
  constructor
  · intro heq h
    have hlt := hlong h
    rw [heq] at hlt
    exact absurd hlt (Nat.lt_irrefl _)
  · exact hsame

/-- What the scan hides and when it is stable: a bearer token of known octets, where the scan
comes to the scheme or its first four octets hold a key prefix; a token of known octets behind
a key prefix; and a text without bearer tokens of more than four octets. -/
theorem scrubbed_hides_iff (u v s : Bytes) :
    (∀ t, IsBearerToken t →
      ((∀ t', SameKind t t' → scrubbed (bearerText u t v) = scrubbed (bearerText u t' v)) ↔
        SecretOnly t ∧ (StopsBefore (ch 'B') u ∨ ContainsKey (t.take 4)))) ∧
    (∀ p t, p ∈ secretPrefixes → IsBearerToken t →
      ((∀ t', SameKind t t' → scrubbed (keyText u p t v) = scrubbed (keyText u p t' v)) ↔
        SecretOnly t)) ∧
    (scrubbed (scrubbed s) = scrubbed s ↔ ¬ HasLongBearer s) := by
  simp only [scrubbed_eq]
  exact ⟨fun _ h => bearer_hidden_iff h, fun _ _ hp h => key_hidden_iff hp h, scrub_scrub_iff s⟩

/-- A token is shown behind a tilde. -/
theorem scrubbed_shows_token :
    ¬ ((∀ u v t t', IsBearerToken t → IsBearerToken t' → t'.take 4 = t.take 4 →
        scrubbed (bearerText u t v) = scrubbed (bearerText u t' v)) ∧
      (∀ u p v t t', p ∈ secretPrefixes → IsBearerToken t → IsBearerToken t' →
        t'.take 4 = t.take 4 → scrubbed (keyText u p t v) = scrubbed (keyText u p t' v)) ∧
      ∀ s, scrubbed (scrubbed s) = scrubbed s) := by
  rintro ⟨hbearer, -, -⟩
  have h := hbearer [] [] (ascii "abcd~1") (ascii "abcd~2")
    ⟨by decide, by decide +kernel⟩ ⟨by decide, by decide +kernel⟩ (by decide)
  exact absurd h (by decide)

end SeaClaw.Providers
