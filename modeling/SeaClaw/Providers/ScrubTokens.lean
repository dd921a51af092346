import SeaClaw.Providers.ScrubCuts

/-!
# Which tokens are hidden

A token that holds one of `~ + / =` is cut there and its end is shown. A token of the octets
that the scan knows is hidden behind the scheme wherever the scan comes to the scheme, and
behind a key prefix always. The scan misses the scheme when it has taken the word for the end
of a token that began in the text before it; the token is then read as text.
-/

namespace SeaClaw.Providers

open SeaClaw.Lib

/-- The octets of a bearer token. -/
def isBearerChar (b : UInt8) : Bool := isAlnum b || (ascii "-._~+/=").contains b

/-- A bearer token of more than four octets. -/
structure IsBearerToken (t : Bytes) : Prop where
  long : 4 < t.length
  chars : ∀ b ∈ t, isBearerChar b = true

/-- The text with a bearer token in it. -/
def bearerText (u t v : Bytes) : Bytes := u ++ ascii "Bearer " ++ t ++ ascii " " ++ v

/-- The text with a key in it. -/
def keyText (u p t v : Bytes) : Bytes := u ++ p ++ t ++ ascii " " ++ v

/-- Some known key prefix stands in the text. -/
def ContainsKey (s : Bytes) : Prop := ∃ p ∈ secretPrefixes, p <:+: s

instance (s : Bytes) : Decidable (ContainsKey s) :=
  inferInstanceAs (Decidable (∃ p ∈ secretPrefixes, _))

theorem ascii_space : ascii " " = [ch ' '] := rfl

theorem bearerText_eq (u t v : Bytes) :
    bearerText u t v = u ++ ch 'B' :: (ascii "earer " ++ (t ++ ch ' ' :: v)) := by
  have hword : ascii "Bearer " = ch 'B' :: ascii "earer " := rfl
  rw [bearerText, ascii_space, hword]
  simp only [List.append_assoc, List.cons_append, List.nil_append]

theorem keyText_eq (u p t v : Bytes) :
    keyText u p t v = u ++ (p ++ t ++ ch ' ' :: v) := by
  rw [keyText, ascii_space]
  simp only [List.append_assoc, List.singleton_append]

@[simp] theorem token_space (v : Bytes) : token (ch ' ' :: v) = [] :=
  token_cons_of_neg (by decide)

@[simp] theorem afterToken_space (v : Bytes) : afterToken (ch ' ' :: v) = ch ' ' :: v :=
  afterToken_cons_of_neg (by decide)

/-- A whole run of token octets before something else. -/
theorem token_run {s e : Bytes} (hs : SecretOnly s) (he : token e = []) : token (s ++ e) = s := by
  rw [hs.token_append, he, List.append_nil]

theorem afterToken_run {s e : Bytes} (hs : SecretOnly s) (he : token e = []) :
    afterToken (s ++ e) = e := by
  have h := token_append e
  rw [he, List.nil_append] at h
  rw [hs.afterToken_append, h]

/-! ## Places where nothing matches -/

/-- No pattern starts with this octet. -/
theorem not_matches_of_head {b : UInt8} {s : Bytes} (hscheme : toLower b ≠ ch 'b')
    (hknown : ∀ p ∈ secretPrefixes, p.head? ≠ some b) : ¬ Matches (b :: s) := by
  rintro (⟨p, r, h⟩ | ⟨p, r, h⟩)
  · have hmap := congrArg (fun l => (l.map toLower).head?) h.eq
    simp only [List.map_append, h.scheme] at hmap
    exact hscheme (by simpa [ascii] using hmap)
  · have hhead := congrArg List.head? h.eq
    cases p with
    | nil => exact absurd h.known (by decide)
    | cons c p => exact hknown _ h.known (by simpa using hhead.symm)

theorem scrub_space (s : Bytes) : scrub (ch ' ' :: s) = ch ' ' :: scrub s :=
  scrub_plain (not_matches_of_head (by decide) (by decide))

theorem scrub_zero (s : Bytes) : scrub (ch '0' :: s) = ch '0' :: scrub s :=
  scrub_plain (not_matches_of_head (by decide) (by decide))

theorem scrub_tilde (s : Bytes) : scrub (ch '~' :: s) = ch '~' :: scrub s :=
  scrub_plain (not_matches_of_head (by decide) (by decide))

/-- A short text without a key prefix is copied up to a cut. -/
theorem scrub_copies {x y : Bytes} {d : UInt8} (hd : IsCut d) (hlen : x.length < 7)
    (hkey : ¬ ContainsKey x) : scrub (x ++ d :: y) = x ++ scrub (d :: y) := by
  induction x with
  | nil => rfl
  | cons b x ih =>
    have hplain : ¬ Matches (b :: x ++ d :: y) := by
      rintro (⟨p, r, h⟩ | ⟨p, r, h⟩)
      · obtain ⟨z, hz, -⟩ := h.cut hd (List.cons_ne_nil b x) y
        rw [hz, List.length_append, h.length] at hlen
        omega
      · obtain ⟨z, hz, -⟩ := h.cut hd (List.cons_ne_nil b x) y
        refine hkey ⟨p, h.known, ?_⟩
        rw [hz]
        exact (List.prefix_append p z).isInfix
    rw [List.cons_append] at hplain ⊢
    rw [scrub_plain hplain, List.cons_append, ih]
    · exact Nat.lt_of_succ_lt hlen
    · rintro ⟨p, hp, hin⟩
      exact hkey ⟨p, hp, hin.trans (List.suffix_cons b x).isInfix⟩

/-! ## Behind the scheme -/

theorem kept_of_long {t : Bytes} (h : 4 < t.length) : kept t = t.take 4 := if_pos h

/-- The scheme and a token of known octets. -/
theorem scrub_scheme {t : Bytes} (ht : SecretOnly t) (hlen : 4 < t.length) (v : Bytes) :
    scrub (ch 'B' :: (ascii "earer " ++ (t ++ ch ' ' :: v))) =
      ascii "Bearer " ++ t.take 4 ++ scScrubRedacted ++ scrub (ch ' ' :: v) := by
  have htok := token_run ht (token_space v)
  have hsplit : BearerSplit (ch 'B' :: (ascii "earer " ++ (t ++ ch ' ' :: v))) (ascii "Bearer ")
      (t ++ ch ' ' :: v) := by
    refine ⟨rfl, by decide, ?_⟩
    rw [htok]
    rintro rfl
    exact absurd hlen (by decide)
  rw [scrub_bearer hsplit, htok, afterToken_run ht (token_space v), kept_of_long hlen]

/-- The word of the scheme, taken as part of a token. -/
theorem token_scheme (t : Bytes) :
    token (ch 'B' :: (ascii "earer " ++ t)) = ascii "Bearer" ∧
      afterToken (ch 'B' :: (ascii "earer " ++ t)) = ch ' ' :: t := by
  have hword : ch 'B' :: (ascii "earer " ++ t) = ascii "Bearer" ++ ch ' ' :: t := rfl
  have hsecret : SecretOnly (ascii "Bearer") := by decide +kernel
  rw [hword]
  exact ⟨token_run hsecret (token_space t), afterToken_run hsecret (token_space t)⟩

/-- A key prefix among four octets stands at the start or is the shortest one. -/
theorem containsKey_cases {f : Bytes} (hlen : f.length = 4) (h : ContainsKey f) :
    ∃ a p c, f = a ++ p ++ c ∧ p ∈ secretPrefixes ∧ p.length ≤ 4 ∧
      (a = [] ∨ ∃ b, a = [b] ∧ p = ascii "sk-") := by
  obtain ⟨p, hp, a, c, rfl⟩ := h
  have hshort : ∀ p ∈ secretPrefixes, 3 ≤ p.length ∧ (p.length = 3 → p = ascii "sk-") := by decide
  obtain ⟨hthree, hsk⟩ := hshort p hp
  rw [List.length_append, List.length_append] at hlen
  refine ⟨a, p, c, rfl, hp, by omega, ?_⟩
  rcases a with _ | ⟨b, _ | ⟨b', a⟩⟩
  · exact Or.inl rfl
  · rw [List.length_singleton] at hlen
    exact Or.inr ⟨b, rfl, hsk (by omega)⟩
  · simp only [List.length_cons] at hlen
    omega

/-- A key behind the prefix hides the rest of the run. -/
theorem scrub_key_run {p r e : Bytes} (hp : p ∈ secretPrefixes) (hr : r ≠ []) (hs : SecretOnly r)
    (he : token e = []) : scrub (p ++ r ++ e) = scScrubRedacted ++ scrub e := by
  have hsplit : KeySplit (p ++ r ++ e) p (r ++ e) :=
    ⟨List.append_assoc .., hp, by rwa [token_run hs he]⟩
  rw [scrub_key hsplit, afterToken_run hs he]

theorem not_matches_before_sk {b : UInt8} {s : Bytes} : ¬ Matches (b :: (ascii "sk-" ++ s)) := by
  rintro (⟨p, r, h⟩ | ⟨p, r, h⟩)
  · have hmap := congrArg (fun l => (l.map toLower)[1]?) h.eq
    simp only [List.map_append, h.scheme] at hmap
    simp [ascii] at hmap
    exact absurd hmap (by decide)
  · have hsecond : ∀ p ∈ secretPrefixes, ∃ x y z, p = x :: y :: z ∧ y ≠ ch 's' := by
      intro p hp
      have hall : ∀ p ∈ secretPrefixes, 2 ≤ p.length ∧ p[1]? ≠ some (ch 's') := by decide
      obtain ⟨hlen, hne⟩ := hall p hp
      rcases p with _ | ⟨x, _ | ⟨y, z⟩⟩
      · exact absurd hlen (by simp)
      · exact absurd hlen (by simp)
      · exact ⟨x, y, z, rfl, by simpa using hne⟩
    obtain ⟨x, y, z, rfl, hy⟩ := hsecond p h.known
    have hget := congrArg (fun l => l[1]?) h.eq
    exact hy (by simpa [ascii] using hget.symm)

/-- Where the first four octets hold a key prefix, the token is hidden although it is read as
text. -/
theorem scrub_containsKey {f : Bytes} (hlen : f.length = 4) (h : ContainsKey f) :
    ∃ a, ∀ r e, r ≠ [] → SecretOnly (f ++ r) → token e = [] →
      scrub (f ++ r ++ e) = a ++ scScrubRedacted ++ scrub e := by
  obtain ⟨a, p, c, rfl, hp, hshort, ha⟩ := containsKey_cases hlen h
  refine ⟨a, fun r e hr hs he => ?_⟩
  have hcr : SecretOnly (c ++ r) := by
    intro b hb
    apply hs
    rw [List.append_assoc]
    exact List.mem_append_right _ hb
  have hne : c ++ r ≠ [] := by
    intro hnil
    exact hr (List.append_eq_nil_iff.mp hnil).2
  have hrun := scrub_key_run hp hne hcr he
  rcases ha with rfl | ⟨b, rfl, rfl⟩
  · simpa only [List.nil_append, List.append_assoc] using hrun
  · have hplain := @not_matches_before_sk b (c ++ r ++ e)
    have hb := scrub_plain hplain
    simp only [List.append_assoc, List.nil_append, List.cons_append] at hrun hb ⊢
    rw [hb, hrun]

/-- Without one it is shown, up to an octet that no pattern holds. -/
theorem scrub_not_containsKey {f : Bytes} (hlen : f.length = 4) (h : ¬ ContainsKey f) (s : Bytes) :
    scrub (f ++ ch '0' :: s) = f ++ ch '0' :: scrub s := by
  rw [scrub_copies isCut_zero (by omega) h, scrub_zero]

/-! ## Behind a key prefix -/

/-- Two runs of token octets that agree in the first seven. -/
structure Alike (s t : Bytes) : Prop where
  left : SecretOnly s
  right : SecretOnly t
  leftLong : 7 < s.length
  rightLong : 7 < t.length
  take : s.take 7 = t.take 7

theorem Alike.symm {s t : Bytes} (h : Alike s t) : Alike t s :=
  ⟨h.right, h.left, h.rightLong, h.leftLong, h.take.symm⟩

/-- What a text of at most seven octets starts with. -/
theorem Alike.split {s t a r e : Bytes} (h : Alike s t) (ha : a.length ≤ 7)
    (heq : s ++ e = a ++ r) : ∃ z z', s = a ++ z ∧ t = a ++ z' ∧ z ≠ [] ∧ z' ≠ [] ∧ r = z ++ e := by
  have hleft := h.leftLong
  have hright := h.rightLong
  have hpre : a <+: s := by
    have hapre : a <+: s ++ e := ⟨r, heq.symm⟩
    exact List.prefix_of_prefix_length_le hapre (List.prefix_append s e) (by omega)
  obtain ⟨z, hz⟩ := hpre
  have hat : a = t.take a.length := by
    have htake := congrArg (List.take a.length) h.take
    rw [List.take_take, List.take_take, Nat.min_eq_left ha, ← hz, List.take_left] at htake
    exact htake
  refine ⟨z, t.drop a.length, hz.symm, ?_, ?_, ?_, ?_⟩
  · conv_lhs => rw [← List.take_append_drop a.length t, ← hat]
  · rintro rfl
    rw [← hz, List.append_nil] at hleft
    omega
  · intro hnil
    rw [List.drop_eq_nil_iff] at hnil
    omega
  · rw [← hz, List.append_assoc] at heq
    exact (List.append_cancel_left heq).symm

theorem Alike.take_le {s t : Bytes} (h : Alike s t) {k : ℕ} (hk : k ≤ 7) : s.take k = t.take k := by
  have htake := congrArg (List.take k) h.take
  rwa [List.take_take, List.take_take, Nat.min_eq_left hk] at htake

theorem not_secret_of_toLower_space (b : UInt8) (h : toLower b = ch ' ') :
    isSecretChar b = false := by
  rw [eq_of_toLower_eq (by decide) h]
  decide

/-- The scheme does not end in a token octet. -/
theorem BearerSplit.last {s p r u a : Bytes} (h : BearerSplit s p r) (hp : p = u ++ a)
    (ha : SecretOnly a) : a = [] := by
  rcases List.eq_nil_or_concat a with rfl | ⟨a', b, rfl⟩
  · rfl
  have hmap := h.scheme
  have hscheme : ascii "bearer " = ascii "bearer" ++ [ch ' '] := rfl
  rw [hp, hscheme, List.concat_eq_append, ← List.append_assoc, List.map_append] at hmap
  have hlast := (List.append_inj' hmap rfl).2
  rw [List.map_singleton, List.singleton_inj] at hlast
  have hsecret := ha b (by simp)
  rw [not_secret_of_toLower_space b hlast] at hsecret
  exact absurd hsecret (by simp)

/-- What a match behind `u` leaves of a run, and that it is the same of a run alike. -/
theorem Alike.behind {s t e z : Bytes} (h : Alike s t) (he : token e = []) :
    (token (z ++ (s ++ e)) = z ++ s ∧ token (z ++ (t ++ e)) = z ++ t ∧
        afterToken (z ++ (s ++ e)) = e ∧ afterToken (z ++ (t ++ e)) = e) ∨
      ∃ x w, w.length ≤ z.length ∧ token (z ++ (s ++ e)) = x ∧ token (z ++ (t ++ e)) = x ∧
        afterToken (z ++ (s ++ e)) = w ++ (s ++ e) ∧ afterToken (z ++ (t ++ e)) = w ++ (t ++ e) := by
  by_cases hz : SecretOnly z
  · have hs := hz.append h.left
    have ht := hz.append h.right
    rw [← List.append_assoc, ← List.append_assoc]
    exact Or.inl ⟨token_run hs he, token_run ht he, afterToken_run hs he, afterToken_run ht he⟩
  · obtain ⟨hs, hs'⟩ := token_append_of_not hz (s ++ e)
    obtain ⟨ht, ht'⟩ := token_append_of_not hz (t ++ e)
    exact Or.inr ⟨token z, afterToken z, length_afterToken_le z, hs, ht, hs', ht'⟩

theorem Alike.kept {s t z : Bytes} (h : Alike s t) : kept (z ++ s) = kept (z ++ t) := by
  have hleft := h.leftLong
  have hright := h.rightLong
  rw [kept_of_long (by rw [List.length_append]; omega),
    kept_of_long (by rw [List.length_append]; omega), List.take_append, List.take_append,
    h.take_le (by omega)]

theorem Alike.token_ne_nil {s t e z : Bytes} (h : Alike s t) (hs : token (z ++ (s ++ e)) ≠ []) :
    token (z ++ (t ++ e)) ≠ [] := by
  cases z with
  | nil =>
    have hright := h.rightLong
    rw [List.nil_append, h.right.token_append]
    intro hnil
    rw [(List.append_eq_nil_iff.mp hnil).1] at hright
    exact absurd hright (by simp)
  | cons b z =>
    rw [token_ne_nil_iff] at hs ⊢
    exact hs

/-- A match that starts before one of two runs alike. -/
theorem scrubStep_alike {s t u e : Bytes} (h : Alike s t) (he : token e = []) (hu : u ≠ [])
    (hm : Matches (u ++ (s ++ e))) : Matches (u ++ (t ++ e)) ∧
      ∃ em, (scrubStep (u ++ (s ++ e)) = (em, e) ∧ scrubStep (u ++ (t ++ e)) = (em, e)) ∨
        ∃ w, w.length < u.length ∧ scrubStep (u ++ (s ++ e)) = (em, w ++ (s ++ e)) ∧
          scrubStep (u ++ (t ++ e)) = (em, w ++ (t ++ e)) := by
  rcases hm with ⟨p, r, hs⟩ | ⟨p, r, hs⟩
  · obtain ⟨z, rfl, rfl⟩ : ∃ z, u = p ++ z ∧ r = z ++ (s ++ e) := by
      rcases List.append_eq_append_iff.mp hs.eq with ⟨a, hp, hr⟩ | ⟨z, hz, hr⟩
      · have hlen := congrArg List.length hp
        rw [hs.length, List.length_append] at hlen
        obtain ⟨x, -, hx, -⟩ := h.split (by omega) hr
        have ha : a = [] := by
          apply hs.last hp
          intro b hb
          exact h.left b (hx ▸ List.mem_append_left _ hb)
        rw [ha, List.append_nil] at hp
        rw [ha, List.nil_append] at hr
        exact ⟨[], by rw [hp, List.append_nil], by rw [← hr, List.nil_append]⟩
      · exact ⟨z, hz, hr⟩
    have ht : BearerSplit (p ++ z ++ (t ++ e)) p (z ++ (t ++ e)) :=
      ⟨List.append_assoc .., hs.scheme, h.token_ne_nil hs.token⟩
    refine ⟨Or.inl ⟨p, _, ht⟩, ?_⟩
    rw [scrubStep_bearer hs, scrubStep_bearer ht]
    rcases h.behind (z := z) he with ⟨h1, h2, h3, h4⟩ | ⟨x, w, hw, h1, h2, h3, h4⟩
    · rw [h1, h2, h3, h4, h.kept]
      exact ⟨_, Or.inl ⟨rfl, rfl⟩⟩
    · rw [h1, h2, h3, h4]
      refine ⟨_, Or.inr ⟨w, ?_, rfl, rfl⟩⟩
      rw [List.length_append, hs.length]
      omega
  · have hpos : 0 < p.length ∧ p.length ≤ 7 := by
      have hall : ∀ p ∈ secretPrefixes, 0 < p.length ∧ p.length ≤ 7 := by decide
      exact hall p hs.known
    rcases List.append_eq_append_iff.mp hs.eq with ⟨a, hp, hr⟩ | ⟨z, rfl, rfl⟩
    · -- the prefix ends in the run
      have hlen := congrArg List.length hp
      rw [List.length_append] at hlen
      obtain ⟨x, x', hx, hx', -, hne', rfl⟩ := h.split (by omega) hr
      have hsec : SecretOnly x := fun b hb => h.left b (hx ▸ List.mem_append_right _ hb)
      have hsec' : SecretOnly x' := fun b hb => h.right b (hx' ▸ List.mem_append_right _ hb)
      have ht : KeySplit (u ++ (t ++ e)) p (x' ++ e) := by
        refine ⟨?_, hs.known, ?_⟩
        · rw [hp, hx']
          simp only [List.append_assoc]
        · rwa [token_run hsec' he]
      refine ⟨Or.inr ⟨p, _, ht⟩, ?_⟩
      rw [scrubStep_key hs, scrubStep_key ht, afterToken_run hsec he, afterToken_run hsec' he]
      exact ⟨_, Or.inl ⟨rfl, rfl⟩⟩
    · have ht : KeySplit (p ++ z ++ (t ++ e)) p (z ++ (t ++ e)) :=
        ⟨List.append_assoc .., hs.known, h.token_ne_nil hs.token⟩
      refine ⟨Or.inr ⟨p, _, ht⟩, ?_⟩
      rw [scrubStep_key hs, scrubStep_key ht]
      rcases h.behind (z := z) he with ⟨-, -, h3, h4⟩ | ⟨x, w, hw, -, -, h3, h4⟩
      · rw [h3, h4]
        exact ⟨_, Or.inl ⟨rfl, rfl⟩⟩
      · rw [h3, h4]
        refine ⟨_, Or.inr ⟨w, ?_, rfl, rfl⟩⟩
        rw [List.length_append]
        omega

/-- Two runs alike are scrubbed alike behind every text, if they are on their own. -/
theorem scrub_alike {s t e : Bytes} (h : Alike s t) (he : token e = [])
    (hrun : scrub (s ++ e) = scrub (t ++ e)) (u : Bytes) :
    scrub (u ++ (s ++ e)) = scrub (u ++ (t ++ e)) := by
  induction hn : u.length using Nat.strong_induction_on generalizing u with
  | _ n ih =>
    by_cases hu : u = []
    · rw [hu]
      exact hrun
    have hleft : u ++ (s ++ e) ≠ [] := by simp [hu]
    have hright : u ++ (t ++ e) ≠ [] := by simp [hu]
    by_cases hm : Matches (u ++ (s ++ e))
    · obtain ⟨-, em, ⟨hs, ht⟩ | ⟨w, hw, hs, ht⟩⟩ := scrubStep_alike h he hu hm
      · rw [scrub_eq hleft, scrub_eq hright, hs, ht]
      · rw [scrub_eq hleft, scrub_eq hright, hs, ht, ih w.length (hn ▸ hw) w rfl]
    · have hm' : ¬ Matches (u ++ (t ++ e)) := by
        intro hm'
        exact hm (scrubStep_alike h.symm he hu hm').1
      obtain ⟨b, u, rfl⟩ := List.exists_cons_of_ne_nil hu
      rw [List.cons_append] at hm hm' ⊢
      rw [List.cons_append, scrub_plain hm, scrub_plain hm',
        ih u.length (hn ▸ Nat.lt_succ_self _) u rfl]

/-- Tokens of known octets behind one key prefix. -/
theorem scrub_keyText {u p t t' v : Bytes} (hp : p ∈ secretPrefixes) (ht : SecretOnly t)
    (ht' : SecretOnly t') (hlen : 4 < t.length) (hlen' : 4 < t'.length)
    (htake : t'.take 4 = t.take 4) : scrub (keyText u p t v) = scrub (keyText u p t' v) := by
  obtain ⟨hthree, hsec⟩ : 3 ≤ p.length ∧ SecretOnly p := by
    have hall : ∀ p ∈ secretPrefixes, 3 ≤ p.length ∧ SecretOnly p := by decide +kernel
    exact hall p hp
  have halike : Alike (p ++ t) (p ++ t') := by
    refine ⟨hsec.append ht, hsec.append ht', ?_, ?_, ?_⟩
    · rw [List.length_append]
      omega
    · rw [List.length_append]
      omega
    · have hk : 7 - p.length ≤ 4 := by omega
      have hcut := congrArg (List.take (7 - p.length)) htake
      rw [List.take_take, List.take_take, Nat.min_eq_left hk] at hcut
      rw [List.take_append, List.take_append, hcut]
  have hne : t ≠ [] := by
    rintro rfl
    exact absurd hlen (by simp)
  have hne' : t' ≠ [] := by
    rintro rfl
    exact absurd hlen' (by simp)
  rw [keyText_eq, keyText_eq]
  apply scrub_alike halike (token_space v)
  rw [scrub_key_run hp hne ht (token_space v), scrub_key_run hp hne' ht' (token_space v)]

/-! ## What is hidden -/

/-- The texts that `sc_scrub_secret_patterns` makes of texts given as a whole. -/
def scrubbed (s : Bytes) : Bytes := scScrubSecretPatterns (some s) s.length

theorem scrubbed_eq (s : Bytes) : scrubbed s = scrub s := scScrubSecretPatterns_text s

/-- Another token of the same kind: the first four octets, and whether all octets are known. -/
structure SameKind (t t' : Bytes) : Prop where
  isToken : IsBearerToken t'
  take : t'.take 4 = t.take 4
  known : SecretOnly t' ↔ SecretOnly t

theorem length_take_four {t : Bytes} (h : IsBearerToken t) : (t.take 4).length = 4 := by
  have hlong := h.long
  rw [List.length_take]
  omega

/-- Tokens made of the first four octets and one octet more, any number of times. -/
theorem isBearerToken_pad {t : Bytes} {d : UInt8} {n : ℕ} (h : IsBearerToken t)
    (hd : isBearerChar d = true) : IsBearerToken (t.take 4 ++ List.replicate (n + 1) d) ∧
      (t.take 4 ++ List.replicate (n + 1) d).take 4 = t.take 4 := by
  have hfour := length_take_four h
  refine ⟨⟨?_, ?_⟩, ?_⟩
  · rw [List.length_append, List.length_replicate]
    omega
  · intro b hb
    rcases List.mem_append.mp hb with hb | hb
    · exact h.chars b (List.mem_of_mem_take hb)
    · rw [(List.mem_replicate.mp hb).2]
      exact hd
  · rw [List.take_append_of_le_length (by omega), List.take_take, Nat.min_self]

theorem sameKind_tilde {t : Bytes} (h : IsBearerToken t) (hs : ¬ SecretOnly t) (n : ℕ) :
    SameKind t (t.take 4 ++ List.replicate (n + 1) (ch '~')) := by
  obtain ⟨htok, htake⟩ := isBearerToken_pad (n := n) h (show isBearerChar (ch '~') = true by decide)
  refine ⟨htok, htake, iff_of_false (fun hall => ?_) hs⟩
  have hsecret := hall (ch '~') (by simp [List.replicate_succ])
  exact absurd hsecret (by decide)

theorem sameKind_zero {t : Bytes} (h : IsBearerToken t) (hs : SecretOnly t) (n : ℕ) :
    SameKind t (t.take 4 ++ List.replicate (n + 1) (ch '0')) := by
  obtain ⟨htok, htake⟩ := isBearerToken_pad (n := n) h (show isBearerChar (ch '0') = true by decide)
  refine ⟨htok, htake, iff_of_true (fun b hb => ?_) hs⟩
  rcases List.mem_append.mp hb with hb | hb
  · exact hs b (List.mem_of_mem_take hb)
  · rw [(List.mem_replicate.mp hb).2]
    decide

/-- Behind a tilde the text is shown: one and two of them are told apart. -/
theorem scrub_tilde_ne (x v : Bytes) :
    scrub (x ++ ch '~' :: ch ' ' :: v) ≠ scrub (x ++ ch '~' :: ch '~' :: ch ' ' :: v) := by
  obtain ⟨A, hA⟩ := scrub_of_stopsBefore isCut_tilde
    (stopsBefore_of_not_secret isCut_tilde (by decide) x)
  rw [hA, hA, scrub_tilde, scrub_tilde, scrub_tilde, scrub_space]
  intro h
  have hcons := List.append_cancel_left h
  rw [List.cons.injEq, List.cons.injEq] at hcons
  exact absurd hcons.2.1 (by decide)

/-- A bearer token is hidden exactly where all its octets are known, and the scan comes to the
scheme or the first four octets hold a key prefix. -/
theorem bearer_hidden_iff {u t v : Bytes} (h : IsBearerToken t) :
    (∀ t', SameKind t t' → scrub (bearerText u t v) = scrub (bearerText u t' v)) ↔
      SecretOnly t ∧ (StopsBefore (ch 'B') u ∨ ContainsKey (t.take 4)) := by
  have hfour := length_take_four h
  constructor
  · intro hall
    by_cases hs : SecretOnly t
    · refine ⟨hs, ?_⟩
      by_contra hnot
      rw [not_or] at hnot
      have hone := hall _ (sameKind_zero h hs 0)
      have htwo := hall _ (sameKind_zero h hs 1)
      obtain ⟨g, hg⟩ := scrub_of_not_stopsBefore isCut_bearer hnot.1
      have hshown (w : Bytes) : scrub (u ++ ch 'B' :: (ascii "earer " ++ (t.take 4 ++ ch '0' :: w))) =
          g (ascii "Bearer") ++ ch ' ' :: (t.take 4 ++ ch '0' :: scrub w) := by
        obtain ⟨htok, hafter⟩ := token_scheme (t.take 4 ++ ch '0' :: w)
        rw [hg, htok, hafter, scrub_space, scrub_not_containsKey hfour hnot.2]
      rw [hone, bearerText_eq, bearerText_eq] at htwo
      simp only [List.replicate_succ, List.replicate_zero, List.append_assoc, List.cons_append,
        List.nil_append, hshown, scrub_zero, scrub_space] at htwo
      have hcons := List.append_cancel_left htwo
      rw [List.cons.injEq] at hcons
      have htail := List.append_cancel_left hcons.2
      rw [List.cons.injEq, List.cons.injEq] at htail
      exact absurd htail.2.1 (by decide)
    · have hone := hall _ (sameKind_tilde h hs 0)
      have htwo := hall _ (sameKind_tilde h hs 1)
      rw [hone, bearerText, bearerText, ascii_space] at htwo
      refine absurd ?_ (scrub_tilde_ne (u ++ ascii "Bearer " ++ t.take 4) v)
      simpa only [List.replicate_succ, List.replicate_zero, List.append_assoc, List.cons_append,
        List.nil_append] using htwo
  · rintro ⟨hs, hstop⟩ t' ht'
    have hs' := ht'.known.mpr hs
    rw [bearerText_eq, bearerText_eq]
    by_cases hsync : StopsBefore (ch 'B') u
    · obtain ⟨A, hA⟩ := scrub_of_stopsBefore isCut_bearer hsync
      rw [hA, hA, scrub_scheme hs h.long, scrub_scheme hs' ht'.isToken.long, ht'.take]
    · obtain ⟨g, hg⟩ := scrub_of_not_stopsBefore isCut_bearer hsync
      obtain ⟨a, ha⟩ := scrub_containsKey hfour (hstop.resolve_left hsync)
      have hrest (x : Bytes) (hx : IsBearerToken x) (hsx : SecretOnly x)
          (htake : x.take 4 = t.take 4) :
          scrub (x ++ ch ' ' :: v) = a ++ scScrubRedacted ++ scrub (ch ' ' :: v) := by
        have hsplit : x = t.take 4 ++ x.drop 4 := by rw [← htake, List.take_append_drop]
        have hne : x.drop 4 ≠ [] := by
          have hlong := hx.long
          rw [ne_eq, List.drop_eq_nil_iff]
          omega
        rw [hsplit]
        exact ha _ _ hne (hsplit ▸ hsx) (token_space v)
      obtain ⟨htok, hafter⟩ := token_scheme (t ++ ch ' ' :: v)
      obtain ⟨htok', hafter'⟩ := token_scheme (t' ++ ch ' ' :: v)
      rw [hg, hg, htok, htok', hafter, hafter', scrub_space, scrub_space, hrest t h hs rfl,
        hrest t' ht'.isToken hs' ht'.take]

/-- A token behind a key prefix is hidden exactly where all its octets are known. -/
theorem key_hidden_iff {u p t v : Bytes} (hp : p ∈ secretPrefixes) (h : IsBearerToken t) :
    (∀ t', SameKind t t' → scrub (keyText u p t v) = scrub (keyText u p t' v)) ↔ SecretOnly t := by
  constructor
  · intro hall
    by_contra hs
    have hone := hall _ (sameKind_tilde h hs 0)
    have htwo := hall _ (sameKind_tilde h hs 1)
    rw [hone, keyText, keyText, ascii_space] at htwo
    refine absurd ?_ (scrub_tilde_ne (u ++ p ++ t.take 4) v)
    simpa only [List.replicate_succ, List.replicate_zero, List.append_assoc, List.cons_append,
      List.nil_append] using htwo
  · intro hs t' ht'
    exact scrub_keyText hp hs (ht'.known.mpr hs) h.long ht'.isToken.long ht'.take

end SeaClaw.Providers
