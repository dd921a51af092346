import SeaClaw.Providers.Scrub

/-!
# The scan around one octet

An octet that no pattern has behind its first octet cuts the text: a pattern that starts before
it ends before it. If it is no token octet either, the scan stops at it and what is written
before it does not depend on what follows. If it is a token octet, a token before it may go on
over it, and which of the two happens is decided by the text before it.
-/

namespace SeaClaw.Providers

open SeaClaw.Lib

/-- No pattern has the octet behind its first one. -/
structure IsCut (d : UInt8) : Prop where
  scheme : toLower d ∉ (ascii "bearer ").tail
  known : ∀ p ∈ secretPrefixes, d ∉ p.tail

theorem isCut_tilde : IsCut (ch '~') := ⟨by decide, by decide⟩

theorem isCut_zero : IsCut (ch '0') := ⟨by decide, by decide⟩

theorem isCut_bearer : IsCut (ch 'B') := ⟨by decide, by decide⟩

theorem token_append (s : Bytes) : token s ++ afterToken s = s := List.takeWhile_append_dropWhile

theorem token_cons_of_pos {b : UInt8} {s : Bytes} (h : isSecretChar b = true) :
    token (b :: s) = b :: token s := List.takeWhile_cons_of_pos h

theorem token_cons_of_neg {b : UInt8} {s : Bytes} (h : ¬ isSecretChar b = true) :
    token (b :: s) = [] := List.takeWhile_cons_of_neg h

theorem afterToken_cons_of_pos {b : UInt8} {s : Bytes} (h : isSecretChar b = true) :
    afterToken (b :: s) = afterToken s := List.dropWhile_cons_of_pos h

theorem afterToken_cons_of_neg {b : UInt8} {s : Bytes} (h : ¬ isSecretChar b = true) :
    afterToken (b :: s) = b :: s := List.dropWhile_cons_of_neg h

theorem token_ne_nil_iff {s : Bytes} :
    token s ≠ [] ↔ ∃ b, s.head? = some b ∧ isSecretChar b = true := by
  cases s with
  | nil => simp [token]
  | cons b s => by_cases hb : isSecretChar b = true <;> simp [token, hb]

/-- All octets are token octets. -/
def SecretOnly (s : Bytes) : Prop := ∀ b ∈ s, isSecretChar b = true

instance (s : Bytes) : Decidable (SecretOnly s) := inferInstanceAs (Decidable (∀ _ ∈ _, _))

theorem SecretOnly.append {s t : Bytes} (hs : SecretOnly s) (ht : SecretOnly t) :
    SecretOnly (s ++ t) := by
  intro b hb
  exact (List.mem_append.mp hb).elim (hs b) (ht b)

theorem SecretOnly.token_append {s : Bytes} (h : SecretOnly s) (t : Bytes) :
    token (s ++ t) = s ++ token t := List.takeWhile_append_of_pos h

theorem SecretOnly.afterToken_append {s : Bytes} (h : SecretOnly s) (t : Bytes) :
    afterToken (s ++ t) = afterToken t := List.dropWhile_append_of_pos h

/-- A token that ends in the text before ends there whatever follows. -/
theorem token_append_of_not {s : Bytes} (h : ¬ SecretOnly s) (t : Bytes) :
    token (s ++ t) = token s ∧ afterToken (s ++ t) = afterToken s ++ t := by
  induction s with
  | nil => exact absurd (fun b hb => absurd hb List.not_mem_nil) h
  | cons b s ih =>
    by_cases hb : isSecretChar b = true
    · have hs : ¬ SecretOnly s := by
        intro hs
        apply h
        intro c hc
        rcases List.mem_cons.mp hc with rfl | hc
        · exact hb
        · exact hs c hc
      obtain ⟨htok, hafter⟩ := ih hs
      rw [List.cons_append, token_cons_of_pos hb, afterToken_cons_of_pos hb, htok, hafter,
        token_cons_of_pos hb, afterToken_cons_of_pos hb]
      exact ⟨rfl, rfl⟩
    · rw [List.cons_append, token_cons_of_neg hb, afterToken_cons_of_neg hb,
        token_cons_of_neg hb, afterToken_cons_of_neg hb]
      exact ⟨rfl, rfl⟩

/-- A pattern that starts before the cut ends before it. -/
theorem split_at_cut {x y p r : Bytes} {d : UInt8} (hx : x ≠ []) (hd : d ∉ p.tail)
    (h : x ++ d :: y = p ++ r) : ∃ z, x = p ++ z ∧ r = z ++ d :: y := by
  rcases List.append_eq_append_iff.mp h with ⟨a, hp, hy⟩ | ⟨z, hxz, hr⟩
  · cases a with
    | nil =>
      rw [List.append_nil] at hp
      exact ⟨[], by rw [hp, List.append_nil], by simpa using hy.symm⟩
    | cons c a =>
      rw [List.cons_append, List.cons.injEq] at hy
      obtain ⟨b, x, rfl⟩ := List.exists_cons_of_ne_nil hx
      rw [hp, ← hy.1, List.cons_append, List.tail_cons] at hd
      exact absurd (List.mem_append_right _ List.mem_cons_self) hd
  · exact ⟨z, hxz, hr⟩

theorem IsCut.scheme_tail {d : UInt8} (hd : IsCut d) {p : Bytes}
    (hp : p.map toLower = ascii "bearer ") : d ∉ p.tail := by
  intro hmem
  apply hd.scheme
  rw [← hp, ← List.map_tail]
  exact List.mem_map_of_mem hmem

/-- What follows the cut has no say in what matches before it. -/
theorem token_cut_ne_nil {z y y' : Bytes} {d : UInt8} (h : token (z ++ d :: y) ≠ []) :
    token (z ++ d :: y') ≠ [] := by
  rw [token_ne_nil_iff] at h ⊢
  cases z with
  | nil => exact h
  | cons b z => exact h

theorem BearerSplit.cut {x y p r : Bytes} {d : UInt8} (hd : IsCut d) (hx : x ≠ [])
    (h : BearerSplit (x ++ d :: y) p r) (y' : Bytes) :
    ∃ z, x = p ++ z ∧ BearerSplit (x ++ d :: y') p (z ++ d :: y') := by
  obtain ⟨z, rfl, rfl⟩ := split_at_cut hx (hd.scheme_tail h.scheme) h.eq
  exact ⟨z, rfl, List.append_assoc .., h.scheme, token_cut_ne_nil h.token⟩

theorem KeySplit.cut {x y p r : Bytes} {d : UInt8} (hd : IsCut d) (hx : x ≠ [])
    (h : KeySplit (x ++ d :: y) p r) (y' : Bytes) :
    ∃ z, x = p ++ z ∧ KeySplit (x ++ d :: y') p (z ++ d :: y') := by
  obtain ⟨z, rfl, rfl⟩ := split_at_cut hx (hd.known p h.known) h.eq
  exact ⟨z, rfl, List.append_assoc .., h.known, token_cut_ne_nil h.token⟩

theorem Matches.cut {x y : Bytes} {d : UInt8} (hd : IsCut d) (hx : x ≠ [])
    (h : Matches (x ++ d :: y)) (y' : Bytes) : Matches (x ++ d :: y') := by
  rcases h with ⟨p, r, h⟩ | ⟨p, r, h⟩
  · obtain ⟨z, -, h⟩ := h.cut hd hx y'
    exact Or.inl ⟨p, _, h⟩
  · obtain ⟨z, -, h⟩ := h.cut hd hx y'
    exact Or.inr ⟨p, _, h⟩

/-- A turn before the cut: it stays before the cut, or a token goes on over it. -/
theorem scrubStep_cut {x : Bytes} {d : UInt8} (hd : IsCut d) (hx : x ≠ []) :
    (∃ em z, z.length < x.length ∧ ∀ y, scrubStep (x ++ d :: y) = (em, z ++ d :: y)) ∨
      isSecretChar d = true ∧
        ∃ g : Bytes → Bytes, ∀ y, scrubStep (x ++ d :: y) = (g (token (d :: y)), afterToken (d :: y)) := by
  by_cases hm : Matches (x ++ [d])
  · -- a match is one with a part `z` of the text between the pattern and the cut
    obtain ⟨z, g, hz, hstep⟩ : ∃ z, ∃ g : Bytes → Bytes, z.length < x.length ∧
        ∀ y, scrubStep (x ++ d :: y) = (g (token (z ++ d :: y)), afterToken (z ++ d :: y)) := by
      rcases hm with ⟨p, r, h⟩ | ⟨p, r, h⟩
      · obtain ⟨z, hz, -⟩ := h.cut hd hx []
        refine ⟨z, fun t => p ++ kept t ++ scScrubRedacted, ?_, ?_⟩
        · rw [hz, List.length_append, h.length]
          omega
        · intro y
          obtain ⟨z', hz', h'⟩ := h.cut hd hx y
          rw [List.append_cancel_left (hz.symm.trans hz'), scrubStep_bearer h']
      · obtain ⟨z, hz, -⟩ := h.cut hd hx []
        refine ⟨z, fun _ => scScrubRedacted, ?_, ?_⟩
        · have hpos : 0 < p.length := by
            rw [List.length_pos_iff]
            rintro rfl
            exact absurd h.known (by decide)
          rw [hz, List.length_append]
          omega
        · intro y
          obtain ⟨z', hz', h'⟩ := h.cut hd hx y
          rw [List.append_cancel_left (hz.symm.trans hz'), scrubStep_key h']
    by_cases hall : SecretOnly z
    · by_cases hsecret : isSecretChar d = true
      · refine Or.inr ⟨hsecret, fun t => g (z ++ t), fun y => ?_⟩
        rw [hstep, hall.token_append, hall.afterToken_append]
      · refine Or.inl ⟨g z, [], ?_, fun y => ?_⟩
        · exact Nat.lt_of_le_of_lt (Nat.zero_le _) hz
        · rw [hstep, hall.token_append, hall.afterToken_append, token_cons_of_neg hsecret,
            afterToken_cons_of_neg hsecret, List.append_nil, List.nil_append]
    · refine Or.inl ⟨g (token z), afterToken z, ?_, fun y => ?_⟩
      · exact (length_afterToken_le z).trans_lt hz
      · obtain ⟨htok, hafter⟩ := token_append_of_not hall (d :: y)
        rw [hstep, htok, hafter]
  · obtain ⟨b, x, rfl⟩ := List.exists_cons_of_ne_nil hx
    refine Or.inl ⟨[b], x, Nat.lt_succ_self _, fun y => ?_⟩
    rw [List.cons_append]
    apply scrubStep_plain
    intro hm'
    exact hm (Matches.cut hd hx hm' [])

/-- Where the scan goes on after one turn. -/
def rest (s : Bytes) : Bytes := (scrubStep s).2

/-- The scan of `u` and an octet `d` behind it stops before that octet. -/
def StopsBefore (d : UInt8) (u : Bytes) : Prop := ∃ n, rest^[n] (u ++ [d]) = [d]

theorem stopsBefore_nil (d : UInt8) : StopsBefore d [] := ⟨0, rfl⟩

/-- Whether the scan stops there is decided behind its first turn. -/
theorem stopsBefore_iff_of_step {d : UInt8} {u em z : Bytes} (hu : u ≠ [])
    (h : scrubStep (u ++ [d]) = (em, z ++ [d])) : StopsBefore d u ↔ StopsBefore d z := by
  have hrest : rest (u ++ [d]) = z ++ [d] := by rw [rest, h]
  constructor
  · rintro ⟨n, hn⟩
    cases n with
    | zero => exact absurd (by simpa using hn) hu
    | succ n => exact ⟨n, by rwa [Function.iterate_succ_apply, hrest] at hn⟩
  · rintro ⟨n, hn⟩
    exact ⟨n + 1, by rwa [Function.iterate_succ_apply, hrest]⟩

theorem iterate_rest_nil (n : ℕ) : rest^[n] [] = [] := Function.iterate_fixed rfl n

theorem not_stopsBefore_of_step {d : UInt8} {u em : Bytes} (hu : u ≠ [])
    (h : scrubStep (u ++ [d]) = (em, [])) : ¬ StopsBefore d u := by
  rintro ⟨n, hn⟩
  have hrest : rest (u ++ [d]) = [] := by rw [rest, h]
  cases n with
  | zero => exact hu (by simpa using hn)
  | succ n =>
    rw [Function.iterate_succ_apply, hrest, iterate_rest_nil] at hn
    exact absurd hn (by simp)

/-- A scan that stops before the cut has written the same whatever follows. -/
theorem scrub_of_stopsBefore {u : Bytes} {d : UInt8} (hd : IsCut d) (h : StopsBefore d u) :
    ∃ A, ∀ y, scrub (u ++ d :: y) = A ++ scrub (d :: y) := by
  induction hn : u.length using Nat.strong_induction_on generalizing u with
  | _ n ih =>
    by_cases hu : u = []
    · exact ⟨[], fun y => by rw [hu]; rfl⟩
    rcases scrubStep_cut hd hu with ⟨em, z, hz, hstep⟩ | ⟨hsecret, g, hstep⟩
    · have hzstop := (stopsBefore_iff_of_step hu (hstep [])).mp h
      obtain ⟨A, hA⟩ := ih z.length (hn ▸ hz) hzstop rfl
      refine ⟨em ++ A, fun y => ?_⟩
      rw [scrub_eq (by simp), hstep, hA, List.append_assoc]
    · have hnil : afterToken [d] = [] := afterToken_cons_of_pos hsecret
      have hend := hstep []
      rw [hnil] at hend
      exact absurd h (not_stopsBefore_of_step hu hend)

/-- A scan that does not stop there takes the whole token that the cut begins. -/
theorem scrub_of_not_stopsBefore {u : Bytes} {d : UInt8} (hd : IsCut d) (h : ¬ StopsBefore d u) :
    ∃ g : Bytes → Bytes, ∀ y,
      scrub (u ++ d :: y) = g (token (d :: y)) ++ scrub (afterToken (d :: y)) := by
  induction hn : u.length using Nat.strong_induction_on generalizing u with
  | _ n ih =>
    have hu : u ≠ [] := by
      rintro rfl
      exact h (stopsBefore_nil d)
    rcases scrubStep_cut hd hu with ⟨em, z, hz, hstep⟩ | ⟨-, g, hstep⟩
    · have hzstop := (stopsBefore_iff_of_step hu (hstep [])).not.mp h
      obtain ⟨g, hg⟩ := ih z.length (hn ▸ hz) hzstop rfl
      refine ⟨fun t => em ++ g t, fun y => ?_⟩
      rw [scrub_eq (by simp), hstep, hg, List.append_assoc]
    · refine ⟨g, fun y => ?_⟩
      rw [scrub_eq (by simp), hstep]

/-- The scan stops before a cut that is no token octet. -/
theorem stopsBefore_of_not_secret {d : UInt8} (hd : IsCut d) (hsecret : isSecretChar d = false)
    (u : Bytes) : StopsBefore d u := by
  induction hn : u.length using Nat.strong_induction_on generalizing u with
  | _ n ih =>
    by_cases hu : u = []
    · rw [hu]
      exact stopsBefore_nil d
    rcases scrubStep_cut hd hu with ⟨em, z, hz, hstep⟩ | ⟨htrue, -⟩
    · exact (stopsBefore_iff_of_step hu (hstep [])).mpr (ih z.length (hn ▸ hz) z rfl)
    · rw [hsecret] at htrue
      exact absurd htrue (by simp)

end SeaClaw.Providers
