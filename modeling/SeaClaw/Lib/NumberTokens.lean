import SeaClaw.Lib.Strtod

/-!
# Octets outside of number tokens

`strtod` needs memory behind what it is given only as long as every octet there could belong to
a token: digits, signs, points and letters. An octet of another kind ends the search.
-/

namespace SeaClaw.Lib

/-- The octets that a token, or what looks like one, is made of. -/
def InToken (b : UInt8) : Prop :=
  isNChar b = true ∨ b = ch '.' ∨ b = ch '+' ∨ b = ch '-' ∨ b = ch '('

instance (b : UInt8) : Decidable (InToken b) := inferInstanceAs (Decidable (_ ∨ _))

theorem inToken_of_isDigit (b : UInt8) (h : isDigit b = true) : InToken b :=
  Or.inl (by rw [isNChar, h, Bool.true_or, Bool.true_or])

theorem inToken_of_isHexDigit : ∀ b, isHexDigit b = true → InToken b := by decide +kernel

theorem inToken_of_toLower (b : UInt8) (h : ch 'a' ≤ toLower b ∧ toLower b ≤ ch 'z') :
    InToken b :=
  Or.inl (by rw [isNChar, decide_eq_true h.1, decide_eq_true h.2, Bool.and_self, Bool.or_true,
    Bool.true_or])

section InToken

variable {s : Bytes}

theorem spanMem_none {p : UInt8 → Bool} (h : spanMem p s = none) : ∀ b ∈ s, p b = true := by
  induction s with
  | nil => exact fun b hb => absurd hb List.not_mem_nil
  | cons a s ih =>
    rw [spanMem] at h
    split_ifs at h with ha
    rw [Option.map_eq_none_iff] at h
    exact List.forall_mem_cons.mpr ⟨ha, ih h⟩

theorem spanMem_forall {p : UInt8 → Bool} {r : Bytes × Bytes} (h : spanMem p s = some r) :
    ∀ b ∈ r.1, p b = true := by
  induction s generalizing r with
  | nil => exact absurd h (Option.some_ne_none r).symm
  | cons a s ih =>
    rw [spanMem] at h
    split_ifs at h with ha
    · obtain ⟨q, hq, rfl⟩ := Option.map_eq_some_iff.mp h
      exact List.forall_mem_cons.mpr ⟨ha, ih hq⟩
    · cases h
      exact fun b hb => absurd hb List.not_mem_nil

theorem readSign_inToken {neg : Bool} {k : ℕ} {r : Bytes} (h : readSign s = some (neg, k, r)) :
    ∃ x, s = x ++ r ∧ ∀ b ∈ x, InToken b := by
  cases s with
  | nil => exact absurd h (Option.some_ne_none _).symm
  | cons a s =>
    rw [readSign] at h
    split_ifs at h with hminus hplus
    · cases h
      exact ⟨[a], rfl, List.forall_mem_singleton.mpr (Or.inr (Or.inr (Or.inr (Or.inl hminus))))⟩
    · cases h
      exact ⟨[a], rfl, List.forall_mem_singleton.mpr (Or.inr (Or.inr (Or.inl hplus)))⟩
    · cases h
      exact ⟨[], rfl, fun b hb => absurd hb List.not_mem_nil⟩

theorem readSign_none (h : readSign s = none) : s = [] := by
  cases s with
  | nil => rfl
  | cons a s =>
    rw [readSign] at h
    split_ifs at h

theorem readMantissa_none {p : UInt8 → Bool} (hp : ∀ b, p b = true → InToken b)
    (h : readMantissa p s = none) : ∀ b ∈ s, InToken b := by
  unfold readMantissa at h
  split at h
  · rename_i hspan
    exact fun b hb => hp b (spanMem_none hspan b hb)
  · rename_i hspan
    exact absurd rfl (spanMem_eq hspan).2
  · rename_i whole b r hspan
    split_ifs at h with hpoint
    rw [Option.map_eq_none_iff] at h
    rw [(spanMem_eq hspan).1]
    intro x hx
    rcases List.mem_append.mp hx with hx | hx
    · exact hp x (spanMem_forall hspan x hx)
    · rcases List.mem_cons.mp hx with rfl | hx
      · exact Or.inr (Or.inl hpoint)
      · exact hp x (spanMem_none h x hx)

theorem readMantissa_inToken {p : UInt8 → Bool} (hp : ∀ b, p b = true → InToken b)
    {w f : Bytes} {n : ℕ} {r : Bytes} (h : readMantissa p s = some (w, f, n, r)) :
    ∃ x, s = x ++ r ∧ ∀ b ∈ x, InToken b := by
  unfold readMantissa at h
  split at h
  · contradiction
  · contradiction
  · rename_i whole b q hspan
    have hs := (spanMem_eq hspan).1
    have hwhole := spanMem_forall hspan
    split_ifs at h with hpoint
    · obtain ⟨g, hg, he⟩ := Option.map_eq_some_iff.mp h
      have hq := (spanMem_eq hg).1
      have hfrac := spanMem_forall hg
      cases he
      refine ⟨w ++ b :: g.1, by rw [hs, hq, List.append_assoc, List.cons_append], ?_⟩
      intro x hx
      rcases List.mem_append.mp hx with hx | hx
      · exact hp x (hwhole x hx)
      · rcases List.mem_cons.mp hx with rfl | hx
        · exact Or.inr (Or.inl hpoint)
        · exact hp x (hfrac x hx)
    · cases h
      exact ⟨w, hs, fun x hx => hp x (hwhole x hx)⟩

theorem readExponent_none {m : UInt8} (hm : ch 'a' ≤ m ∧ m ≤ ch 'z')
    (h : readExponent m s = none) : ∀ b ∈ s, InToken b := by
  cases s with
  | nil => exact fun b hb => absurd hb List.not_mem_nil
  | cons a s =>
    rw [readExponent] at h
    split_ifs at h with ha
    have hmarker : InToken a := inToken_of_toLower a (ha ▸ hm)
    split at h
    · rename_i hsign
      rw [readSign_none hsign]
      exact List.forall_mem_singleton.mpr hmarker
    · rename_i neg k r hsign
      rw [Option.map_eq_none_iff] at h
      obtain ⟨x, rfl, hx⟩ := readSign_inToken hsign
      refine List.forall_mem_cons.mpr ⟨hmarker, fun b hb => ?_⟩
      rcases List.mem_append.mp hb with hb | hb
      · exact hx b hb
      · exact inToken_of_isDigit b (spanMem_none h b hb)

theorem readDigits_none {p : UInt8 → Bool} (hp : ∀ b, p b = true → InToken b)
    {base expBase perDigit offset : ℕ} {m : UInt8} (hm : ch 'a' ≤ m ∧ m ≤ ch 'z')
    {missing : Token} (h : readDigits p base expBase perDigit m offset missing s = none) :
    ∀ b ∈ s, InToken b := by
  unfold readDigits at h
  split at h
  · rename_i hman
    exact readMantissa_none hp hman
  · rename_i whole frac n r hman
    split_ifs at h
    rw [Option.map_eq_none_iff] at h
    obtain ⟨x, rfl, hx⟩ := readMantissa_inToken hp hman
    intro b hb
    rcases List.mem_append.mp hb with hb | hb
    · exact hx b hb
    · exact readExponent_none hm h b hb

theorem matchWord_none {w : Bytes} (hw : ∀ b ∈ w, ch 'a' ≤ b ∧ b ≤ ch 'z')
    (h : matchWord w s = none) : ∀ b ∈ s, InToken b := by
  induction w generalizing s with
  | nil => exact absurd h (Option.some_ne_none _)
  | cons c w ih =>
    cases s with
    | nil => exact fun b hb => absurd hb List.not_mem_nil
    | cons a s =>
      rw [matchWord] at h
      split_ifs at h with ha
      obtain ⟨hc, hw⟩ := List.forall_mem_cons.mp hw
      exact List.forall_mem_cons.mpr ⟨inToken_of_toLower a (ha ▸ hc), ih hw h⟩

theorem matchWord_inToken {w : Bytes} (hw : ∀ b ∈ w, ch 'a' ≤ b ∧ b ≤ ch 'z')
    (h : matchWord w s = some true) : ∀ b ∈ s.take w.length, InToken b := by
  induction w generalizing s with
  | nil => exact fun b hb => absurd hb List.not_mem_nil
  | cons c w ih =>
    cases s with
    | nil => exact fun b hb => absurd hb List.not_mem_nil
    | cons a s =>
      rw [matchWord] at h
      split_ifs at h with ha
      · obtain ⟨hc, hw⟩ := List.forall_mem_cons.mp hw
        exact List.forall_mem_cons.mpr ⟨inToken_of_toLower a (ha ▸ hc), ih hw h⟩
      · exact absurd h (by simp)

theorem letters_inf : ∀ b ∈ ascii "inf", ch 'a' ≤ b ∧ b ≤ ch 'z' :=
  forall_mem_of_all (by decide)

theorem letters_infinity : ∀ b ∈ ascii "infinity", ch 'a' ≤ b ∧ b ≤ ch 'z' :=
  forall_mem_of_all (by decide)

theorem letters_nan : ∀ b ∈ ascii "nan", ch 'a' ≤ b ∧ b ≤ ch 'z' :=
  forall_mem_of_all (by decide)

theorem readInf_none (h : readInf s = none) : ∀ b ∈ s, InToken b := by
  unfold readInf at h
  split at h
  · rename_i hword
    exact matchWord_none letters_inf hword
  · exact absurd h (Option.some_ne_none _)
  · rw [Option.map_eq_none_iff] at h
    exact matchWord_none letters_infinity h

theorem readNan_none (h : readNan s = none) : ∀ b ∈ s, InToken b := by
  unfold readNan at h
  split at h
  · rename_i hword
    exact matchWord_none letters_nan hword
  · exact absurd h (Option.some_ne_none _)
  · rename_i hword
    have hhead : ∀ b ∈ s.take 3, InToken b := matchWord_inToken letters_nan hword
    have htail : ∀ b ∈ s.drop 3, InToken b := by
      split at h
      · rename_i hnil
        rw [hnil]
        exact fun b hb => absurd hb List.not_mem_nil
      · rename_i a r hdrop
        split_ifs at h with hparen
        rw [Option.map_eq_none_iff] at h
        rw [hdrop]
        exact List.forall_mem_cons.mpr ⟨Or.inr (Or.inr (Or.inr (Or.inr hparen))),
          fun b hb => Or.inl (spanMem_none h b hb)⟩
    intro b hb
    rw [← List.take_append_drop 3 s] at hb
    rcases List.mem_append.mp hb with hb | hb
    · exact hhead b hb
    · exact htail b hb

theorem readUnsigned_none (h : readUnsigned s = none) : ∀ b ∈ s, InToken b := by
  have hdec : ∀ {w}, readDecimal w = none → ∀ b ∈ w, InToken b := fun h =>
    readDigits_none inToken_of_isDigit (by decide) h
  cases s with
  | nil => exact fun b hb => absurd hb List.not_mem_nil
  | cons a s =>
    rw [readUnsigned.eq_def] at h
    simp only at h
    split_ifs at h with hi hn hzero
    · exact readInf_none h
    · exact readNan_none h
    · cases s with
      | nil =>
        rw [hzero]
        exact List.forall_mem_singleton.mpr (by decide)
      | cons x r =>
        simp only at h
        split_ifs at h with hx
        · refine List.forall_mem_cons.mpr ⟨by rw [hzero]; decide, List.forall_mem_cons.mpr ⟨?_, ?_⟩⟩
          · exact inToken_of_toLower x (by rw [hx]; decide)
          · exact readDigits_none inToken_of_isHexDigit (by decide) h
        · exact hdec h
    · exact hdec h

/-- With an octet that no token holds, there is nothing to look for behind the memory. -/
theorem strtod_isSome {b : UInt8} (hb : b ∈ s) (hout : ¬ InToken b) : ∃ r, strtod s = some r := by
  rw [← Option.ne_none_iff_exists']
  intro h
  refine hout ?_
  unfold strtod at h
  split at h
  · rename_i hsign
    rw [readSign_none hsign] at hb
    exact absurd hb List.not_mem_nil
  · rename_i neg k r hsign
    rw [Option.map_eq_none_iff] at h
    obtain ⟨x, rfl, hx⟩ := readSign_inToken hsign
    rcases List.mem_append.mp hb with hb | hb
    · exact hx b hb
    · exact readUnsigned_none h b hb

end InToken

end SeaClaw.Lib
