import SeaClaw.Security.Shell

/-!
# The risk of a sequence of commands

The level of a command is the highest one of its segments. Commands with a separator between them
have the segments of both, so that the level is the maximum of theirs. Only an odd run of
ampersands in front of `&&` shifts the separator: the operators are found from the left, so that
the last ampersand goes to the second command.
-/

namespace SeaClaw.Security

open Lib

/-! ## Levels -/

/-- The higher level. -/
def CommandRiskLevel.max : CommandRiskLevel → CommandRiskLevel → CommandRiskLevel
  | .high, _ => .high
  | _, .high => .high
  | .medium, _ => .medium
  | _, .medium => .medium
  | .low, .low => .low

theorem max_assoc (a b c : CommandRiskLevel) : (a.max b).max c = a.max (b.max c) := by
  cases a <;> cases b <;> cases c <;> rfl

@[simp] theorem low_max (a : CommandRiskLevel) : CommandRiskLevel.low.max a = a := by
  cases a <;> rfl

@[simp] theorem max_low (a : CommandRiskLevel) : a.max .low = a := by cases a <;> rfl

theorem max_high (a : CommandRiskLevel) : a.max .high = .high := by cases a <;> rfl

/-- The level of one segment. -/
def segmentRisk (seg : Bytes) : CommandRiskLevel :=
  riskLoop [seg] false

/-- The highest level of the segments. -/
def riskOf (segs : List Bytes) : CommandRiskLevel :=
  segs.foldr (fun seg level => (segmentRisk seg).max level) .low

theorem riskOf_append (s t : List Bytes) : riskOf (s ++ t) = (riskOf s).max (riskOf t) := by
  induction s with
  | nil => rw [List.nil_append, riskOf, riskOf, List.foldr_nil, low_max]
  | cons seg s ih =>
    rw [List.cons_append, riskOf, List.foldr_cons, ← riskOf, ih, ← max_assoc]
    rfl

/-- The loop collects the highest level. -/
theorem riskLoop_eq (segs : List Bytes) (sawMedium : Bool) :
    riskLoop segs sawMedium =
      (if sawMedium then CommandRiskLevel.medium else .low).max (riskOf segs) := by
  induction segs generalizing sawMedium with
  | nil => rw [riskLoop, riskOf, List.foldr_nil, max_low]
  | cons seg segs ih =>
    rw [riskOf, List.foldr_cons, ← riskOf, segmentRisk]
    simp only [riskLoop]
    by_cases hhigh : isHighRiskCommand ((baseName (skipEnvAssignments seg)).map toLower)
    · rw [if_pos hhigh, if_pos hhigh]
      cases sawMedium <;> rfl
    · rw [if_neg hhigh, if_neg hhigh]
      by_cases hroot : containsStr (skipEnvAssignments seg) "rm -rf /" ∨
          containsStr (skipEnvAssignments seg) "rm -fr /"
      · rw [if_pos hroot, if_pos hroot]
        cases sawMedium <;> rfl
      · rw [if_neg hroot, if_neg hroot, ih, Bool.false_or]
        generalize isMediumRiskCmd _ _ = med
        generalize riskOf segs = rest
        cases sawMedium <;> cases med <;> cases rest <;> rfl

/-! ## Separators -/

section Separators

theorem normalizeCommand_eq {s : Bytes} (h : s.length ≤ maxAnalysisLen) :
    normalizeCommand s = (nullOperators s).map nullSeparator := by
  rw [normalizeCommand, List.take_of_length_le h]
  rfl

/-- Two octets that are an operator. -/
def IsOperator (a b : UInt8) : Prop := a = ch '&' ∧ b = ch '&' ∨ a = ch '|' ∧ b = ch '|'

instance (a b : UInt8) : Decidable (IsOperator a b) := inferInstanceAs (Decidable (_ ∨ _))

theorem nullOperators_cons_cons (a b : UInt8) (s : Bytes) : nullOperators (a :: b :: s) =
    if IsOperator a b then 0 :: 0 :: nullOperators s else a :: nullOperators (b :: s) := rfl

/-- Induction along the loop: over an operator, or over one octet. -/
theorem operator_induction {P : Bytes → Prop} (nil : P []) (single : ∀ a, P [a])
    (operator : ∀ a b s, IsOperator a b → P s → P (a :: b :: s))
    (octet : ∀ a b s, ¬ IsOperator a b → P (b :: s) → P (a :: b :: s)) : ∀ s, P s
  | [] => nil
  | [a] => single a
  | a :: b :: s =>
    if hop : IsOperator a b then
      operator a b s hop (operator_induction nil single operator octet s)
    else octet a b s hop (operator_induction nil single operator octet (b :: s))

/-- An octet that belongs to no operator is left alone. -/
theorem nullOperators_append {c : UInt8} (hamp : c ≠ ch '&') (hpipe : c ≠ ch '|') (s t : Bytes) :
    nullOperators (s ++ c :: t) = nullOperators s ++ c :: nullOperators t := by
  have hsep : nullOperators (c :: t) = c :: nullOperators t := by
    cases t with
    | nil => rfl
    | cons b t => rw [nullOperators, if_neg (by simp [hamp, hpipe])]
  induction s using operator_induction with
  | nil => exact hsep
  | single a =>
    have hop : ¬ IsOperator a c := by simp [IsOperator, hamp, hpipe]
    rw [List.singleton_append, nullOperators_cons_cons, if_neg hop, hsep]
    rfl
  | operator a b s hop ih =>
    rw [List.cons_append, List.cons_append, nullOperators_cons_cons, if_pos hop,
      nullOperators_cons_cons, if_pos hop, ih]
    rfl
  | octet a b s hop ih =>
    rw [List.cons_append, List.cons_append, nullOperators_cons_cons, if_neg hop,
      nullOperators_cons_cons, if_neg hop, ← List.cons_append, ih]
    rfl

/-- The ampersands at the end are even in number. -/
def EvenTail (s : Bytes) : Prop := Even (s.rtakeWhile (· = ch '&')).length

instance (s : Bytes) : Decidable (EvenTail s) := inferInstanceAs (Decidable (Even _))

/-- The run at the end of a text reaches its front only if there is nothing else. -/
theorem rtakeWhile_cons (p : UInt8 → Bool) (a : UInt8) (s : Bytes) : (a :: s).rtakeWhile p =
    if ∀ b ∈ s, p b then (if p a then a :: s else s) else s.rtakeWhile p := by
  have hall : (s.reverse.takeWhile p).length = s.reverse.length ↔ ∀ b ∈ s, p b := by
    constructor
    · intro hlen
      have heq := (List.takeWhile_prefix p).eq_of_length hlen
      rw [List.takeWhile_eq_self_iff] at heq
      simpa only [List.mem_reverse] using heq
    · intro h
      rw [List.takeWhile_eq_self_iff.mpr (by simpa only [List.mem_reverse] using h)]
  rw [List.rtakeWhile, List.reverse_cons, List.takeWhile_append, List.rtakeWhile]
  simp only [hall]
  split_ifs with hp ha
  · simp [ha]
  · simp [ha]
  · rfl

theorem EvenTail.of_operator {a b : UInt8} {s : Bytes} (h : EvenTail (a :: b :: s))
    (hop : IsOperator a b) : EvenTail s := by
  rw [EvenTail] at h ⊢
  rcases hop with ⟨rfl, rfl⟩ | ⟨rfl, rfl⟩
  · by_cases hall : ∀ c ∈ s, decide (c = ch '&') = true
    · have hmore : ∀ c ∈ ch '&' :: s, decide (c = ch '&') = true :=
        List.forall_mem_cons.mpr ⟨decide_eq_true rfl, hall⟩
      rw [rtakeWhile_cons, if_pos hmore, if_pos (decide_eq_true rfl), List.length_cons,
        List.length_cons, Nat.even_add_one, Nat.even_add_one, not_not] at h
      rwa [List.rtakeWhile_eq_self_iff.mpr hall]
    · have hmore : ¬ ∀ c ∈ ch '&' :: s, decide (c = ch '&') = true :=
        fun hmore => hall (List.forall_mem_cons.mp hmore).2
      rwa [rtakeWhile_cons, if_neg hmore, rtakeWhile_cons, if_neg hall] at h
  · have hpipe : ¬ decide (ch '|' = ch '&') = true := by decide
    have hmore : ¬ ∀ c ∈ ch '|' :: s, decide (c = ch '&') = true :=
      fun hmore => hpipe (List.forall_mem_cons.mp hmore).1
    rw [rtakeWhile_cons, if_neg hmore, rtakeWhile_cons, if_neg hpipe] at h
    split_ifs at h with hall
    · rwa [List.rtakeWhile_eq_self_iff.mpr hall]
    · exact h

theorem EvenTail.of_octet {a b : UInt8} {s : Bytes} (h : EvenTail (a :: b :: s))
    (hop : ¬ IsOperator a b) : EvenTail (b :: s) := by
  rw [EvenTail, rtakeWhile_cons] at h
  split_ifs at h with hall ha
  · have hb := hall b List.mem_cons_self
    rw [decide_eq_true_eq] at ha hb
    exact absurd (Or.inl ⟨ha, hb⟩) hop
  · rw [EvenTail, List.rtakeWhile_eq_self_iff.mpr hall]
    exact h
  · exact h

/-- Behind an even run of ampersands, `&&` is an operator. -/
theorem nullOperators_and {s : Bytes} (h : EvenTail s) (t : Bytes) :
    nullOperators (s ++ ascii "&&" ++ t) = nullOperators s ++ 0 :: 0 :: nullOperators t := by
  have hsep : nullOperators (ascii "&&" ++ t) = 0 :: 0 :: nullOperators t := by
    rw [show ascii "&&" ++ t = ch '&' :: ch '&' :: t from rfl, nullOperators, if_pos (by simp)]
  rw [List.append_assoc]
  induction s using operator_induction with
  | nil => exact hsep
  | single a =>
    have ha : a ≠ ch '&' := by
      rintro rfl
      exact absurd h (by decide)
    have hamp : ch '&' ≠ ch '|' := by decide
    have hop : ¬ IsOperator a (ch '&') := by simp [IsOperator, ha, hamp]
    rw [show ascii "&&" ++ t = ch '&' :: ch '&' :: t from rfl] at hsep ⊢
    rw [List.singleton_append, nullOperators_cons_cons, if_neg hop, hsep]
    rfl
  | operator a b s hop ih =>
    rw [List.cons_append, List.cons_append, nullOperators_cons_cons, if_pos hop,
      nullOperators_cons_cons, if_pos hop, ih (h.of_operator hop)]
    rfl
  | octet a b s hop ih =>
    rw [List.cons_append, List.cons_append, nullOperators_cons_cons, if_neg hop,
      nullOperators_cons_cons, if_neg hop, ← List.cons_append, ih (h.of_octet hop)]
    rfl

/-- Where a NUL separates two texts, the segments are those of both. -/
theorem segments_append_nul (s t : Bytes) :
    segments (s ++ 0 :: t) = segments s ++ segments t := by
  rw [segments_eq, segments_eq, segments_eq, List.splitOnP_append_cons s t (by decide), nonblank,
    List.map_append, List.filter_append]
  rfl

/-- Two NULs separate like one. -/
theorem segments_append_nuls (s t : Bytes) :
    segments (s ++ 0 :: 0 :: t) = segments s ++ segments t := by
  have hnil : segments (0 :: t) = segments t := by
    rw [segments_eq, segments_eq, List.splitOnP_cons_eq_if_modifyHead, if_pos (by decide),
      nonblank_nil_cons]
  rw [segments_append_nul, hnil]

/-- The level of a text is the highest one of its segments. -/
theorem scPolicyCommandRiskLevel_eq {s : Bytes} (h : s.length ≤ maxAnalysisLen) :
    scPolicyCommandRiskLevel s = riskOf (segments ((nullOperators s).map nullSeparator)) := by
  rw [scPolicyCommandRiskLevel, if_neg (by omega), normalizeCommand_eq h, riskLoop_eq]
  exact low_max _

/-- Behind a semicolon or a newline there is another command. -/
theorem risk_separated {c : UInt8} (hc : c = ch ';' ∨ c = ch '\n') (s t : Bytes)
    (h : (s ++ c :: t).length ≤ maxAnalysisLen) : scPolicyCommandRiskLevel (s ++ c :: t) =
      (scPolicyCommandRiskLevel s).max (scPolicyCommandRiskLevel t) := by
  have hamp : c ≠ ch '&' := by rcases hc with rfl | rfl <;> decide
  have hpipe : c ≠ ch '|' := by rcases hc with rfl | rfl <;> decide
  have hnul : nullSeparator c = 0 := by rcases hc with rfl | rfl <;> decide
  have hlen := h
  rw [List.length_append, List.length_cons] at hlen
  rw [scPolicyCommandRiskLevel_eq h, nullOperators_append hamp hpipe, List.map_append,
    List.map_cons, hnul, segments_append_nul, riskOf_append, scPolicyCommandRiskLevel_eq (by omega),
    scPolicyCommandRiskLevel_eq (by omega)]

/-- Behind `&&` there is another command, if the ampersands in front of it are even in number. -/
theorem risk_and {s : Bytes} (heven : EvenTail s) (t : Bytes)
    (h : (s ++ ascii "&&" ++ t).length ≤ maxAnalysisLen) :
    scPolicyCommandRiskLevel (s ++ ascii "&&" ++ t) =
      (scPolicyCommandRiskLevel s).max (scPolicyCommandRiskLevel t) := by
  have hlen := h
  rw [List.length_append, List.length_append] at hlen
  have hnul : nullSeparator 0 = 0 := by decide
  rw [scPolicyCommandRiskLevel_eq h, nullOperators_and heven, List.map_append,
    List.map_cons, List.map_cons, hnul, segments_append_nuls, riskOf_append,
    scPolicyCommandRiskLevel_eq (by omega), scPolicyCommandRiskLevel_eq (by omega)]

end Separators

/-- An odd run of ampersands is an even one and one more. -/
theorem exists_even_of_odd {s : Bytes} (h : ¬ EvenTail s) :
    ∃ u, s = u ++ [ch '&'] ∧ EvenTail u := by
  rcases List.eq_nil_or_concat s with rfl | ⟨u, c, rfl⟩
  · exact absurd (by decide) h
  · rw [EvenTail, List.concat_eq_append, List.rtakeWhile_concat] at h
    split_ifs at h with hc
    · rw [decide_eq_true_eq] at hc
      rw [List.length_append, List.length_singleton, Nat.even_add_one, not_not] at h
      refine ⟨u, ?_, h⟩
      rw [List.concat_eq_append, hc]
    · exact absurd Even.zero h

/-- The command that follows `a` in `a && b`: the last ampersand of an odd run goes to it. -/
def followed (a b : Bytes) : Bytes := if EvenTail a then b else ch '&' :: b

/-- The command in front of the operator in `a && b`. -/
def leading (a : Bytes) : Bytes := if EvenTail a then a else a.dropLast

/-- The level of a sequence is the maximum of the levels of its parts. Between `&&` and an odd run
of ampersands, the parts are those between which the operator is found. -/
theorem risk_of_sequence (a b : CString) :
    ((a.octets ++ ascii ";" ++ b.octets).length ≤ maxAnalysisLen →
      scPolicyCommandRiskLevel (a.octets ++ ascii ";" ++ b.octets) =
        (scPolicyCommandRiskLevel a.octets).max (scPolicyCommandRiskLevel b.octets)) ∧
    ((a.octets ++ ascii "\n" ++ b.octets).length ≤ maxAnalysisLen →
      scPolicyCommandRiskLevel (a.octets ++ ascii "\n" ++ b.octets) =
        (scPolicyCommandRiskLevel a.octets).max (scPolicyCommandRiskLevel b.octets)) ∧
    ((a.octets ++ ascii "&&" ++ b.octets).length ≤ maxAnalysisLen →
      scPolicyCommandRiskLevel (a.octets ++ ascii "&&" ++ b.octets) =
        (scPolicyCommandRiskLevel (leading a.octets)).max
          (scPolicyCommandRiskLevel (followed a.octets b.octets))) := by
  refine ⟨?_, ?_, ?_⟩
  · intro h
    rw [List.append_assoc] at h ⊢
    exact risk_separated (Or.inl rfl) a.octets b.octets h
  · intro h
    rw [List.append_assoc] at h ⊢
    exact risk_separated (Or.inr rfl) a.octets b.octets h
  · intro h
    by_cases heven : EvenTail a.octets
    · rw [leading, followed, if_pos heven, if_pos heven]
      exact risk_and heven b.octets h
    · obtain ⟨u, hu, hueven⟩ := exists_even_of_odd heven
      have hshift : a.octets ++ ascii "&&" ++ b.octets =
          u ++ ascii "&&" ++ ch '&' :: b.octets := by
        rw [hu, List.append_assoc, List.append_assoc, List.append_assoc]
        rfl
      rw [leading, followed, if_neg heven, if_neg heven, hshift, hu, List.dropLast_concat]
      rw [hshift] at h
      exact risk_and hueven _ h

/-- Listing a directory and removing a file, one after the other in each of the three ways. -/
theorem risk_of_sequence_remove :
    scPolicyCommandRiskLevel (ascii "ls" ++ ascii ";" ++ ascii "rm x") =
        (scPolicyCommandRiskLevel (ascii "ls")).max (scPolicyCommandRiskLevel (ascii "rm x")) ∧
      scPolicyCommandRiskLevel (ascii "ls" ++ ascii "\n" ++ ascii "rm x") =
        (scPolicyCommandRiskLevel (ascii "ls")).max (scPolicyCommandRiskLevel (ascii "rm x")) ∧
      scPolicyCommandRiskLevel (ascii "ls" ++ ascii "&&" ++ ascii "rm x") =
        (scPolicyCommandRiskLevel (ascii "ls")).max (scPolicyCommandRiskLevel (ascii "rm x")) := by
  obtain ⟨hsemicolon, hnewline, hand⟩ :=
    risk_of_sequence (CString.ofBytes (ascii "ls")) (CString.ofBytes (ascii "rm x"))
  exact ⟨hsemicolon (by decide), hnewline (by decide), hand (by decide)⟩

/-- Behind three ampersands the high risk of `rm` is not seen. -/
theorem risk_of_sequence_shifted :
    scPolicyCommandRiskLevel (ascii "ls &" ++ ascii "&&" ++ ascii "rm x") = .low ∧
      (scPolicyCommandRiskLevel (ascii "ls &")).max (scPolicyCommandRiskLevel (ascii "rm x")) =
        .high := by
  decide

end SeaClaw.Security
