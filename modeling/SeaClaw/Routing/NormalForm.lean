import SeaClaw.Routing.AgentRouting

/-!
# The normal form of a name

`sc_agent_routing_normalize_id` fills the buffer with the octets of the name, cuts the dashes off at
both ends and stores a terminator behind what is left. The terminator is outside the buffer when the
buffer is full and its last octet is no dash; and the fallback for a name of which nothing is left
is longer than a small buffer.
-/

namespace SeaClaw.Routing

open Lib
open Providers (isAlnum)

/-! ## Octets -/

/-- The octets of a normal form. -/
def LowerOctet (c : UInt8) : Prop :=
  isDigit c = true ∨ (ch 'a' ≤ c ∧ c ≤ ch 'z') ∨ c = ch '-'

instance (c : UInt8) : Decidable (LowerOctet c) :=
  inferInstanceAs (Decidable (_ ∨ _ ∨ _))

theorem isAlnum_iff (c : UInt8) :
    isAlnum c = true ↔ isDigit c = true ∨ ch 'a' ≤ toLower c ∧ toLower c ≤ ch 'z' := by
  rw [isAlnum, Bool.or_eq_true, Bool.and_eq_true, decide_eq_true_eq, decide_eq_true_eq]

theorem toLower_of_isDigit {c : UInt8} (h : isDigit c = true) : toLower c = c := by
  rw [isDigit_iff] at h
  rw [toLower, if_neg]
  rintro ⟨hle, -⟩
  exact absurd (UInt8.le_trans hle h.2) (by decide)

theorem toLower_of_letter {c : UInt8} (h : ch 'a' ≤ c) : toLower c = c := by
  rw [toLower, if_neg]
  rintro ⟨-, hle⟩
  exact absurd (UInt8.le_trans h hle) (by decide)

theorem normOctet_eq_dash_iff (c : UInt8) : normOctet c = ch '-' ↔ ¬ isAlnum c := by
  rw [normOctet]
  split_ifs with h
  · refine iff_of_false ?_ (not_not.mpr h)
    intro hdash
    rcases (isAlnum_iff c).mp h with hdigit | ⟨hletter, -⟩
    · rw [toLower_of_isDigit hdigit] at hdash
      rw [hdash] at hdigit
      exact absurd hdigit (by decide)
    · rw [hdash] at hletter
      exact absurd hletter (by decide)
  · exact iff_of_true rfl h

theorem lowerOctet_normOctet (c : UInt8) : LowerOctet (normOctet c) := by
  rw [normOctet]
  split_ifs with h
  · rcases (isAlnum_iff c).mp h with hdigit | hletter
    · rw [toLower_of_isDigit hdigit]
      exact Or.inl hdigit
    · exact Or.inr (Or.inl hletter)
  · exact Or.inr (Or.inr rfl)

/-- The octets of a normal form stay. -/
theorem normOctet_of_lowerOctet {c : UInt8} (h : LowerOctet c) : normOctet c = c := by
  rcases h with hdigit | ⟨hle, hge⟩ | rfl
  · rw [normOctet, if_pos ((isAlnum_iff c).mpr (Or.inl hdigit)), toLower_of_isDigit hdigit]
  · have hlow := toLower_of_letter hle
    rw [normOctet, if_pos ((isAlnum_iff c).mpr (Or.inr ?_)), hlow]
    rw [hlow]
    exact ⟨hle, hge⟩
  · decide

/-! ## What is left -/

/-- Nothing is left between the dashes only if there is nothing else. -/
theorem between_eq_nil_iff {α : Type*} (p : α → Bool) (s : List α) :
    (s.dropWhile p).rdropWhile p = [] ↔ ∀ x ∈ s, p x := by
  rw [List.rdropWhile_eq_nil_iff]
  constructor
  · intro h
    have hnil : (s.dropWhile p).dropWhile p = [] := List.dropWhile_eq_nil_iff.mpr h
    rw [List.dropWhile_idempotent] at hnil
    exact List.dropWhile_eq_nil_iff.mp hnil
  · intro h x hx
    exact h x ((List.dropWhile_suffix p).subset hx)

/-- What fits into a buffer, octet by octet in its normal form. -/
def normalOctets (size : ℕ) (s : Bytes) : Bytes := (s.take size).map normOctet

/-- What is left when the dashes at the end are cut off. -/
def keptOctets (size : ℕ) (s : Bytes) : Bytes := (normalOctets size s).rdropWhile (· = ch '-')

/-- What is left when the dashes at both ends are cut off. -/
def normalText (size : ℕ) (s : Bytes) : Bytes :=
  ((normalOctets size s).dropWhile (· = ch '-')).rdropWhile (· = ch '-')

theorem normalText_eq_nil_iff (size : ℕ) (s : Bytes) :
    normalText size s = [] ↔ ∀ c ∈ s.take size, ¬ isAlnum c := by
  rw [normalText, between_eq_nil_iff, normalOctets, List.forall_mem_map]
  simp only [decide_eq_true_eq, normOctet_eq_dash_iff]

/-- The buffer is not full exactly if its last octet is not taken by a letter or a digit. -/
theorem length_keptOctets_lt_iff {size : ℕ} (hsize : 0 < size) (s : Bytes) :
    (keptOctets size s).length < size ↔ ∀ c, s[size - 1]? = some c → ¬ isAlnum c := by
  rw [keptOctets, normalOctets]
  by_cases hlen : s.length < size
  · have hnone : s[size - 1]? = none := by
      rw [List.getElem?_eq_none_iff]
      omega
    refine iff_of_true ?_ ?_
    · apply ((List.rdropWhile_prefix _ _).length_le).trans_lt
      rw [List.length_map, List.length_take]
      omega
    · intro c hc
      rw [hnone] at hc
      cases hc
  · have hpos : size - 1 < s.length := by omega
    obtain ⟨c, hc⟩ : ∃ c, s[size - 1]? = some c := ⟨_, List.getElem?_eq_getElem hpos⟩
    have hfront : s.take size = s.take (size - 1) ++ [c] := by
      have htake := @List.take_add_one _ s (size - 1)
      rw [hc, Nat.sub_add_cancel hsize] at htake
      exact htake
    simp only [hc, Option.some.injEq, forall_eq']
    rw [hfront, List.map_append, List.map_singleton]
    by_cases halnum : isAlnum c
    · have hkept : ¬ (decide (normOctet c = ch '-') = true) := by
        rw [decide_eq_true_eq, normOctet_eq_dash_iff, not_not]
        exact halnum
      refine iff_of_false ?_ (not_not.mpr halnum)
      rw [List.rdropWhile_concat_neg (fun x => decide (x = ch '-')) _ _ hkept, List.length_append,
        List.length_map, List.length_take_of_le hpos.le, List.length_singleton]
      omega
    · have hdash : decide (normOctet c = ch '-') = true := by
        rw [decide_eq_true_eq, normOctet_eq_dash_iff]
        exact halnum
      refine iff_of_true ?_ halnum
      rw [List.rdropWhile_concat_pos (fun x => decide (x = ch '-')) _ _ hdash]
      apply ((List.rdropWhile_prefix _ _).length_le).trans_lt
      rw [List.length_map, List.length_take_of_le hpos.le]
      omega

/-! ## The call -/

/-- What a call does: the places of the buffer where it writes, and the string that it returns if
the terminator is inside the buffer. -/
structure Normalized where
  places : List ℕ
  text : Bytes

/-- The constant that is returned for a name of which nothing is left. -/
def defaultId : Bytes := ascii "default"

/-- `sc_agent_routing_normalize_id` of counted octets. -/
def normalizeId (bufSize : ℕ) (input : Option Bytes) : Normalized :=
  match input with
  | none => ⟨[], defaultId⟩
  | some s =>
    if bufSize = 0 ∨ s = [] then ⟨[], defaultId⟩
    else if normalText bufSize s = [] then
      ⟨List.range (normalOctets bufSize s).length, defaultId⟩
    else
      ⟨List.range (normalOctets bufSize s).length ++ [(keptOctets bufSize s).length],
        normalText bufSize s⟩

/-- The call writes inside the buffer. -/
def WritesInside (bufSize : ℕ) (input : Option Bytes) : Prop :=
  ∀ i ∈ (normalizeId bufSize input).places, i < bufSize

/-- The call writes inside the buffer, what it returns is in normal form, and a call with that and
a buffer no smaller returns it again. -/
structure NormalizesWell (bufSize : ℕ) (input : Option Bytes) : Prop where
  inside : WritesInside bufSize input
  lower : ∀ c ∈ (normalizeId bufSize input).text, LowerOctet c
  nonempty : (normalizeId bufSize input).text ≠ []
  starts : (normalizeId bufSize input).text.head? ≠ some (ch '-')
  ends : (normalizeId bufSize input).text.getLast? ≠ some (ch '-')
  again : ∀ size, bufSize ≤ size →
    WritesInside size (some (normalizeId bufSize input).text) ∧
      (normalizeId size (some (normalizeId bufSize input).text)).text =
        (normalizeId bufSize input).text

/-- With a letter or a digit in the part that fits, there is none at the end of the buffer; without
one, the buffer is large enough for the fallback. -/
def NormalFormFits (bufSize : ℕ) (input : Option Bytes) : Prop :=
  if ∃ c ∈ (input.getD []).take bufSize, isAlnum c = true then
    ∀ c, (input.getD [])[bufSize - 1]? = some c → ¬ isAlnum c
  else defaultId.length < bufSize

/-- The model of the routes is the call on a string. -/
theorem scAgentRoutingNormalizeId_eq {bufSize : ℕ} (hsize : 0 < bufSize)
    (input : Option CString) : scAgentRoutingNormalizeId bufSize input =
      if ∀ i ∈ (normalizeId bufSize (input.map CString.octets)).places, i < bufSize then
        some (normalizeId bufSize (input.map CString.octets)).text
      else none := by
  have hrange : ∀ s, ∀ i ∈ List.range (normalOctets bufSize s).length, i < bufSize := by
    intro s i hi
    have hle : (normalOctets bufSize s).length ≤ bufSize := by
      rw [normalOctets, List.length_map]
      exact List.length_take_le _ _
    exact (List.mem_range.mp hi).trans_le hle
  cases input with
  | none =>
    rw [Option.map_none, if_pos]
    · rfl
    · intro i hi
      exact absurd hi List.not_mem_nil
  | some input =>
    rw [Option.map_some]
    have hmodel : scAgentRoutingNormalizeId bufSize (some input) =
        if normalText bufSize input.octets = [] then some defaultId
        else if (keptOctets bufSize input.octets).length < bufSize then
          some (normalText bufSize input.octets)
        else none := rfl
    rw [hmodel, normalizeId]
    by_cases hnil : input.octets = []
    · have htext : normalText bufSize input.octets = [] := by
        rw [normalText_eq_nil_iff, hnil, List.take_nil]
        intro c hc
        exact absurd hc List.not_mem_nil
      rw [if_pos htext, if_pos (Or.inr hnil), if_pos]
      intro i hi
      exact absurd hi List.not_mem_nil
    · rw [if_neg (not_or.mpr ⟨hsize.ne', hnil⟩)]
      by_cases htext : normalText bufSize input.octets = []
      · rw [if_pos htext, if_pos htext, if_pos (hrange _)]
      · rw [if_neg htext, if_neg htext]
        by_cases hkept : (keptOctets bufSize input.octets).length < bufSize
        · rw [if_pos hkept, if_pos]
          intro i hi
          rcases List.mem_append.mp hi with hi | hi
          · exact hrange _ i hi
          · rw [List.mem_singleton.mp hi]
            exact hkept
        · rw [if_neg hkept, if_neg]
          intro hall
          exact hkept (hall _ (List.mem_append_right _ List.mem_cons_self))

/-! ## Normal forms -/

/-- A normal form: lower-case letters, digits and dashes, with no dash at either end. -/
structure IsNormal (t : Bytes) : Prop where
  lower : ∀ c ∈ t, LowerOctet c
  nonempty : t ≠ []
  starts : t.head? ≠ some (ch '-')
  ends : t.getLast? ≠ some (ch '-')

theorem isNormal_defaultId : IsNormal defaultId where
  lower := forall_mem_of_all (by decide)
  nonempty := by decide
  starts := by decide
  ends := by decide

/-- What is left is a normal form. -/
theorem isNormal_normalText {size : ℕ} {s : Bytes} (h : normalText size s ≠ []) :
    IsNormal (normalText size s) := by
  have hstart : normalText size s <+: (normalOctets size s).dropWhile (· = ch '-') :=
    List.rdropWhile_prefix _ _
  refine ⟨?_, h, ?_, ?_⟩
  · intro c hc
    have hmem := (List.dropWhile_suffix _).subset (hstart.subset hc)
    obtain ⟨d, -, rfl⟩ := List.mem_map.mp hmem
    exact lowerOctet_normOctet d
  · intro hdash
    obtain ⟨rest, hrest⟩ := hstart
    have hnot := List.head?_dropWhile_not (fun c : UInt8 => decide (c = ch '-'))
      (normalOctets size s)
    rw [← hrest, List.head?_append_of_ne_nil _ h, hdash] at hnot
    simp at hnot
  · intro hdash
    have hnot := List.rdropWhile_last_not (fun c : UInt8 => decide (c = ch '-'))
      ((normalOctets size s).dropWhile (· = ch '-')) h
    rw [List.getLast?_eq_some_getLast h] at hdash
    rw [decide_eq_true_eq] at hnot
    exact hnot (Option.some.inj hdash)

/-- Cutting at the front only makes it shorter. -/
theorem length_normalText_le {size : ℕ} {s : Bytes} (h : normalText size s ≠ []) :
    (normalText size s).length ≤ (keptOctets size s).length := by
  obtain ⟨front, hfront⟩ := List.dropWhile_suffix (l := normalOctets size s) (· = ch '-')
  have hback : ((normalOctets size s).dropWhile (· = ch '-')).reverse.dropWhile (· = ch '-') ≠
      [] := by
    intro hnil
    apply h
    rw [normalText, List.rdropWhile, hnil, List.reverse_nil]
  have hkept : keptOctets size s = front ++ normalText size s := by
    rw [keptOctets, ← hfront, List.rdropWhile, List.reverse_append, List.dropWhile_append,
      if_neg (by simpa using hback), List.reverse_append, List.reverse_reverse, normalText,
      List.rdropWhile]
  rw [hkept, List.length_append]
  exact Nat.le_add_left _ _

/-- A normal form that is shorter than the buffer stays. -/
theorem IsNormal.stays {t : Bytes} (h : IsNormal t) {size : ℕ} (hlen : t.length < size) :
    WritesInside size (some t) ∧ (normalizeId size (some t)).text = t := by
  have hoctets : normalOctets size t = t := by
    rw [normalOctets, List.take_of_length_le hlen.le]
    conv_rhs => rw [← List.map_id t]
    apply List.map_congr_left
    intro c hc
    exact normOctet_of_lowerOctet (h.lower c hc)
  have hkept : t.rdropWhile (· = ch '-') = t := by
    rw [List.rdropWhile_eq_self_iff]
    intro hne
    rw [decide_eq_true_eq]
    intro hdash
    exact h.ends (by rw [List.getLast?_eq_some_getLast hne, hdash])
  have hfront : t.dropWhile (· = ch '-') = t := by
    rw [List.dropWhile_eq_self_iff]
    intro hpos
    rw [decide_eq_true_eq]
    intro hdash
    exact h.starts (by rw [List.head?_eq_getElem?, List.getElem?_eq_getElem hpos, hdash])
  have htext : normalText size t = t := by
    rw [normalText, hoctets, hfront, hkept]
  have hcall : normalizeId size (some t) = ⟨List.range t.length ++ [t.length], t⟩ := by
    rw [normalizeId, if_neg (not_or.mpr ⟨by omega, h.nonempty⟩), htext, if_neg h.nonempty,
      keptOctets, hoctets, hkept]
  rw [WritesInside, hcall]
  refine ⟨?_, rfl⟩
  intro i hi
  rcases List.mem_append.mp hi with hi | hi
  · exact (List.mem_range.mp hi).trans hlen
  · rw [List.mem_singleton.mp hi]
    exact hlen

/-- A normal form of letters and digits alone is stored with a terminator, so the buffer has to be
larger. -/
theorem length_lt_of_inside {t : Bytes} (halnum : ∀ c ∈ t, isAlnum c = true) (hne : t ≠ []) {size : ℕ}
    (hsize : 0 < size) (h : WritesInside size (some t)) : t.length < size := by
  by_contra hlen
  obtain ⟨c, hc⟩ : ∃ c, t[size - 1]? = some c :=
    ⟨_, List.getElem?_eq_getElem (show size - 1 < t.length by omega)⟩
  have hmem := List.mem_of_getElem? hc
  have hfull : ¬ (keptOctets size t).length < size := by
    rw [length_keptOctets_lt_iff hsize]
    intro hall
    exact hall c hc (halnum c hmem)
  have htext : normalText size t ≠ [] := by
    rw [Ne, normalText_eq_nil_iff]
    intro hall
    cases t with
    | nil => exact hne rfl
    | cons d t =>
      refine hall d ?_ (halnum d List.mem_cons_self)
      rw [List.take_cons hsize]
      exact List.mem_cons_self
  rw [WritesInside, normalizeId, if_neg (not_or.mpr ⟨hsize.ne', hne⟩), if_neg htext] at h
  exact hfull (h _ (List.mem_append_right _ List.mem_cons_self))

/-- Where the fallback is returned, all is well exactly if the buffer has room for it. -/
theorem normalizesWell_of_default {bufSize : ℕ} (hsize : 0 < bufSize) {input : Option Bytes}
    (hinside : WritesInside bufSize input) (htext : (normalizeId bufSize input).text = defaultId) :
    NormalizesWell bufSize input ↔ defaultId.length < bufSize := by
  have hnormal := isNormal_defaultId
  constructor
  · intro h
    have hagain := (h.again bufSize le_rfl).1
    rw [htext] at hagain
    exact length_lt_of_inside (forall_mem_of_all (by decide)) (by decide) hsize hagain
  · intro hroom
    refine ⟨hinside, ?_, ?_, ?_, ?_, ?_⟩
    · rw [htext]
      exact hnormal.lower
    · rw [htext]
      exact hnormal.nonempty
    · rw [htext]
      exact hnormal.starts
    · rw [htext]
      exact hnormal.ends
    · intro size hle
      rw [htext]
      exact hnormal.stays (hroom.trans_le hle)

/-- A call writes inside the buffer and returns a normal form, which another call returns again, if
and only if the terminator fits behind the name, or the fallback into the buffer. -/
theorem normalizeId_well_iff {bufSize : ℕ} (hsize : 1 ≤ bufSize) (input : Option Bytes) :
    NormalizesWell bufSize input ↔ NormalFormFits bufSize input := by
  cases input with
  | none =>
    rw [NormalFormFits, if_neg (by simp)]
    apply normalizesWell_of_default hsize _ rfl
    intro i hi
    exact absurd hi List.not_mem_nil
  | some s =>
    rw [NormalFormFits, Option.getD_some]
    by_cases hnil : s = []
    · rw [if_neg (by simp [hnil])]
      have hcall : normalizeId bufSize (some s) = ⟨[], defaultId⟩ := by
        rw [normalizeId, if_pos (Or.inr hnil)]
      apply normalizesWell_of_default hsize
      · rw [WritesInside, hcall]
        intro i hi
        exact absurd hi List.not_mem_nil
      · rw [hcall]
    · have hrange : ∀ i ∈ List.range (normalOctets bufSize s).length, i < bufSize := by
        intro i hi
        have hle : (normalOctets bufSize s).length ≤ bufSize := by
          rw [normalOctets, List.length_map]
          exact List.length_take_le _ _
        exact (List.mem_range.mp hi).trans_le hle
      have hargs : ¬ (bufSize = 0 ∨ s = []) := not_or.mpr ⟨by omega, hnil⟩
      by_cases htext : normalText bufSize s = []
      · have hnone : ¬ ∃ c ∈ s.take bufSize, isAlnum c = true := by
          rw [normalText_eq_nil_iff] at htext
          rintro ⟨c, hc, halnum⟩
          exact htext c hc halnum
        have hcall : normalizeId bufSize (some s) =
            ⟨List.range (normalOctets bufSize s).length, defaultId⟩ := by
          rw [normalizeId, if_neg hargs, if_pos htext]
        rw [if_neg hnone]
        apply normalizesWell_of_default hsize
        · rw [WritesInside, hcall]
          exact hrange
        · rw [hcall]
      · have hsome : ∃ c ∈ s.take bufSize, isAlnum c = true := by
          rw [normalText_eq_nil_iff] at htext
          by_contra hnone
          exact htext fun c hc halnum => hnone ⟨c, hc, halnum⟩
        have hcall : normalizeId bufSize (some s) =
            ⟨List.range (normalOctets bufSize s).length ++ [(keptOctets bufSize s).length],
              normalText bufSize s⟩ := by
          rw [normalizeId, if_neg hargs, if_neg htext]
        rw [if_pos hsome, ← length_keptOctets_lt_iff hsize]
        constructor
        · intro h
          have hinside := h.inside
          rw [WritesInside, hcall] at hinside
          exact hinside _ (List.mem_append_right _ List.mem_cons_self)
        · intro hroom
          have hnormal := isNormal_normalText htext
          have htextEq : (normalizeId bufSize (some s)).text = normalText bufSize s := by
            rw [hcall]
          refine ⟨?_, ?_, ?_, ?_, ?_, ?_⟩
          · rw [WritesInside, hcall]
            intro i hi
            rcases List.mem_append.mp hi with hi | hi
            · exact hrange i hi
            · rw [List.mem_singleton.mp hi]
              exact hroom
          · rw [htextEq]
            exact hnormal.lower
          · rw [htextEq]
            exact hnormal.nonempty
          · rw [htextEq]
            exact hnormal.starts
          · rw [htextEq]
            exact hnormal.ends
          · intro size hle
            rw [htextEq]
            exact hnormal.stays (by
              have hlen := length_normalText_le htext
              omega)

/-- A name that is cut in its middle, at a dash. -/
theorem normalizeId_well_cut :
    NormalizesWell 4 (some (ascii "abc def")) ↔ NormalFormFits 4 (some (ascii "abc def")) :=
  normalizeId_well_iff (by decide) _

/-- A name of 64 letters fills the buffer of the session keys, and its terminator is stored behind
it. -/
theorem normalizeId_full_buffer : ¬ NormalizesWell normBuf (some (List.replicate 64 (ch 'a'))) := by
  intro h
  have hinside := h.inside
  have hlen := length_lt_of_inside (t := List.replicate 64 (ch 'a')) (by
    intro c hc
    rw [List.eq_of_mem_replicate hc]
    decide) (by simp) (by decide) hinside
  rw [List.length_replicate] at hlen
  exact absurd hlen (by decide)

end SeaClaw.Routing
