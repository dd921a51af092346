import SeaClaw.Security.AuditOutcome

/-!
# The text of an audit event

In the text of an event only a cut command and an infinite confidence stand for no value of JSON.
What holds of the texts of numbers, of flags and of the strings of the event, and goes from the
members of an object to the object, holds of the whole text.
-/

namespace SeaClaw.Security

open Lib Json

/-! ## What holds of all values -/

/-- A key that stands for itself between its quotes. -/
def PlainKey (key : String) : Prop := ∀ b ∈ ascii key, 0x20 ≤ b ∧ b ≠ ch '"' ∧ b ≠ ch '\\'

instance (key : String) : Decidable (PlainKey key) := List.decidableBAll _ _

/-- Plain keys, and values with a property. -/
def Entries.Holds (P : Bytes → Prop) (ms : Entries) : Prop := ∀ m ∈ ms, PlainKey m.1 ∧ P m.2

/-- A property of texts that the values of an event have. -/
structure ValueRule (ev : AuditEvent) (t : AuditField → Option Bytes) (P : Bytes → Prop) :
    Prop where
  string : ∀ f, ∀ v ∈ t f, P (quoted v)
  nat : ∀ n, P (fmtNat n)
  int : ∀ i, P (fmtInt i)
  bool : ∀ b, P (boolText b)
  type : ∀ ty, P (quoted (scAuditEventTypeString ty))
  fixed : notNegative ev.confidence → P (fmtFixed2 ev.confidence)
  object : ∀ ms : Entries, ms.Holds P → P ms.object

section Holds

variable {P : Bytes → Prop} {ms ns : Entries}

theorem holds_nil : Entries.Holds P [] := by
  intro m hm
  cases hm

theorem holds_cons {key : String} {value : Bytes} (hkey : PlainKey key) (hvalue : P value)
    (h : ms.Holds P) : Entries.Holds P ((key, value) :: ms) :=
  List.forall_mem_cons.mpr ⟨⟨hkey, hvalue⟩, h⟩

theorem holds_append (hms : ms.Holds P) (hns : ns.Holds P) : Entries.Holds P (ms ++ ns) := by
  intro m hm
  rcases List.mem_append.mp hm with h | h
  · exact hms m h
  · exact hns m h

theorem holds_ite {c : Prop} [Decidable c] {key : String} {value : Bytes} (hkey : PlainKey key)
    (h : c → P value) : Entries.Holds P (if c then [(key, value)] else []) := by
  split_ifs with hc
  · exact holds_cons hkey (h hc) holds_nil
  · exact holds_nil

variable {ev : AuditEvent} {t : AuditField → Option Bytes} (h : ValueRule ev t P)
include h

theorem holds_string {key : String} (hkey : PlainKey key) (f : AuditField) :
    (stringEntry key (t f)).Holds P := by
  intro m hm
  obtain ⟨v, hv, rfl⟩ := List.mem_map.mp hm
  exact ⟨hkey, h.string f v (Option.mem_toList.mp hv)⟩

theorem identityEntries_holds : (identityEntries ev t).Holds P := by
  apply holds_cons (by decide) (h.nat _)
  apply holds_append
  · exact holds_string h (by decide) _
  · exact holds_string h (by decide) _

theorem inputEntries_holds : (inputEntries ev t).Holds P := by
  apply holds_append (holds_append (holds_append _ _) _)
  · exact holds_ite (by decide) fun _ => h.nat _
  · exact holds_string h (by decide) _
  · exact holds_string h (by decide) _
  · exact holds_string h (by decide) _

theorem reasoningEntries_holds : (reasoningEntries ev t).Holds P := by
  apply holds_append (holds_append (holds_append _ _) _)
  · exact holds_ite (by decide) fun _ => h.nat _
  · exact holds_string h (by decide) _
  · exact holds_string h (by decide) _
  · exact holds_ite (by decide) h.fixed

theorem actorEntries_holds : (actorEntries t).Holds P := by
  apply holds_append _ (holds_append _ _)
  · exact holds_string h (by decide) _
  · exact holds_string h (by decide) _
  · exact holds_string h (by decide) _

theorem actionEntries_holds : (actionEntries ev t).Holds P := by
  apply holds_append (holds_append _ _)
  · exact holds_cons (by decide) (h.bool _) (holds_cons (by decide) (h.bool _) holds_nil)
  · exact holds_string h (by decide) _
  · exact holds_string h (by decide) _

theorem resultEntries_holds : (resultEntries ev t).Holds P := by
  apply holds_cons (by decide) (h.bool _)
  apply holds_append (holds_append _ _)
  · exact holds_string h (by decide) _
  · exact holds_ite (by decide) fun _ => h.int _
  · exact holds_ite (by decide) fun _ => h.nat _

theorem securityEntries_holds : (securityEntries ev t).Holds P := by
  apply holds_cons (by decide) (h.bool _)
  apply holds_append
  · exact holds_ite (by decide) fun _ => h.nat _
  · exact holds_string h (by decide) _

theorem headEntries_holds : (headEntries ev).Holds P := by
  apply holds_cons (by decide) (h.int _)
  apply holds_cons (by decide) (h.nat _)
  exact holds_cons (by decide) (h.type _) holds_nil

/-- The property holds of every member of the event, and so of its object. -/
theorem auditEntries_holds : (auditEntries ev t).Holds P := by
  apply holds_append (headEntries_holds h)
  apply holds_append (holds_ite (by decide) fun _ => h.object _ (identityEntries_holds h))
  apply holds_append (holds_ite (by decide) fun _ => h.object _ (inputEntries_holds h))
  apply holds_append (holds_ite (by decide) fun _ => h.object _ (reasoningEntries_holds h))
  apply holds_append (holds_ite (by decide) fun _ => h.object _ (actorEntries_holds h))
  apply holds_append (holds_ite (by decide) fun _ => h.object _ (actionEntries_holds h))
  apply holds_append (holds_ite (by decide) fun _ => h.object _ (resultEntries_holds h))
  exact holds_cons (by decide) (h.object _ (securityEntries_holds h)) holds_nil

end Holds

/-! ## Values of JSON on one line -/

/-- A value on one line. -/
def LineText (x : Bytes) : Prop := OctetText x ∧ ∀ b ∈ x, 0x20 ≤ b

theorem escapeText_plain {s : Bytes} (h : ∀ b ∈ s, 0x20 ≤ b ∧ b ≠ ch '"' ∧ b ≠ ch '\\') :
    escapeText s = s := by
  induction s with
  | nil => rfl
  | cons b s ih =>
    obtain ⟨hlow, hquote, hback⟩ := h b List.mem_cons_self
    have hb : escapeOctet b = [b] := by
      rw [escapeOctet, if_neg (not_or.mpr ⟨hquote, hback⟩), if_neg (UInt8.not_lt.mpr hlow)]
    rw [escapeText_cons, hb, ih fun c hc => h c (List.mem_cons_of_mem b hc), List.singleton_append]

theorem PlainKey.octetString {key : String} (h : PlainKey key) :
    OctetString (quoted (ascii key)) := by
  have hs := octetString_escapeText (ascii key)
  rwa [escapeText_plain h] at hs

/-- Plain keys and values make an object, also without members. -/
theorem octetText_object {ms : Entries} (h : ms.Holds OctetText) : OctetText ms.object := by
  by_cases hnil : ms = []
  · rw [hnil]
    exact OctetText.emptyObject (a := []) fun b hb => absurd hb List.not_mem_nil
  · have hmembers : (ms.map fun m : String × Bytes => (quoted (ascii m.1), m.2)).map octetMember =
        ms.texts := List.map_map
    rw [Entries.object, ← hmembers]
    apply OctetText.object (List.map_eq_nil_iff.not.mpr hnil)
    · intro m' hm'
      obtain ⟨m, hm, rfl⟩ := List.mem_map.mp hm'
      have hs := (h m hm).1.octetString
      exact ⟨[], _, [], by simp [Spaces], hs, by simp [Spaces], by simp⟩
    · intro m' hm'
      obtain ⟨m, hm, rfl⟩ := List.mem_map.mp hm'
      exact (h m hm).2

theorem line_quoted {s : Bytes} (h : ∀ b ∈ s, 0x20 ≤ b) : ∀ b ∈ quoted s, 0x20 ≤ b := by
  intro b hb
  rcases List.mem_cons.mp hb with rfl | hmem
  · decide
  · rcases List.mem_append.mp hmem with hs | hend
    · exact h b hs
    · rw [List.mem_singleton.mp hend]
      decide

theorem line_append {x y : Bytes} (hx : ∀ b ∈ x, 0x20 ≤ b) (hy : ∀ b ∈ y, 0x20 ≤ b) :
    ∀ b ∈ x ++ y, 0x20 ≤ b := by
  intro b hb
  rcases List.mem_append.mp hb with h | h
  · exact hx b h
  · exact hy b h

theorem line_commaList {xs : List Bytes} (h : ∀ x ∈ xs, ∀ b ∈ x, 0x20 ≤ b) :
    ∀ b ∈ commaList xs, 0x20 ≤ b := by
  cases xs with
  | nil =>
    intro b hb
    cases hb
  | cons x xs =>
    apply line_append (h x List.mem_cons_self)
    intro b hb
    obtain ⟨y, hy, hmem⟩ := List.mem_flatMap.mp hb
    rcases List.mem_cons.mp hmem with rfl | hb
    · decide
    · exact h y (List.mem_cons_of_mem x hy) b hb

theorem line_hexDigit : ∀ n, n < 16 → 0x20 ≤ hexDigit n := by decide

theorem line_escapeOctet (b : UInt8) : ∀ c ∈ escapeOctet b, 0x20 ≤ c := by
  rw [escapeOctet]
  split_ifs with hquote hlow
  · rcases hquote with rfl | rfl <;> exact forall_mem_of_all (by decide)
  · have hlt := b.toNat_lt
    have hhigh := line_hexDigit (b.toNat / 16) (by omega)
    have hlow := line_hexDigit (b.toNat % 16) (Nat.mod_lt _ (by decide))
    have hplain : ∀ c ∈ [ch '\\', ch 'u', ch '0'], 0x20 ≤ c := forall_mem_of_all (by decide)
    simp only [List.forall_mem_cons, List.not_mem_nil, false_implies, implies_true,
      and_true] at hplain
    simp only [unicodeEscape, fmtHex4, List.forall_mem_cons, List.not_mem_nil, false_implies,
      implies_true, and_true, hplain, hhigh, hlow]
  · intro c hc
    rw [List.mem_singleton.mp hc]
    exact UInt8.not_lt.mp hlow

theorem lineText_escape (s : Bytes) : LineText (quoted (escapeText s)) := by
  refine ⟨OctetText.string (octetString_escapeText s), line_quoted ?_⟩
  intro c hc
  obtain ⟨b, -, hb⟩ := List.mem_flatMap.mp hc
  exact line_escapeOctet b c hb

theorem lineText_object {ms : Entries} (h : ms.Holds LineText) : LineText ms.object := by
  refine ⟨octetText_object fun m hm => ⟨(h m hm).1, (h m hm).2.1⟩, ?_⟩
  rw [Entries.object]
  apply line_append (x := [ch '{']) (forall_mem_of_all (by decide))
  apply line_append _ (forall_mem_of_all (by decide))
  apply line_commaList
  intro x hx
  obtain ⟨m, hm, rfl⟩ := List.mem_map.mp hx
  obtain ⟨hkey, hvalue⟩ := h m hm
  rw [member, octetMember]
  apply line_append (line_quoted fun b hb => (hkey b hb).1)
  exact line_append (x := [ch ':']) (forall_mem_of_all (by decide)) hvalue.2

theorem line_of_isDigit (b : UInt8) (h : isDigit b = true) : 0x20 ≤ b :=
  UInt8.le_trans (by decide) ((isDigit_iff b).mp h).1

/-- The digits of a number. -/
def natDigits (n : ℕ) : Digits := ⟨fmtNat n, (fmtNat_integerText n).digits,
  (fmtNat_integerText n).nonempty⟩

theorem line_fmtNat (n : ℕ) : ∀ b ∈ fmtNat n, 0x20 ≤ b := by
  intro b hb
  exact line_of_isDigit b ((fmtNat_integerText n).digits b hb)

theorem line_sign (neg : Bool) : ∀ b ∈ if neg then [ch '-'] else [], 0x20 ≤ b := by
  cases neg <;> exact forall_mem_of_all (by decide)

theorem fmtInt_eq (i : ℤ) : fmtInt i =
    (if decide (i < 0) = true then [ch '-'] else []) ++ fmtNat i.natAbs := by
  simp only [fmtInt, decide_eq_true_eq]

theorem lineText_fmtInt (i : ℤ) : LineText (fmtInt i) := by
  constructor
  · have h := OctetText.number ⟨decide (i < 0), natDigits i.natAbs,
      (fmtNat_integerText i.natAbs).leading, none, none⟩
    rw [NumberText.text, NumberText.unsigned, fracText, expText, List.append_nil,
      List.append_nil] at h
    rw [fmtInt_eq]
    exact h
  · rw [fmtInt_eq]
    exact line_append (line_sign _) (line_fmtNat i.natAbs)

theorem lineText_fmtNat (n : ℕ) : LineText (fmtNat n) := lineText_fmtInt n

theorem lineText_boolText (b : Bool) : LineText (boolText b) := by
  cases b with
  | true => exact ⟨OctetText.true, forall_mem_of_all (by decide)⟩
  | false => exact ⟨OctetText.false, forall_mem_of_all (by decide)⟩

theorem lineText_type (ty : AuditEventType) : LineText (quoted (scAuditEventTypeString ty)) := by
  have hplain : ∃ key, scAuditEventTypeString ty = ascii key ∧ PlainKey key := by
    cases ty <;> exact ⟨_, rfl, by decide⟩
  obtain ⟨key, hkey, hplain⟩ := hplain
  have hline := lineText_escape (ascii key)
  rwa [escapeText_plain hplain, ← hkey] at hline

theorem isDigit_fmtPad (w n : ℕ) : ∀ b ∈ fmtPad w n, isDigit b = true := by
  intro b hb
  rcases List.mem_append.mp hb with hzero | hdigit
  · rw [List.eq_of_mem_replicate hzero]
    rfl
  · exact (fmtNat_integerText n).digits b hdigit

theorem fmtPad_ne_nil (w n : ℕ) : fmtPad w n ≠ [] :=
  List.append_ne_nil_of_right_ne_nil _ (fmtNat_integerText n).nonempty

/-- A sign, an integer and two digits behind the point. -/
theorem lineText_fixed (neg : Bool) (whole frac : ℕ) :
    LineText ((if neg then [ch '-'] else []) ++ fmtNat whole ++ ch '.' :: fmtPad 2 frac) := by
  have hdigits := isDigit_fmtPad 2 frac
  constructor
  · have h := OctetText.number ⟨neg, natDigits whole, (fmtNat_integerText whole).leading,
      some ⟨_, hdigits, fmtPad_ne_nil 2 frac⟩, none⟩
    rw [NumberText.text, NumberText.unsigned, fracText, expText, List.append_nil] at h
    rw [List.append_assoc]
    exact h
  · apply line_append (line_append (line_sign neg) (line_fmtNat whole))
    apply line_append (x := [ch '.']) (forall_mem_of_all (by decide))
    intro b hb
    exact line_of_isDigit b (hdigits b hb)

theorem lineText_fmtFixed2 {x : Binary64} (hnat : notNegative x) (hinf : x ≠ .inf false) :
    LineText (fmtFixed2 x) := by
  cases x with
  | inf neg =>
    cases neg with
    | false => exact absurd rfl hinf
    | true => exact absurd hnat Bool.false_ne_true
  | nan neg => exact absurd hnat Bool.false_ne_true
  | finite neg mag grid => exact lineText_fixed neg _ _

/-- Strings that are escaped whole, and a finite confidence. -/
theorem lineText_rule {ev : AuditEvent} {t : AuditField → Option Bytes}
    (hstring : ∀ f, ∀ v ∈ t f, ∃ p, v = escapeText p) (hinf : ev.confidence ≠ .inf false) :
    ValueRule ev t LineText where
  string := by
    intro f v hv
    obtain ⟨p, rfl⟩ := hstring f v hv
    exact lineText_escape p
  nat := lineText_fmtNat
  int := lineText_fmtInt
  bool := lineText_boolText
  type := lineText_type
  fixed := fun hnat => lineText_fmtFixed2 hnat hinf
  object := fun _ h => lineText_object h

/-! ## Values that are none of JSON -/

theorem closes_member {m : String × Bytes} (hkey : PlainKey m.1) (h : Closes m.2) :
    Closes (member m.1 m.2) := by
  rw [member, octetMember]
  apply hkey.octetString.neutral.closes.append
  exact (Neutral.closes (x := [ch ':']) rfl).append h

theorem stuck_member {m : String × Bytes} (hkey : PlainKey m.1) (h : Stuck m.2) :
    Stuck (member m.1 m.2) := by
  rw [member, octetMember]
  apply Stuck.append_right hkey.octetString.neutral.closes
  exact Stuck.append_right (Neutral.closes (x := [ch ':']) rfl) h

theorem closes_texts {ms : Entries} (h : ms.Holds Closes) : ∀ x ∈ ms.texts, Closes x := by
  intro x hx
  obtain ⟨m, hm, rfl⟩ := List.mem_map.mp hx
  exact closes_member (h m hm).1 (h m hm).2

theorem closes_object {ms : Entries} (h : ms.Holds Closes) : Closes ms.object := by
  apply (Neutral.closes (x := [ch '{']) rfl).append
  apply (Closes.commaList (closes_texts h)).append
  exact Neutral.closes rfl

/-- A value in which the scanner gets stuck spoils the object. -/
theorem stuck_object {ms : Entries} (h : ms.Holds Closes) {m : String × Bytes} (hm : m ∈ ms)
    (hstuck : Stuck m.2) : Stuck ms.object := by
  apply Stuck.append_right (Neutral.closes (x := [ch '{']) rfl)
  apply Stuck.append_left
  have hmem : member m.1 m.2 ∈ ms.texts := List.mem_map.mpr ⟨m, hm, rfl⟩
  exact Stuck.commaList (closes_texts h) hmem (stuck_member (h m hm).1 hstuck)

section Values

variable {ev : AuditEvent} {f : AuditField} {v : Bytes}

/-- No escape of the field is cut. -/
def AuditEvent.UncutField (ev : AuditEvent) (f : AuditField) : Prop :=
  ∀ s ∈ ev.string f, Uncut f.cap 0 (f.kept s)

theorem kept_isPrefix (f : AuditField) (s : CString) : f.kept s <+: s.octets := by
  rw [AuditField.kept]
  split_ifs
  · exact List.take_prefix _ _
  · exact List.prefix_rfl

theorem value_uncut (h : ev.UncutField f) (hv : v ∈ ev.value f) :
    ∃ s ∈ ev.string f, EscapedPrefix s.octets v := by
  obtain ⟨s, hs, rfl⟩ := Option.map_eq_some_iff.mp hv
  obtain ⟨p, hp, hloop, -⟩ := @escapeLoop_uncut f.cap (f.kept s) [] (h s hs)
    (by cases f <;> decide)
  refine ⟨s, hs, p, hp.trans (kept_isPrefix f s), ?_⟩
  rw [hloop]
  rfl

/-- A cut value is followed by the quote in the middle of its escape. -/
theorem value_cut (h : ¬ ev.UncutField f) (hv : v ∈ ev.value f) : Stuck (quoted v) := by
  obtain ⟨s, hs, rfl⟩ := Option.map_eq_some_iff.mp hv
  have hcut : ¬ Uncut f.cap 0 (f.kept s) := by
    intro huncut
    apply h
    intro s' hs'
    rwa [← Option.some.inj (hs.symm.trans hs')]
  obtain ⟨p, b, k, hb, hk2, hk5, htext, -⟩ := @escapeLoop_cut f.cap (f.kept s) [] hcut
  rw [htext]
  exact scan_cut p hb hk2 hk5

theorem closes_value (hv : v ∈ ev.value f) : Closes (quoted v) := by
  by_cases h : ev.UncutField f
  · obtain ⟨s, -, p, -, rfl⟩ := value_uncut h hv
    exact (octetString_escapeText p).neutral.closes
  · exact (value_cut h hv).closes

theorem stuck_inf : Stuck (fmtFixed2 (.inf false)) := rfl

theorem LineText.closes {x : Bytes} (h : LineText x) : Closes x := h.1.neutral.closes

/-- The scanner never ends inside of a string of the event, whether one is cut or not. -/
theorem closes_rule (ev : AuditEvent) : ValueRule ev ev.value Closes where
  string := fun _ _ hv => closes_value hv
  nat := fun n => (lineText_fmtNat n).closes
  int := fun i => (lineText_fmtInt i).closes
  bool := fun b => (lineText_boolText b).closes
  type := fun ty => (lineText_type ty).closes
  fixed := by
    intro hnat
    by_cases hinf : ev.confidence = .inf false
    · rw [hinf]
      exact stuck_inf.closes
    · exact (lineText_fmtFixed2 hnat hinf).closes
  object := fun _ h => closes_object h

/-- A cut command spoils the text. -/
theorem stuck_command (h : ¬ ev.UncutField .command) : Stuck (auditEntries ev ev.value).object := by
  obtain ⟨s, hs, -⟩ := not_forall₂.mp h
  have hthere : ev.command.isSome := by
    rw [show ev.command = some s from hs]
    rfl
  have hv : (escapeLoop 512 (keptCommand s) []).1 ∈ ev.value .command :=
    Option.map_eq_some_iff.mpr ⟨s, hs, rfl⟩
  have haction : Stuck (actionEntries ev ev.value).object := by
    apply stuck_object (m := ("command", quoted _)) (actionEntries_holds (closes_rule ev)) _
      (value_cut h hv)
    apply List.mem_append_left
    apply List.mem_append_left
    exact List.mem_map.mpr ⟨_, Option.mem_toList.mpr hv, rfl⟩
  have hmem : ("action", (actionEntries ev ev.value).object) ∈ auditEntries ev ev.value := by
    rw [auditEntries, actionGroup, if_pos (Or.inl hthere)]
    simp only [List.mem_append, List.mem_singleton, or_true, true_or]
  exact stuck_object (auditEntries_holds (closes_rule ev)) hmem haction

/-- So does an infinite confidence. -/
theorem stuck_confidence (h : ev.confidence = .inf false) :
    Stuck (auditEntries ev ev.value).object := by
  have hnat : notNegative ev.confidence := by
    rw [h]
    rfl
  have hreasoning : Stuck (reasoningEntries ev ev.value).object := by
    apply stuck_object (m := ("confidence", fmtFixed2 ev.confidence))
      (reasoningEntries_holds (closes_rule ev))
    · rw [reasoningEntries, if_pos hnat]
      simp only [List.mem_append, List.mem_singleton, or_true, true_or]
    · rw [h]
      exact stuck_inf
  have hmem : ("reasoning", (reasoningEntries ev ev.value).object) ∈ auditEntries ev ev.value := by
    rw [auditEntries, reasoningGroup, if_pos (Or.inr (Or.inr (Or.inl hnat)))]
    simp only [List.mem_append, List.mem_singleton, or_true, true_or]
  exact stuck_object (auditEntries_holds (closes_rule ev)) hmem hreasoning

end Values

/-! ## The claim of the logger -/

/-- A text of the event as it is meant: an object on one line, whose strings are the escapings of
prefixes of the strings of the event. -/
structure WellSerialised (ev : AuditEvent) (text : Bytes) : Prop where
  values : ∃ t : AuditField → Option Bytes,
    (∀ f, Option.Rel (fun s v => EscapedPrefix s.octets v) (ev.string f) (t f)) ∧
      text = (auditEntries ev t).object
  json : OctetText text
  line : ∀ b ∈ text, 0x20 ≤ b
  ends : ascii "\x7d\x7d" <:+ text

theorem uncutField_iff_fits {ev : AuditEvent} {f : AuditField} (hf : f ≠ .command) :
    ev.UncutField f ↔ ev.Fits f := by
  have hkept : ∀ s : CString, f.kept s = s.octets := fun s => if_neg hf
  have hcap : 0 < f.cap := by cases f <;> decide
  constructor
  · intro h s hs
    rw [escapeField_isSome_iff hcap, ← hkept s]
    exact h s hs
  · intro h s hs
    rw [hkept s, ← escapeField_isSome_iff hcap]
    exact h s hs

theorem object_ends (ev : AuditEvent) (t : AuditField → Option Bytes) :
    ascii "\x7d\x7d" <:+ (auditEntries ev t).object := by
  have hend (front : Bytes) : front ++ [ch '}'] ++ [ch '}'] = front ++ ascii "\x7d\x7d" := by
    rw [List.append_assoc]
    rfl
  have hobject : Entries.more [("security", (securityEntries ev t).object)] =
      (openGroup "security" ++ commaList (securityEntries ev t).texts) ++ [ch '}'] := by
    have h := openGroup_object "security" (securityEntries ev t) []
    rw [List.append_nil, ← List.append_assoc] at h
    exact h.symm
  rw [object_auditEntries, hobject, hend]
  exact (List.suffix_append _ _).trans (List.suffix_append _ _)

/-- The values of an event without cut fields. -/
theorem value_rel {ev : AuditEvent} {f : AuditField} (h : ev.UncutField f) :
    Option.Rel (fun s v => EscapedPrefix s.octets v) (ev.string f) (ev.value f) := by
  rw [AuditEvent.value]
  cases hs : ev.string f with
  | none => exact Option.Rel.none
  | some s =>
    apply Option.Rel.some
    have hv : (escapeLoop f.cap (f.kept s) []).1 ∈ ev.value f :=
      Option.map_eq_some_iff.mpr ⟨s, hs, rfl⟩
    obtain ⟨s', hs', hvalue⟩ := value_uncut h hv
    obtain rfl := Option.some.inj (hs.symm.trans hs')
    exact hvalue

/-- The text of an event is right exactly if no control octet of a string, in what is kept of it,
meets a buffer with three to six octets left, and the confidence is not infinite. -/
theorem audit_json_iff (ev : AuditEvent) :
    (∃ text, scAuditEventWriteJson ev auditJsonBufSize = some text ∧ WellSerialised ev text) ↔
      (∀ f, ∀ s ∈ ev.string f, Uncut f.cap 0 (f.kept s)) ∧ ev.confidence ≠ .inf false := by
  constructor
  · rintro ⟨text, hwrite, hwell⟩
    have hfits : ∀ f, f ≠ .command → ev.Fits f := by
      by_contra hcut
      rw [writeJson_none hcut] at hwrite
      cases hwrite
    rw [writeJson_some hfits, Option.some.injEq] at hwrite
    have hjson := hwell.json
    rw [← hwrite] at hjson
    constructor
    · intro f
      by_cases hf : f = .command
      · rw [hf]
        by_contra hcut
        exact (stuck_command hcut).not_octetText hjson
      · exact (uncutField_iff_fits hf).mpr (hfits f hf)
    · intro hinf
      exact (stuck_confidence hinf).not_octetText hjson
  · rintro ⟨huncut, hinf⟩
    have hfits : ∀ f, f ≠ .command → ev.Fits f := fun f hf =>
      (uncutField_iff_fits hf).mp (huncut f)
    have hstring : ∀ f, ∀ v ∈ ev.value f, ∃ p, v = escapeText p := by
      intro f v hv
      obtain ⟨s, -, p, -, hp⟩ := value_uncut (huncut f) hv
      exact ⟨p, hp⟩
    obtain ⟨hjson, hline⟩ := lineText_object (auditEntries_holds (lineText_rule hstring hinf))
    exact ⟨_, writeJson_some hfits, ⟨ev.value, fun f => value_rel (huncut f), rfl⟩, hjson, hline,
      object_ends ev ev.value⟩

theorem script_noNul : 0 ∉ List.replicate 84 (ch '\n') ++ [ch 'l', ch 's', ch '\n'] := by decide

theorem natAbs_neg_one_lt : (-1 : ℤ).natAbs < 2 ^ 53 := by decide

/-- A command of many lines, and no confidence. -/
def scriptEvent : AuditEvent where
  timestamp := 0
  eventId := 1
  eventType := .commandExecution
  channel := none
  userId := none
  username := none
  command := some ⟨_, script_noNul⟩
  riskLevel := none
  approved := false
  allowed := false
  success := true
  exitCode := 0
  durationMs := 0
  errMsg := none
  policyViolation := false
  rateLimitRemaining := 0
  sandboxBackend := none
  agentId := 0
  modelVersion := none
  authTokenHash := none
  triggerType := none
  triggerSource := none
  promptHash := none
  promptLength := 0
  decision := none
  ruleName := none
  confidence := .ofInt (-1) natAbs_neg_one_lt
  contextTokens := 0

/-- The escape of the last newline of the command is cut. -/
theorem scriptEvent_cut : ¬ scriptEvent.UncutField .command := by
  intro h
  have hcut := h _ rfl (List.replicate 84 (ch '\n') ++ [ch 'l', ch 's']) (ch '\n') [] rfl
    (by decide) (by decide +kernel)
  exact absurd hcut (by decide +kernel)

theorem audit_json_script :
    ¬ ∃ text, scAuditEventWriteJson scriptEvent auditJsonBufSize = some text ∧
      WellSerialised scriptEvent text := by
  rintro ⟨text, hwrite, hwell⟩
  have hfits : ∀ f, f ≠ .command → scriptEvent.Fits f := by
    intro f hf s hs
    cases f <;> first | exact absurd rfl hf | cases hs
  rw [writeJson_some hfits, Option.some.injEq] at hwrite
  have hjson := hwell.json
  rw [← hwrite] at hjson
  exact (stuck_command scriptEvent_cut).not_octetText hjson

end SeaClaw.Security
