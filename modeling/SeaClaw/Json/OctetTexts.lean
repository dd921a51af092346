import SeaClaw.Json.NumberText
import SeaClaw.Json.Documents

/-!
# JSON texts over octets

The grammar of RFC 8259 with nesting of any depth and without trailing commas, where any octet
from the space on may stand in a string, whatever the encoding. A scanner with a few modes follows
every such text, which tells the texts that have none of its paths.
-/

namespace SeaClaw.Json

open Lib

/-- Only white space. -/
def Spaces (s : Bytes) : Prop := ∀ b ∈ s, isWs b

/-- What stands between the quotes: an octet for itself, or an escape. -/
inductive StringPart where
  | plain (b : UInt8) (hb : 0x20 ≤ b ∧ b ≠ ch '"' ∧ b ≠ ch '\\')
  | letter (l : Letter)
  | hex (q : Quad)

def StringPart.text : StringPart → Bytes
  | plain b _ => [b]
  | letter l => [ch '\\', l.octet]
  | hex q => ch '\\' :: ch 'u' :: q.text

/-- A text between quotes. -/
def quoted (s : Bytes) : Bytes := ch '"' :: (s ++ [ch '"'])

/-- The text of a string. -/
def OctetString (s : Bytes) : Prop :=
  ∃ ps : List StringPart, s = quoted (ps.flatMap StringPart.text)

/-- The key of a member, with the white space around it. -/
def OctetKey (k : Bytes) : Prop := ∃ a s b, Spaces a ∧ OctetString s ∧ Spaces b ∧ k = a ++ s ++ b

/-- A key and the text of its value. -/
def octetMember (m : Bytes × Bytes) : Bytes := m.1 ++ ch ':' :: m.2

/-- The text of a value. -/
inductive OctetText : Bytes → Prop where
  | spaced {a x b : Bytes} (ha : Spaces a) (hb : Spaces b) (hx : OctetText x) :
    OctetText (a ++ x ++ b)
  | string {s : Bytes} (hs : OctetString s) : OctetText s
  | number (n : NumberText) : OctetText n.text
  | true : OctetText (ascii "true")
  | false : OctetText (ascii "false")
  | null : OctetText (ascii "null")
  | emptyArray {a : Bytes} (ha : Spaces a) : OctetText (ch '[' :: (a ++ [ch ']']))
  | array {xs : List Bytes} (hne : xs ≠ []) (hxs : ∀ x ∈ xs, OctetText x) :
    OctetText (ch '[' :: (commaList xs ++ [ch ']']))
  | emptyObject {a : Bytes} (ha : Spaces a) : OctetText (ch '{' :: (a ++ [ch '}']))
  | object {ms : List (Bytes × Bytes)} (hne : ms ≠ []) (hkeys : ∀ m ∈ ms, OctetKey m.1)
    (hvalues : ∀ m ∈ ms, OctetText m.2) :
    OctetText (ch '{' :: (commaList (ms.map octetMember) ++ [ch '}']))

/-! ## The scanner -/

/-- Where a scanner is in a text. -/
inductive Mode where
  | outside | inside | escape
  | hex (more : ℕ)
  deriving DecidableEq

/-- The octets outside strings. -/
def outsideOctets : Bytes := ascii " \t\n\r[]\x7b\x7d:,0123456789+-.Etruefalsn"

/-- One octet further. -/
def scanStep : Option Mode → UInt8 → Option Mode
  | none, _ => none
  | some .outside, b =>
    if b = ch '"' then some .inside else if b ∈ outsideOctets then some .outside else none
  | some .inside, b =>
    if b = ch '"' then some .outside
    else if b = ch '\\' then some .escape
    else if b < 0x20 then none else some .inside
  | some .escape, b =>
    if b = ch 'u' then some (.hex 3)
    else if b ∈ ascii "\"\\/bfnrt" then some .inside else none
  | some (.hex more), b =>
    if isHexDigit b then some (if more = 0 then .inside else .hex (more - 1)) else none

/-- The mode behind a text. -/
def scan (m : Mode) (s : Bytes) : Option Mode := s.foldl scanStep (some m)

@[simp] theorem scan_nil (m : Mode) : scan m [] = some m := rfl

theorem foldl_scanStep_none (s : Bytes) : s.foldl scanStep none = none := by
  induction s with
  | nil => rfl
  | cons b s ih => exact ih

theorem scan_append (m : Mode) (s t : Bytes) :
    scan m (s ++ t) = (scan m s).bind fun m' => scan m' t := by
  rw [scan, List.foldl_append, ← scan]
  cases scan m s with
  | none => exact foldl_scanStep_none t
  | some m' => rfl

/-- A text behind which the scanner is in the mode it started in. -/
def Neutral (m : Mode) (s : Bytes) : Prop := scan m s = some m

theorem Neutral.append {m : Mode} {s t : Bytes} (hs : Neutral m s) (ht : Neutral m t) :
    Neutral m (s ++ t) := by
  rw [Neutral, scan_append, hs]
  exact ht

theorem Neutral.flatMap {α : Type*} {m : Mode} {f : α → Bytes} {xs : List α}
    (h : ∀ x ∈ xs, Neutral m (f x)) : Neutral m (xs.flatMap f) := by
  induction xs with
  | nil => rfl
  | cons x xs ih =>
    rw [List.flatMap_cons]
    exact (h x List.mem_cons_self).append (ih fun y hy => h y (List.mem_cons_of_mem x hy))

/-- Each octet is one that stands outside strings. -/
theorem neutral_outside {s : Bytes} (h : ∀ b ∈ s, b ∈ outsideOctets) : Neutral .outside s := by
  have hquote : ch '"' ∉ outsideOctets := by decide
  induction s with
  | nil => rfl
  | cons b s ih =>
    have hb := h b List.mem_cons_self
    have hne : b ≠ ch '"' := fun heq => hquote (heq ▸ hb)
    rw [Neutral, scan, List.foldl_cons, scanStep, if_neg hne, if_pos hb]
    exact ih fun c hc => h c (List.mem_cons_of_mem b hc)

theorem scan_hex_succ {b : UInt8} (hb : isHexDigit b = true) (more : ℕ) (s : Bytes) :
    scan (.hex (more + 1)) (b :: s) = scan (.hex more) s := by
  rw [scan, List.foldl_cons, scanStep, if_pos hb, if_neg (Nat.succ_ne_zero more),
    Nat.add_sub_cancel]
  rfl

theorem scan_hex_zero {b : UInt8} (hb : isHexDigit b = true) (s : Bytes) :
    scan (.hex 0) (b :: s) = scan .inside s := by
  rw [scan, List.foldl_cons, scanStep, if_pos hb, if_pos rfl]
  rfl

theorem neutral_part (p : StringPart) : Neutral .inside p.text := by
  cases p with
  | plain b hb =>
    have hlow : ¬ b < 0x20 := UInt8.not_lt.mpr hb.1
    simp only [StringPart.text, Neutral, scan, List.foldl_cons, List.foldl_nil, scanStep, hb.2.1,
      hb.2.2, hlow, if_false]
  | letter l => cases l <;> rfl
  | hex q =>
    have h0 := q.isHex q.h0 (by simp)
    have h1 := q.isHex q.h1 (by simp)
    have h2 := q.isHex q.h2 (by simp)
    have h3 := q.isHex q.h3 (by simp)
    have hopen : scan .inside (ch '\\' :: ch 'u' :: q.text) = scan (.hex 3) q.text := rfl
    rw [StringPart.text, Neutral, hopen, Quad.text, scan_hex_succ h0, scan_hex_succ h1,
      scan_hex_succ h2, scan_hex_zero h3]
    rfl

/-- Between quotes stands what leaves the scanner inside. -/
theorem Neutral.quoted {s : Bytes} (h : Neutral .inside s) : Neutral .outside (quoted s) := by
  have hopen : scan .outside (ch '"' :: (s ++ [ch '"'])) = scan .inside (s ++ [ch '"']) := rfl
  rw [Neutral, Json.quoted, hopen, scan_append, h]
  rfl

theorem OctetString.neutral {s : Bytes} (h : OctetString s) : Neutral .outside s := by
  obtain ⟨ps, rfl⟩ := h
  exact (Neutral.flatMap fun p _ => neutral_part p).quoted

theorem outside_of_isWs : ∀ b, isWs b = true → b ∈ outsideOctets := by decide +kernel

theorem outside_of_isDigit : ∀ b, isDigit b = true → b ∈ outsideOctets := by decide +kernel

theorem Spaces.neutral {s : Bytes} (h : Spaces s) : Neutral .outside s := by
  apply neutral_outside
  intro b hb
  exact outside_of_isWs b (h b hb)

theorem Digits.neutral (ds : Digits) : Neutral .outside ds.octets :=
  neutral_outside fun b hb => outside_of_isDigit b (ds.digits b hb)

theorem NumberText.neutral (n : NumberText) : Neutral .outside n.text := by
  have hsign : Neutral .outside (if n.neg then [ch '-'] else []) := by
    cases n.neg <;> rfl
  have hfrac : Neutral .outside (fracText n.frac) := by
    cases n.frac with
    | none => rfl
    | some ds => exact Neutral.append (s := [ch '.']) rfl ds.neutral
  have hexp : Neutral .outside (expText n.exp) := by
    cases n.exp with
    | none => rfl
    | some e =>
      have hletter : Neutral .outside [if e.upper then ch 'E' else ch 'e'] := by
        cases e.upper <;> rfl
      have hexpSign : Neutral .outside e.sign.text := by
        cases e.sign <;> rfl
      exact hletter.append (hexpSign.append e.digits.neutral)
  exact hsign.append (n.int.neutral.append (hfrac.append hexp))

/-- Texts with commas between them. -/
theorem Neutral.commaList {xs : List Bytes} (h : ∀ x ∈ xs, Neutral .outside x) :
    Neutral .outside (commaList xs) := by
  cases xs with
  | nil => rfl
  | cons x xs =>
    apply (h x List.mem_cons_self).append
    apply Neutral.flatMap
    intro y hy
    exact h y (List.mem_cons_of_mem x hy)

/-- The scanner follows every value and is outside again behind it. -/
theorem OctetText.neutral {x : Bytes} (h : OctetText x) : Neutral .outside x := by
  induction h with
  | spaced ha hb _ ih => exact (ha.neutral.append ih).append hb.neutral
  | string hs => exact hs.neutral
  | number n => exact n.neutral
  | true => rfl
  | false => rfl
  | null => rfl
  | emptyArray ha => exact (ha.neutral.append (show Neutral .outside [ch ']'] from rfl))
  | array _ _ ih =>
    exact ((Neutral.commaList ih).append (show Neutral .outside [ch ']'] from rfl))
  | emptyObject ha => exact (ha.neutral.append (show Neutral .outside [ch '}'] from rfl))
  | @object ms _ hkeys _ ih =>
    have hmembers : Neutral .outside (commaList (ms.map octetMember)) := by
      apply Neutral.commaList
      intro y hy
      obtain ⟨m, hm, rfl⟩ := List.mem_map.mp hy
      obtain ⟨a, s, b, ha, hs, hb, hk⟩ := hkeys m hm
      have hkey := (ha.neutral.append hs.neutral).append hb.neutral
      rw [octetMember, hk]
      exact hkey.append ((show Neutral .outside [ch ':'] from rfl).append (ih m hm))
    exact hmembers.append (show Neutral .outside [ch '}'] from rfl)

/-! ## Texts that the scanner refuses -/

/-- A text in which the scanner may get stuck, but not inside of a string. -/
def Closes (x : Bytes) : Prop := ∀ m, scan .outside x = some m → m = .outside

/-- A text in which the scanner gets stuck. -/
def Stuck (x : Bytes) : Prop := scan .outside x = none

theorem Neutral.closes {x : Bytes} (h : Neutral .outside x) : Closes x := by
  intro m hm
  exact (Option.some.inj (h.symm.trans hm)).symm

theorem Stuck.closes {x : Bytes} (h : Stuck x) : Closes x := by
  intro m hm
  rw [Stuck, hm] at h
  cases h

theorem Stuck.not_octetText {x : Bytes} (h : Stuck x) : ¬ OctetText x := by
  intro hx
  have hneutral := hx.neutral
  rw [Neutral, h] at hneutral
  cases hneutral

theorem Stuck.append_left {x : Bytes} (h : Stuck x) (y : Bytes) : Stuck (x ++ y) := by
  rw [Stuck, scan_append, h, Option.bind_none]

theorem Closes.append {x y : Bytes} (hx : Closes x) (hy : Closes y) : Closes (x ++ y) := by
  intro m hm
  rw [scan_append, Option.bind_eq_some_iff] at hm
  obtain ⟨m', hm', hrest⟩ := hm
  rw [hx m' hm'] at hrest
  exact hy m hrest

theorem Stuck.append_right {x y : Bytes} (hx : Closes x) (hy : Stuck y) : Stuck (x ++ y) := by
  rw [Stuck, scan_append, Option.bind_eq_none_iff]
  intro m hm
  rw [hx m hm]
  exact hy

theorem Closes.flatMap {α : Type*} {f : α → Bytes} {xs : List α} (h : ∀ x ∈ xs, Closes (f x)) :
    Closes (xs.flatMap f) := by
  induction xs with
  | nil => exact Neutral.closes rfl
  | cons x xs ih =>
    rw [List.flatMap_cons]
    exact (h x List.mem_cons_self).append (ih fun y hy => h y (List.mem_cons_of_mem x hy))

theorem Stuck.flatMap {α : Type*} {f : α → Bytes} {xs : List α} (h : ∀ x ∈ xs, Closes (f x))
    {x : α} (hx : x ∈ xs) (hstuck : Stuck (f x)) : Stuck (xs.flatMap f) := by
  obtain ⟨before, after, rfl⟩ := List.append_of_mem hx
  rw [List.flatMap_append, List.flatMap_cons]
  apply Stuck.append_right
  · exact Closes.flatMap fun y hy => h y (List.mem_append_left _ hy)
  · exact hstuck.append_left _

theorem closes_comma {x : Bytes} (h : Closes x) : Closes (ch ',' :: x) :=
  (Neutral.closes (x := [ch ',']) rfl).append h

theorem Closes.commaList {xs : List Bytes} (h : ∀ x ∈ xs, Closes x) : Closes (commaList xs) := by
  cases xs with
  | nil => exact Neutral.closes rfl
  | cons x xs =>
    apply (h x List.mem_cons_self).append
    apply Closes.flatMap
    intro y hy
    exact closes_comma (h y (List.mem_cons_of_mem x hy))

/-- One text that is refused makes the list refused. -/
theorem Stuck.commaList {xs : List Bytes} (h : ∀ x ∈ xs, Closes x) {x : Bytes} (hx : x ∈ xs)
    (hstuck : Stuck x) : Stuck (commaList xs) := by
  cases xs with
  | nil => cases hx
  | cons y ys =>
    rw [Json.commaList]
    rcases List.mem_cons.mp hx with rfl | hmem
    · exact hstuck.append_left _
    · apply Stuck.append_right (h y List.mem_cons_self)
      apply Stuck.flatMap _ hmem
      · exact Stuck.append_right (Neutral.closes (x := [ch ',']) rfl) hstuck
      · intro z hz
        exact closes_comma (h z (List.mem_cons_of_mem y hz))

end SeaClaw.Json
