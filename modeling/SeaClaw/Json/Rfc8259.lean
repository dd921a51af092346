import SeaClaw.Json.NumberText
import SeaClaw.Json.StringDecode

/-!
# JSON texts

The grammar of RFC 8259 with a trailing comma allowed before a closing bracket or brace, and
with at most `JSON_MAX_DEPTH` levels. What numbers and strings are is a parameter: a
relation between a text that one starts and what it leaves.
-/

namespace SeaClaw.Json

open Lib

variable (num str : Bytes → Bytes → Prop)

mutual
/-- A value at the front of `s` at nesting level `d`, leaving `rest`. A string is related to
the text behind its opening quote. -/
inductive TextValue : ℕ → Bytes → Bytes → Prop where
  | string {d s u rest} (hs : dropWs s = ch '"' :: u) (hl : str u rest) : TextValue d s rest
  | number {d s b u rest} (hs : dropWs s = b :: u) (hb : startsNumber b)
      (hn : num (b :: u) rest) : TextValue d s rest
  | true {d s rest} (hs : dropWs s = ascii "true" ++ rest) : TextValue d s rest
  | false {d s rest} (hs : dropWs s = ascii "false" ++ rest) : TextValue d s rest
  | null {d s rest} (hs : dropWs s = ascii "null" ++ rest) : TextValue d s rest
  | emptyArray {d s u rest} (hs : dropWs s = ch '[' :: u) (hd : d < jsonMaxDepth)
      (hu : dropWs u = ch ']' :: rest) : TextValue d s rest
  | array {d s u rest} (hs : dropWs s = ch '[' :: u) (hd : d < jsonMaxDepth)
      (hu : (dropWs u).head? ≠ some (ch ']')) (hi : TextItems (d + 1) (dropWs u) rest) :
      TextValue d s rest
  | emptyObject {d s u rest} (hs : dropWs s = ch '{' :: u) (hd : d < jsonMaxDepth)
      (hu : dropWs u = ch '}' :: rest) : TextValue d s rest
  | object {d s u rest} (hs : dropWs s = ch '{' :: u) (hd : d < jsonMaxDepth)
      (hu : (dropWs u).head? ≠ some (ch '}')) (hm : TextMembers (d + 1) (dropWs u) rest) :
      TextValue d s rest

/-- The elements of an array and its closing bracket. -/
inductive TextItems : ℕ → Bytes → Bytes → Prop where
  | last {d s u rest} (hv : TextValue d s u) (hu : dropWs u = ch ']' :: rest) :
      TextItems d s rest
  | trailing {d s u w rest} (hv : TextValue d s u) (hu : dropWs u = ch ',' :: w)
      (hw : dropWs w = ch ']' :: rest) : TextItems d s rest
  | cons {d s u w rest} (hv : TextValue d s u) (hu : dropWs u = ch ',' :: w)
      (hw : (dropWs w).head? ≠ some (ch ']')) (hvs : TextItems d (dropWs w) rest) :
      TextItems d s rest

/-- The members of an object and its closing brace, which may follow a comma. -/
inductive TextMembers : ℕ → Bytes → Bytes → Prop where
  | close {d s rest} (hs : dropWs s = ch '}' :: rest) : TextMembers d s rest
  | last {d s u r w x rest} (hs : dropWs s = ch '"' :: u) (hk : str u r)
      (hr : dropWs r = ch ':' :: w) (hv : TextValue d w x) (hx : dropWs x = ch '}' :: rest) :
      TextMembers d s rest
  | cons {d s u r w x y rest} (hs : dropWs s = ch '"' :: u) (hk : str u r)
      (hr : dropWs r = ch ':' :: w) (hv : TextValue d w x) (hx : dropWs x = ch ',' :: y)
      (hms : TextMembers d y rest) : TextMembers d s rest
end

/-! ## Numbers and strings of the RFC -/

/-- A number of the RFC and what follows it. -/
def RfcNumber (u rest : Bytes) : Prop := ∃ n : NumberText, u = n.text ++ rest

/-- What spells a character, or half of one, between the quotes: the UTF-8 of an unescaped
character, or an escape. -/
inductive StringUnit where
  | raw (c : Char) (hc : 0x20 ≤ c.toNat ∧ c ≠ '"' ∧ c ≠ '\\')
  | letter (l : Letter)
  | hex (q : Quad)

def StringUnit.text : StringUnit → Bytes
  | raw c _ => String.utf8EncodeChar c
  | letter l => [ch '\\', l.octet]
  | hex q => ch '\\' :: ch 'u' :: q.text

/-- A string of the RFC behind its opening quote, and what follows it. -/
def RfcString (u rest : Bytes) : Prop :=
  ∃ ps : List StringUnit, u = ps.flatMap StringUnit.text ++ ch '"' :: rest

/-- Only white space. -/
def Blank (s : Bytes) : Prop := dropWs s = []

/-- The octets are a JSON text with at most `JSON_MAX_DEPTH` levels, up to trailing commas. -/
def JsonText (s : Bytes) : Prop := ∃ rest, TextValue RfcNumber RfcString 0 s rest ∧ Blank rest

/-! ## Other numbers and strings -/

variable {num str} {num' str' : Bytes → Bytes → Prop}

mutual
theorem TextValue.mono (hnum : ∀ u r, num u r → num' u r) (hstr : ∀ u r, str u r → str' u r)
    {d : ℕ} {s rest : Bytes} : TextValue num str d s rest → TextValue num' str' d s rest
  | .string hs hl => .string hs (hstr _ _ hl)
  | .number hs hb hn => .number hs hb (hnum _ _ hn)
  | .true hs => .true hs
  | .false hs => .false hs
  | .null hs => .null hs
  | .emptyArray hs hd hu => .emptyArray hs hd hu
  | .array hs hd hu hi => .array hs hd hu (hi.mono hnum hstr)
  | .emptyObject hs hd hu => .emptyObject hs hd hu
  | .object hs hd hu hm => .object hs hd hu (hm.mono hnum hstr)

theorem TextItems.mono (hnum : ∀ u r, num u r → num' u r) (hstr : ∀ u r, str u r → str' u r)
    {d : ℕ} {s rest : Bytes} : TextItems num str d s rest → TextItems num' str' d s rest
  | .last hv hu => .last (hv.mono hnum hstr) hu
  | .trailing hv hu hw => .trailing (hv.mono hnum hstr) hu hw
  | .cons hv hu hw hvs => .cons (hv.mono hnum hstr) hu hw (hvs.mono hnum hstr)

theorem TextMembers.mono (hnum : ∀ u r, num u r → num' u r)
    (hstr : ∀ u r, str u r → str' u r) {d : ℕ} {s rest : Bytes} :
    TextMembers num str d s rest → TextMembers num' str' d s rest
  | .close hs => .close hs
  | .last hs hk hr hv hx => .last hs (hstr _ _ hk) hr (hv.mono hnum hstr) hx
  | .cons hs hk hr hv hx hms =>
    .cons hs (hstr _ _ hk) hr (hv.mono hnum hstr) hx (hms.mono hnum hstr)
end

/-! ## What the parser takes -/

/-- A number token of the parser when the memory `t` follows the slice. -/
def ReadNumber (t : Bytes) (u rest : Bytes) : Prop :=
  ∃ n neg mag grid, strtod (u ++ t) = some (n, .finite neg mag grid) ∧ n ≠ 0 ∧ n ≤ u.length ∧
    rest = u.drop n

/-- A string token of the parser. -/
def ReadString (u rest : Bytes) : Prop := ∃ str, stringLoop u StrBuf.empty = .closed str rest

/-- The loop takes a unit as a whole. -/
theorem stringLoop_unit' (p : StringUnit) (r : Bytes) (buf : StrBuf) :
    ∃ buf' : StrBuf, stringLoop (p.text ++ r) buf = stringLoop r buf' := by
  cases p with
  | raw c hc =>
    obtain ⟨buf', -, h⟩ := stringLoop_copy _ r buf (utf8EncodeChar_unescaped hc)
    exact ⟨buf', h⟩
  | letter l => exact ⟨_, stringLoop_letter l r buf⟩
  | hex q => exact ⟨_, stringLoop_unit q r buf⟩

/-- The parser takes every string of the RFC. -/
theorem RfcString.read {u rest : Bytes} (h : RfcString u rest) : ReadString u rest := by
  obtain ⟨ps, rfl⟩ := h
  have hloop : ∀ buf, ∃ str, stringLoop (ps.flatMap StringUnit.text ++ ch '"' :: rest) buf =
      .closed str rest := by
    induction ps with
    | nil => exact fun buf => ⟨buf.bytes, by simp⟩
    | cons p ps ih =>
      intro buf
      obtain ⟨buf', hp⟩ := stringLoop_unit' p (ps.flatMap StringUnit.text ++ ch '"' :: rest) buf
      obtain ⟨str, hstr⟩ := ih buf'
      exact ⟨str, by rw [List.flatMap_cons, List.append_assoc, hp, hstr]⟩
  exact hloop StrBuf.empty

variable {t : Bytes}

mutual
/-- The texts of these tokens are the ones that the parser reads. -/
theorem TextValue.reads {d : ℕ} {s rest : Bytes} :
    TextValue (ReadNumber t) ReadString d s rest → ∃ v, ReadsValue t d s v rest
  | .string hs ⟨_, hl⟩ => ⟨_, .string hs hl⟩
  | .number hs hb ⟨_, _, _, _, hn, hpos, hle, hrest⟩ => by
    subst hrest
    exact ⟨_, .number hs hb hn hpos hle⟩
  | .true hs => ⟨_, .true hs⟩
  | .false hs => ⟨_, .false hs⟩
  | .null hs => ⟨_, .null hs⟩
  | .emptyArray hs hd hu => ⟨_, .emptyArray hs hd hu⟩
  | .array hs hd hu hi => hi.reads.imp' _ fun _ h => .array hs hd hu h
  | .emptyObject hs hd hu => ⟨_, .emptyObject hs hd hu⟩
  | .object hs hd hu hm => hm.reads.imp' _ fun _ h => .object hs hd hu h

theorem TextItems.reads {d : ℕ} {s rest : Bytes} :
    TextItems (ReadNumber t) ReadString d s rest → ∃ vs, ReadsItems t d s vs rest
  | .last hv hu => hv.reads.imp' _ fun _ h => .last h hu
  | .trailing hv hu hw => hv.reads.imp' _ fun _ h => .trailing h hu hw
  | .cons hv hu hw hvs => by
    obtain ⟨v, h⟩ := hv.reads
    obtain ⟨vs, hs⟩ := hvs.reads
    exact ⟨v :: vs, .cons h hu hw hs⟩

theorem TextMembers.reads {d : ℕ} {s rest : Bytes} :
    TextMembers (ReadNumber t) ReadString d s rest → ∃ ms, ReadsMembers t d s ms rest
  | .close hs => ⟨_, .close hs⟩
  | .last hs ⟨_, hk⟩ hr hv hx => hv.reads.imp' _ fun _ h => .last hs hk hr h hx
  | .cons hs ⟨key, hk⟩ hr hv hx hms => by
    obtain ⟨v, h⟩ := hv.reads
    obtain ⟨ms, hm⟩ := hms.reads
    exact ⟨(key, v) :: ms, .cons hs hk hr h hx hm⟩
end

end SeaClaw.Json
