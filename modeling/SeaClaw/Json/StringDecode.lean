import SeaClaw.Json.Grammar
import SeaClaw.Lib.Utf8

/-!
# The characters of a string literal

A literal is a list of pieces, each of which stands for one character. The parser
writes each `\u` escape as the encoding of a 16-bit number of its own, which is right
for every character it can spell alone and wrong for the two halves of a pair.
-/

namespace SeaClaw.Json

open Lib

/-! ## Literals -/

/-- Four hexadecimal digits of either letter case. -/
structure Quad where
  h0 : UInt8
  h1 : UInt8
  h2 : UInt8
  h3 : UInt8
  isHex : ∀ b ∈ [h0, h1, h2, h3], isHexDigit b = true

def Quad.text (q : Quad) : Bytes := [q.h0, q.h1, q.h2, q.h3]

def Quad.value (q : Quad) : ℕ := natOfDigits 16 q.text

/-- The first half of a surrogate pair. -/
def Quad.High (q : Quad) : Prop := 0xD800 ≤ q.value ∧ q.value ≤ 0xDBFF

/-- The second half of a surrogate pair. -/
def Quad.Low (q : Quad) : Prop := 0xDC00 ≤ q.value ∧ q.value ≤ 0xDFFF

/-- The one-letter escapes. -/
inductive Letter where
  | quote | reverseSolidus | solidus | backspace | formFeed | lineFeed | carriageReturn | tab

def Letter.octet : Letter → UInt8
  | quote => ch '"'
  | reverseSolidus => ch '\\'
  | solidus => ch '/'
  | backspace => ch 'b'
  | formFeed => ch 'f'
  | lineFeed => ch 'n'
  | carriageReturn => ch 'r'
  | tab => ch 't'

def Letter.char : Letter → Char
  | quote => '"'
  | reverseSolidus => '\\'
  | solidus => '/'
  | backspace => Char.ofNat 0x08
  | formFeed => Char.ofNat 0x0C
  | lineFeed => '\n'
  | carriageReturn => '\r'
  | tab => '\t'

/-- What spells one character between the quotes. -/
inductive Piece where
  | raw (c : Char) (hc : 0x20 ≤ c.toNat ∧ c ≠ '"' ∧ c ≠ '\\')
  | letter (l : Letter)
  | unit (q : Quad) (hq : ¬ q.High ∧ ¬ q.Low)
  | pair (hi lo : Quad) (hhi : hi.High) (hlo : lo.Low)

def Piece.text : Piece → Bytes
  | raw c _ => String.utf8EncodeChar c
  | letter l => [ch '\\', l.octet]
  | unit q _ => ch '\\' :: ch 'u' :: q.text
  | pair hi lo _ _ => ch '\\' :: ch 'u' :: hi.text ++ ch '\\' :: ch 'u' :: lo.text

/-- The character a piece stands for. -/
def Piece.char : Piece → Char
  | raw c _ => c
  | letter l => l.char
  | unit q _ => Char.ofNat q.value
  | pair hi lo _ _ => Char.ofNat (0x10000 + (hi.value - 0xD800) * 0x400 + (lo.value - 0xDC00))

def Piece.IsPair : Piece → Prop
  | pair .. => True
  | _ => False

/-- The literal, with its quotes. -/
def literal (ps : List Piece) : Bytes := ch '"' :: (ps.flatMap Piece.text ++ [ch '"'])

/-! ## What the parser writes -/

/-- The octets written for one `\u` escape. -/
def encodeUnit (cp : ℕ) : Bytes :=
  if cp < 0x80 then [cp.toUInt8]
  else if cp < 0x800 then [(0xC0 ||| cp >>> 6).toUInt8, continuation cp]
  else [(0xE0 ||| cp >>> 12).toUInt8, continuation (cp >>> 6), continuation cp]

theorem bytes_pushEscape (buf : StrBuf) (cp : ℕ) :
    (buf.pushEscape cp).bytes = buf.bytes ++ encodeUnit cp := by
  unfold StrBuf.pushEscape encodeUnit
  split_ifs <;> simp [continuation]

/-- The octets written for a piece. -/
def Piece.written : Piece → Bytes
  | raw c _ => String.utf8EncodeChar c
  | letter l => String.utf8EncodeChar l.char
  | unit q _ => encodeUnit q.value
  | pair hi lo _ _ => encodeUnit hi.value ++ encodeUnit lo.value

/-- The digits of a quad, each below sixteen. -/
theorem Quad.digits (q : Quad) : ∃ n0 n1 n2 n3, hexVal q.h0 = some n0 ∧ hexVal q.h1 = some n1 ∧
    hexVal q.h2 = some n2 ∧ hexVal q.h3 = some n3 := by
  have hsome : ∀ b ∈ [q.h0, q.h1, q.h2, q.h3], ∃ n, hexVal b = some n := by
    intro b hb
    exact Option.isSome_iff_exists.mp (q.isHex b hb)
  obtain ⟨n0, h0⟩ := hsome q.h0 (by simp)
  obtain ⟨n1, h1⟩ := hsome q.h1 (by simp)
  obtain ⟨n2, h2⟩ := hsome q.h2 (by simp)
  obtain ⟨n3, h3⟩ := hsome q.h3 (by simp)
  exact ⟨n0, n1, n2, n3, h0, h1, h2, h3⟩

theorem Quad.value_eq {q : Quad} {n0 n1 n2 n3 : ℕ} (h0 : hexVal q.h0 = some n0)
    (h1 : hexVal q.h1 = some n1) (h2 : hexVal q.h2 = some n2) (h3 : hexVal q.h3 = some n3) :
    q.value = ((n0 * 16 + n1) * 16 + n2) * 16 + n3 := by
  simp only [value, text, natOfDigits, List.reverse_cons, List.reverse_nil, List.nil_append,
    List.cons_append, List.map_cons, List.map_nil, h0, h1, h2, h3, Option.getD_some,
    Nat.ofDigits_cons, Nat.ofDigits_nil]
  push_cast
  ring

/-- Four nibbles side by side. -/
theorem or_nibbles {n1 n2 n3 : ℕ} (n0 : ℕ) (h1 : n1 < 16) (h2 : n2 < 16) (h3 : n3 < 16) :
    n0 <<< 12 ||| n1 <<< 8 ||| n2 <<< 4 ||| n3 = ((n0 * 16 + n1) * 16 + n2) * 16 + n3 := by
  have e1 : n0 <<< 12 ||| n1 <<< 8 = (n0 * 16 + n1) <<< 8 := by
    rw [← Nat.shiftLeft_add_eq_or_of_lt (by rw [Nat.shiftLeft_eq]; omega)]
    simp only [Nat.shiftLeft_eq]
    ring
  have e2 : (n0 * 16 + n1) <<< 8 ||| n2 <<< 4 = ((n0 * 16 + n1) * 16 + n2) <<< 4 := by
    rw [← Nat.shiftLeft_add_eq_or_of_lt (by rw [Nat.shiftLeft_eq]; omega)]
    simp only [Nat.shiftLeft_eq]
    ring
  rw [e1, e2, ← Nat.shiftLeft_add_eq_or_of_lt (by omega), Nat.shiftLeft_eq]

theorem codeUnit_quad (q : Quad) : codeUnit q.h0 q.h1 q.h2 q.h3 = some q.value := by
  obtain ⟨n0, n1, n2, n3, h0, h1, h2, h3⟩ := q.digits
  rw [Quad.value_eq h0 h1 h2 h3]
  simp only [codeUnit, h0, h1, h2, h3]
  rw [or_nibbles n0 (hexVal_lt h1) (hexVal_lt h2) (hexVal_lt h3)]

theorem Quad.value_lt (q : Quad) : q.value < 0x10000 := by
  obtain ⟨n0, n1, n2, n3, h0, h1, h2, h3⟩ := q.digits
  have b0 := hexVal_lt h0
  have b1 := hexVal_lt h1
  have b2 := hexVal_lt h2
  have b3 := hexVal_lt h3
  rw [Quad.value_eq h0 h1 h2 h3]
  omega

/-- An escape outside the surrogates is the encoding of its character. -/
theorem encodeUnit_char {n : ℕ} (hn : n < 0x10000) (hs : n < 0xD800 ∨ 0xDFFF < n) :
    encodeUnit n = String.utf8EncodeChar (Char.ofNat n) := by
  have hv : n.isValidChar := by
    unfold Nat.isValidChar
    omega
  have hc := toNat_ofNat hv
  unfold encodeUnit
  split_ifs with h1 h2
  · rw [utf8EncodeChar_ascii (by omega), ch, hc]
  · rw [utf8EncodeChar_two (by omega) (by omega), hc]
  · rw [utf8EncodeChar_three (by omega) (by omega), hc]

/-- Half a pair takes three octets. -/
theorem length_encodeUnit_half {n : ℕ} (hn : 0xD800 ≤ n) : (encodeUnit n).length = 3 := by
  have h1 : ¬ n < 0x80 := by omega
  have h2 : ¬ n < 0x800 := by omega
  simp only [encodeUnit, h1, h2, ite_false, List.length_cons, List.length_nil]

/-! ## The loop on a literal -/

/-- Raw octets are copied. -/
theorem stringLoop_copy (s t : Bytes) (buf : StrBuf)
    (hs : ∀ b ∈ s, b ≠ ch '"' ∧ b ≠ ch '\\' ∧ ¬ b < 0x20) :
    ∃ buf' : StrBuf, buf'.bytes = buf.bytes ++ s ∧ stringLoop (s ++ t) buf = stringLoop t buf' := by
  induction s generalizing buf with
  | nil => exact ⟨buf, by simp, rfl⟩
  | cons b s ih =>
    obtain ⟨hq, he, hc⟩ := hs b (List.mem_cons_self ..)
    obtain ⟨buf', hbytes, hloop⟩ := ih (buf.push b) fun x hx => hs x (List.mem_cons_of_mem _ hx)
    refine ⟨buf', by simp [hbytes], ?_⟩
    rw [List.cons_append, stringLoop_plain (s ++ t) buf hq he hc, hloop]

/-- The octets of an unescaped character are not special. -/
theorem utf8EncodeChar_unescaped {c : Char} (hc : 0x20 ≤ c.toNat ∧ c ≠ '"' ∧ c ≠ '\\') :
    ∀ b ∈ String.utf8EncodeChar c, b ≠ ch '"' ∧ b ≠ ch '\\' ∧ ¬ b < 0x20 := by
  intro b hb
  by_cases hhigh : 0x80 ≤ c.toNat
  · have hb80 := utf8EncodeChar_high hhigh b hb
    revert hb80
    clear hb
    revert b
    decide +kernel
  · have hlt : c.toNat < 0x80 := by omega
    rw [utf8EncodeChar_ascii hlt, List.mem_singleton] at hb
    subst hb
    obtain ⟨hlo, hq, he⟩ := hc
    refine ⟨fun h => hq (ch_inj hlt (by decide) h), fun h => he (ch_inj hlt (by decide) h), ?_⟩
    rw [UInt8.lt_iff_toNat_lt, toNat_ch hlt]
    exact Nat.not_lt.mpr hlo

theorem stringLoop_unit (q : Quad) (t : Bytes) (buf : StrBuf) :
    stringLoop (ch '\\' :: ch 'u' :: q.text ++ t) buf = stringLoop t (buf.pushEscape q.value) :=
  stringLoop_unicode t buf (codeUnit_quad q) q.value_lt

theorem stringLoop_letter (l : Letter) (t : Bytes) (buf : StrBuf) :
    stringLoop (ch '\\' :: l.octet :: t) buf = stringLoop t (buf.push (ch l.char)) :=
  stringLoop_simple t buf (by cases l <;> decide)

/-- The loop takes a piece as a whole. -/
theorem stringLoop_piece (p : Piece) (t : Bytes) (buf : StrBuf) :
    ∃ buf' : StrBuf, buf'.bytes = buf.bytes ++ p.written ∧
      stringLoop (p.text ++ t) buf = stringLoop t buf' := by
  cases p with
  | raw c hc => exact stringLoop_copy _ t buf (utf8EncodeChar_unescaped hc)
  | letter l =>
    refine ⟨buf.push (ch l.char), ?_, stringLoop_letter l t buf⟩
    cases l <;> rfl
  | unit q hq => exact ⟨_, bytes_pushEscape buf q.value, stringLoop_unit q t buf⟩
  | pair hi lo hhi hlo =>
    refine ⟨(buf.pushEscape hi.value).pushEscape lo.value, ?_, ?_⟩
    · rw [bytes_pushEscape, bytes_pushEscape, Piece.written, List.append_assoc]
    · rw [← stringLoop_unit lo, ← stringLoop_unit hi]
      simp [Piece.text]

theorem stringLoop_pieces (ps : List Piece) (t : Bytes) (buf : StrBuf) :
    stringLoop (ps.flatMap Piece.text ++ ch '"' :: t) buf =
      .closed (buf.bytes ++ ps.flatMap Piece.written) t := by
  induction ps generalizing buf with
  | nil => simp
  | cons p ps ih =>
    obtain ⟨buf', hbytes, hloop⟩ := stringLoop_piece p (ps.flatMap Piece.text ++ ch '"' :: t) buf
    rw [List.flatMap_cons, List.append_assoc, hloop, ih, hbytes]
    simp

/-- Every literal is accepted, and what is written is written piece by piece. -/
theorem parseStringRaw_literal (ps : List Piece) (rest beyond : Bytes) (d : ℕ) :
    parseStringRaw ⟨literal ps ++ rest, beyond, 0, d⟩ =
      .ok (ps.flatMap Piece.written) ⟨rest, beyond, 0, d⟩ := by
  have hlit : literal ps ++ rest = ch '"' :: (ps.flatMap Piece.text ++ ch '"' :: rest) := by
    simp [literal]
  rw [hlit, parseStringRaw_mk, stringLoop_pieces]
  simp

/-! ## Against the characters -/

/-- A piece other than a pair is written as its character. -/
theorem Piece.written_eq {p : Piece} (hp : ¬ p.IsPair) :
    p.written = String.utf8EncodeChar p.char := by
  cases p with
  | raw c hc => rfl
  | letter l => rfl
  | unit q hq =>
    have hlt := q.value_lt
    have hn : q.value < 0xD800 ∨ 0xDFFF < q.value := by
      simp only [Quad.High, Quad.Low] at hq
      omega
    exact encodeUnit_char hlt hn
  | pair hi lo hhi hlo => exact absurd trivial hp

/-- A pair is written in six octets where its character takes four. -/
theorem Piece.length_written_pair {p : Piece} (hp : p.IsPair) :
    p.written.length = (String.utf8EncodeChar p.char).length + 2 := by
  cases p with
  | pair hi lo hhi hlo =>
    obtain ⟨h1, h2⟩ := id hhi
    obtain ⟨h3, h4⟩ := id hlo
    have hv : (0x10000 + (hi.value - 0xD800) * 0x400 + (lo.value - 0xDC00)).isValidChar := by
      unfold Nat.isValidChar
      omega
    have hc := toNat_ofNat hv
    rw [char, length_utf8EncodeChar_four (by omega), written, List.length_append,
      length_encodeUnit_half h1, length_encodeUnit_half (by omega)]
  | raw c hc => exact hp.elim
  | letter l => exact hp.elim
  | unit q hq => exact hp.elim

theorem length_written_ge (ps : List Piece) :
    ((ps.map Piece.char).flatMap String.utf8EncodeChar).length ≤
      (ps.flatMap Piece.written).length := by
  induction ps with
  | nil => simp
  | cons p ps ih =>
    have hp : (String.utf8EncodeChar p.char).length ≤ p.written.length := by
      by_cases h : p.IsPair
      · rw [Piece.length_written_pair h]
        omega
      · rw [Piece.written_eq h]
    simp only [List.map_cons, List.flatMap_cons, List.length_append]
    omega

/-- The octets written for a literal decode to its characters if no piece is a pair. -/
theorem decodes_written_iff (ps : List Piece) :
    Decodes (ps.flatMap Piece.written) (ps.map Piece.char) ↔ ∀ p ∈ ps, ¬ p.IsPair := by
  rw [decodes_iff_eq]
  induction ps with
  | nil => simp
  | cons p ps ih =>
    rw [List.map_cons, List.flatMap_cons, List.flatMap_cons, List.forall_mem_cons]
    by_cases hp : p.IsPair
    · have hlen := length_written_ge ps
      have hpair := Piece.length_written_pair hp
      refine iff_of_false ?_ (fun h => h.1 hp)
      intro heq
      have := congrArg List.length heq
      simp only [List.length_append] at this
      omega
    · rw [Piece.written_eq hp, List.append_cancel_left_eq, ih]
      simp [hp]

/-- `"\ud83d\ude00"`, the two halves of one character. -/
def faceLiteral : List Piece :=
  [.pair ⟨ch 'd', ch '8', ch '3', ch 'd', by decide +kernel⟩
    ⟨ch 'd', ch 'e', ch '0', ch '0', by decide +kernel⟩
    (by unfold Quad.High; decide) (by unfold Quad.Low; decide)]

/-- The parser takes every literal, and what it returns is the UTF-8 text of the literal
exactly when the literal has no surrogate pair. -/
theorem parseStringRaw_decodes_iff (ps : List Piece) (rest beyond : Bytes) (d : ℕ) :
    ∃ out, parseStringRaw ⟨literal ps ++ rest, beyond, 0, d⟩ = .ok out ⟨rest, beyond, 0, d⟩ ∧
      (Decodes out (ps.map Piece.char) ↔ ∀ p ∈ ps, ¬ p.IsPair) :=
  ⟨_, parseStringRaw_literal ps rest beyond d, decodes_written_iff ps⟩

/-- The two halves are written one by one, in six octets that are no UTF-8 text of the
character. -/
theorem parseStringRaw_face : literal faceLiteral = ascii "\"\\ud83d\\ude00\"" ∧
    parseStringRaw ⟨literal faceLiteral, [], 0, 0⟩ =
      .ok [0xED, 0xA0, 0xBD, 0xED, 0xB8, 0x80] ⟨[], [], 0, 0⟩ ∧
    ¬ Decodes [0xED, 0xA0, 0xBD, 0xED, 0xB8, 0x80] (faceLiteral.map Piece.char) := by
  refine ⟨by decide, ?_, ?_⟩
  · have h := parseStringRaw_literal faceLiteral [] [] 0
    have hw : faceLiteral.flatMap Piece.written = [0xED, 0xA0, 0xBD, 0xED, 0xB8, 0x80] := by
      decide
    rwa [List.append_nil, hw] at h
  · rw [decodes_iff_eq]
    decide

end SeaClaw.Json
