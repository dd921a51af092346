import SeaClaw.Json.Value
import SeaClaw.Lib.Strtod

/-!
# The JSON parser

A translation of the recursive-descent parser. The cursor is what `src`, `len` and
`pos` say together: the octets of the slice still to be read, and the readable
memory after the slice, which only an access that does not test `pos < len` can
reach. Allocation succeeds, and sizes are exact integers.
-/

namespace SeaClaw.Json

open Lib

/-- The mutable part of `parser_t`, by what lies ahead of `pos`. -/
structure Cursor where
  /-- The slice from `pos` on; empty once `pos` has reached `len`. -/
  rest : Bytes
  /-- Readable memory from the later of `pos` and `len` on. -/
  beyond : Bytes
  /-- How far `pos` has passed `len`. -/
  past : ℕ
  depth : ℕ
  deriving DecidableEq

/-- How a parsing function returns; each way shows where it left the cursor. -/
inductive Outcome (α : Type) where
  | ok (a : α) (c : Cursor)
  | err (e : ScError) (c : Cursor)
  /-- An access outside the readable memory. -/
  | overread (c : Cursor)
  /-- The bound on nested calls was too small: not a behaviour of the program. -/
  | outOfFuel

/-- `p->pos += n` -/
def Cursor.advanceBy (c : Cursor) (n : ℕ) : Cursor :=
  { c with
    rest := c.rest.drop n
    beyond := c.beyond.drop (n - c.rest.length)
    past := c.past + (n - c.rest.length) }

/-- What the parser takes for white space. -/
def isWs (b : UInt8) : Bool := b = ch ' ' || b = ch '\t' || b = ch '\n' || b = ch '\r'

/-- The octets from the first one that is not white space. -/
def dropWs (s : Bytes) : Bytes := s.dropWhile isWs

/-- `skip_ws` -/
def skipWs (c : Cursor) : Cursor := { c with rest := dropWs c.rest }

/-- `peek`: the next octet after white space, or NUL at the end of the slice. -/
def peek (c : Cursor) : UInt8 × Cursor := ((skipWs c).rest.headD 0, skipWs c)

/-- `advance`: the same, and step over it. -/
def advance (c : Cursor) : UInt8 × Cursor :=
  match (skipWs c).rest with
  | [] => (0, skipWs c)
  | b :: _ => (b, (skipWs c).advanceBy 1)

/-! ## Strings -/

/-- The output buffer of `parse_string_raw`. Between two writes there is always room
for one more octet, which is where the terminator goes. -/
structure StrBuf where
  bytes : Bytes
  cap : ℕ
  room : bytes.length < cap
  large : 64 ≤ cap

/-- The buffer as first allocated. -/
def StrBuf.empty : StrBuf := ⟨[], 64, by decide, le_rfl⟩

/-- Double the buffer unless `n` more octets fit. -/
def StrBuf.reserve (s : StrBuf) (n : ℕ) : StrBuf where
  bytes := s.bytes
  cap := if s.bytes.length + n > s.cap then s.cap * 2 else s.cap
  room := by have := s.room; split_ifs <;> omega
  large := by have := s.large; split_ifs <;> omega

theorem StrBuf.reserve_room (s : StrBuf) {n : ℕ} (hn : n ≤ 3) :
    (s.reserve n).bytes.length + n ≤ (s.reserve n).cap := by
  have hr := s.room
  have hl := s.large
  simp only [StrBuf.reserve]
  split_ifs <;> omega

/-- `buf[len++] = c` where room was reserved before. -/
def StrBuf.write (s : StrBuf) (b : UInt8) (h : s.bytes.length + 1 < s.cap) : StrBuf where
  bytes := s.bytes ++ [b]
  cap := s.cap
  room := by simpa using h
  large := s.large

/-- The write at the end of the loop body, which grows the buffer for the next one. -/
def StrBuf.push (s : StrBuf) (b : UInt8) : StrBuf where
  bytes := s.bytes ++ [b]
  cap := if s.bytes.length + 1 ≥ s.cap then s.cap * 2 else s.cap
  room := by
    have hr := s.room
    have hl := s.large
    simp only [List.length_append, List.length_singleton]
    split_ifs <;> omega
  large := by have := s.large; split_ifs <;> omega

@[simp] theorem StrBuf.bytes_empty : StrBuf.empty.bytes = [] := rfl
@[simp] theorem StrBuf.bytes_reserve (s : StrBuf) (n : ℕ) : (s.reserve n).bytes = s.bytes := rfl
@[simp] theorem StrBuf.bytes_write (s : StrBuf) (b : UInt8) (h : s.bytes.length + 1 < s.cap) :
    (s.write b h).bytes = s.bytes ++ [b] := rfl
@[simp] theorem StrBuf.bytes_push (s : StrBuf) (b : UInt8) : (s.push b).bytes = s.bytes ++ [b] :=
  rfl

/-- The octets written for the 16-bit number of a `\u` escape. -/
def StrBuf.pushEscape (s : StrBuf) (cp : ℕ) : StrBuf :=
  if cp < 0x80 then s.push cp.toUInt8
  else if cp < 0x800 then
    ((s.reserve 2).write (0xC0 ||| cp >>> 6).toUInt8 (by
      have := s.reserve_room (n := 2) (by decide)
      omega)).push (0x80 ||| cp &&& 0x3F).toUInt8
  else
    (((s.reserve 3).write (0xE0 ||| cp >>> 12).toUInt8 (by
      have := s.reserve_room (n := 3) (by decide)
      omega)).write (0x80 ||| cp >>> 6 &&& 0x3F).toUInt8 (by
        have := s.reserve_room (n := 3) (by decide)
        simp only [StrBuf.write, StrBuf.bytes_reserve, List.length_append,
          List.length_singleton] at this ⊢
        omega)).push (0x80 ||| cp &&& 0x3F).toUInt8

/-- The number spelled by the four digits of a `\u` escape. -/
def codeUnit (h0 h1 h2 h3 : UInt8) : Option ℕ :=
  match hexVal h0, hexVal h1, hexVal h2, hexVal h3 with
  | some n0, some n1, some n2, some n3 => some (n0 <<< 12 ||| n1 <<< 8 ||| n2 <<< 4 ||| n3)
  | _, _, _, _ => none

/-- The octet of a one-letter escape. -/
def simpleEscape (e : UInt8) : Option UInt8 :=
  if e = ch '"' ∨ e = ch '\\' ∨ e = ch '/' then some e
  else if e = ch 'b' then some 0x08
  else if e = ch 'f' then some 0x0C
  else if e = ch 'n' then some 0x0A
  else if e = ch 'r' then some 0x0D
  else if e = ch 't' then some 0x09
  else none

/-- How the loop of `parse_string_raw` ends, and the slice left at that point. -/
inductive LoopExit where
  | closed (str rest : Bytes)
  | malformed (rest : Bytes)
  deriving DecidableEq

/-- The loop of `parse_string_raw` over the slice after the opening quote. -/
def stringLoop : Bytes → StrBuf → LoopExit
  | [], _ => .malformed []
  | b :: s, buf =>
    if b = ch '"' then .closed buf.bytes s
    else if b = ch '\\' then
      match s with
      | [] => .malformed []
      | e :: s =>
        if e = ch 'u' then
          match s with
          | h0 :: h1 :: h2 :: h3 :: t =>
            match codeUnit h0 h1 h2 h3 with
            | some cp =>
              if cp < 0x10000 then stringLoop t (buf.pushEscape cp) else .malformed t
            | none => .malformed (h0 :: h1 :: h2 :: h3 :: t)
          | s => .malformed s
        else
          match simpleEscape e with
          | some x => stringLoop s (buf.push x)
          | none => .malformed s
    else if b < 0x20 then .malformed s
    else stringLoop s (buf.push b)

/-! One round of the loop, by the octets it looks at. -/

section StringLoop

variable (s t : Bytes) (buf : StrBuf)

attribute [local simp] stringLoop

@[simp] theorem stringLoop_nil : stringLoop [] buf = .malformed [] := by
  rw [stringLoop]

@[simp] theorem stringLoop_quote : stringLoop (ch '"' :: s) buf = .closed buf.bytes s := by
  rw [stringLoop.eq_def]
  simp

theorem stringLoop_plain {b : UInt8} (hq : b ≠ ch '"') (he : b ≠ ch '\\') (hc : ¬ b < 0x20) :
    stringLoop (b :: s) buf = stringLoop s (buf.push b) := by
  rw [stringLoop.eq_def]
  simp [hq, he, hc]

theorem stringLoop_control {b : UInt8} (hc : b < 0x20) :
    stringLoop (b :: s) buf = .malformed s := by
  have hq : b ≠ ch '"' := by
    rintro rfl
    exact absurd hc (by decide)
  have he : b ≠ ch '\\' := by
    rintro rfl
    exact absurd hc (by decide)
  rw [stringLoop.eq_def]
  simp [hq, he, hc]

theorem stringLoop_simple {e x : UInt8} (he : simpleEscape e = some x) :
    stringLoop (ch '\\' :: e :: s) buf = stringLoop s (buf.push x) := by
  have hq : ch '\\' ≠ ch '"' := by decide
  have hu : e ≠ ch 'u' := by
    rintro rfl
    revert he
    simp [simpleEscape, ch]
  rw [stringLoop.eq_def]
  simp [hq, hu, he]

theorem stringLoop_unicode {h0 h1 h2 h3 : UInt8} {cp : ℕ} (hu : codeUnit h0 h1 h2 h3 = some cp)
    (hcp : cp < 0x10000) :
    stringLoop (ch '\\' :: ch 'u' :: h0 :: h1 :: h2 :: h3 :: t) buf =
      stringLoop t (buf.pushEscape cp) := by
  have hq : ch '\\' ≠ ch '"' := by decide
  rw [stringLoop.eq_def]
  simp [hq, hu, hcp]

end StringLoop

/-- `parse_string_raw`. The test for the opening quote reads memory whether or not
the slice has ended. -/
def parseStringRaw (c : Cursor) : Outcome Bytes :=
  match c.rest ++ c.beyond with
  | [] => .overread c
  | b :: _ =>
    if b ≠ ch '"' then .err .jsonParse c
    else
      match stringLoop (c.advanceBy 1).rest StrBuf.empty with
      | .closed str rest => .ok str { c.advanceBy 1 with rest := rest }
      | .malformed rest => .err .jsonParse { c.advanceBy 1 with rest := rest }

/-- `parse_string` -/
def parseString (c : Cursor) : Outcome Value :=
  match parseStringRaw c with
  | .ok s c => .ok (.string s) c
  | .err e c => .err e c
  | .overread c => .overread c
  | .outOfFuel => .outOfFuel

/-! ## Values -/

/-- `parse_number`. `strtod` is given an address, not a length. -/
def parseNumber (c : Cursor) : Outcome Value :=
  match strtod (c.rest ++ c.beyond) with
  | none => .overread c
  | some (n, x) =>
    if n = 0 then .err .jsonParse c
    else
      match x with
      | .finite neg mag grid => .ok (.number (.finite neg mag grid)) (c.advanceBy n)
      | _ => .err .jsonParse (c.advanceBy n)

/-- A pair whose key is already there takes the place of the old one. -/
def putPair (key : Bytes) (val : Value) : List (Bytes × Value) → List (Bytes × Value)
  | [] => [(key, val)]
  | (k, v) :: ps => if k = key then (key, val) :: ps else (k, v) :: putPair key val ps

/-- Step over the closing bracket and leave the nesting level. -/
def closeBracket (c : Cursor) : Cursor :=
  { c.advanceBy 1 with depth := (c.advanceBy 1).depth - 1 }

mutual
/-- `parse_value` -/
def parseValue : ℕ → Cursor → Outcome Value
  | 0, _ => .outOfFuel
  | fuel + 1, c =>
    let b := (peek c).1
    let c := (peek c).2
    if b = ch '"' then parseString c
    else if b = ch '{' then parseObject fuel c
    else if b = ch '[' then parseArray fuel c
    else if b = ch '-' ∨ isDigit b then parseNumber c
    else if ascii "true" <+: c.rest then .ok (.bool true) (c.advanceBy 4)
    else if ascii "false" <+: c.rest then .ok (.bool false) (c.advanceBy 5)
    else if ascii "null" <+: c.rest then .ok .null (c.advanceBy 4)
    else .err .jsonParse c

/-- `parse_array` -/
def parseArray : ℕ → Cursor → Outcome Value
  | 0, _ => .outOfFuel
  | fuel + 1, c =>
    let c := { c.advanceBy 1 with depth := c.depth + 1 }
    if c.depth > jsonMaxDepth then .err .jsonDepth c
    else if (peek c).1 = ch ']' then .ok (.array []) (closeBracket (peek c).2)
    else arrayLoop fuel (peek c).2 []

/-- The loop of `parse_array` over its elements. -/
def arrayLoop : ℕ → Cursor → List Value → Outcome Value
  | 0, _, _ => .outOfFuel
  | fuel + 1, c, items =>
    match parseValue fuel c with
    | .ok v c =>
      if (peek c).1 = ch ',' then
        let c := (advance (peek c).2).2
        if (peek c).1 = ch ']' then .ok (.array (items ++ [v])) (closeBracket (peek c).2)
        else arrayLoop fuel (peek c).2 (items ++ [v])
      else if (peek c).1 = ch ']' then .ok (.array (items ++ [v])) (closeBracket (peek c).2)
      else .err .jsonParse (peek c).2
    | .err e c => .err e c
    | .overread c => .overread c
    | .outOfFuel => .outOfFuel

/-- `parse_object` -/
def parseObject : ℕ → Cursor → Outcome Value
  | 0, _ => .outOfFuel
  | fuel + 1, c =>
    let c := { c.advanceBy 1 with depth := c.depth + 1 }
    if c.depth > jsonMaxDepth then .err .jsonDepth c
    else if (peek c).1 = ch '}' then .ok (.object []) (closeBracket (peek c).2)
    else objectLoop fuel (peek c).2 []

/-- The loop of `parse_object` over its members. -/
def objectLoop : ℕ → Cursor → List (Bytes × Value) → Outcome Value
  | 0, _, _ => .outOfFuel
  | fuel + 1, c, pairs =>
    if (peek c).1 = ch '}' then .ok (.object pairs) (closeBracket (peek c).2)
    else
      match parseStringRaw (peek c).2 with
      | .ok key c =>
        if (advance c).1 ≠ ch ':' then .err .jsonParse (advance c).2
        else
          match parseValue fuel (advance c).2 with
          | .ok v c =>
            if (peek c).1 = ch ',' then
              objectLoop fuel (advance (peek c).2).2 (putPair key v pairs)
            else if (peek c).1 = ch '}' then
              .ok (.object (putPair key v pairs)) (closeBracket (peek c).2)
            else .err .jsonParse (peek c).2
          | .err e c => .err e c
          | .overread c => .overread c
          | .outOfFuel => .outOfFuel
      | .err e c => .err e c
      | .overread c => .overread c
      | .outOfFuel => .outOfFuel
end

/-- Calls nest at most three deep for each octet of the slice. -/
def fuelFor (input : Bytes) : ℕ := 3 * input.length + 3

/-- `sc_json_parse` of the slice `input`, with the readable memory after it. -/
def scJsonParse (input beyond : Bytes) : Outcome Value :=
  parseValue (fuelFor input) ⟨input, beyond, 0, 0⟩

end SeaClaw.Json
