import SeaClaw.Core.Error
import SeaClaw.Lib.Binary64
import SeaClaw.Lib.Printf

/-!
# JSON values

The tree behind `sc_json_value_t`. Strings and keys are counted octet strings, so
they may hold a NUL; an object is its list of pairs in storage order.
-/

namespace SeaClaw.Json

open Lib

/-- `sc_json_value_t` -/
inductive Value where
  | null
  | bool (boolean : Bool)
  | number (number : Binary64)
  | string (str : Bytes)
  | array (items : List Value)
  | object (pairs : List (Bytes × Value))

/-- `JSON_MAX_DEPTH` -/
def jsonMaxDepth : ℕ := 64

mutual
/-- Levels of arrays and objects around the innermost value. -/
def Value.depth : Value → ℕ
  | .array items => 1 + itemsDepth items
  | .object pairs => 1 + pairsDepth pairs
  | _ => 0

/-- The deepest element of an array. -/
def itemsDepth : List Value → ℕ
  | [] => 0
  | v :: vs => max v.depth (itemsDepth vs)

/-- The deepest member of an object. -/
def pairsDepth : List (Bytes × Value) → ℕ
  | [] => 0
  | (_, v) :: ps => max v.depth (pairsDepth ps)
end

/-- `sc_json_object_get`: the first pair with the key, which the caller passes as a
C string. -/
def scJsonObjectGet : Value → Bytes → Option Value
  | .object pairs, key => (pairs.find? fun p => p.1 = key).map (·.2)
  | _, _ => none

/-- The octets a C string function sees of a counted string. -/
def cString (s : Bytes) : Bytes := s.takeWhile (· ≠ 0)

/-- `sc_json_get_string`: the caller reads the result up to its first NUL. -/
def scJsonGetString (v : Value) (key : Bytes) : Option Bytes :=
  match scJsonObjectGet v key with
  | some (.string s) => some (cString s)
  | _ => none

/-!
# The JSON printer

The text that `sc_json_stringify` builds. Appending to the buffer is list append;
the caller gets the text with a NUL after it.
-/

/-- What `stringify_string` writes for one octet of the string. -/
def escapeOctet (c : UInt8) : Bytes :=
  if c = ch '"' then ascii "\\\""
  else if c = ch '\\' then ascii "\\\\"
  else if c = 0x08 then ascii "\\b"
  else if c = 0x0C then ascii "\\f"
  else if c = 0x0A then ascii "\\n"
  else if c = 0x0D then ascii "\\r"
  else if c = 0x09 then ascii "\\t"
  else if c < 0x20 then ascii "\\u" ++ fmtHex4 c
  else [c]

/-- `stringify_string` -/
def stringifyString (s : Bytes) : Bytes := ch '"' :: (s.flatMap escapeOctet ++ [ch '"'])

/-- The number case of `stringify_value`: an integer below `1e15` in magnitude is
printed with `%lld`, without the sign of a zero. -/
def stringifyNumber : Binary64 → Bytes
  | .finite neg mag grid =>
    if mag.den = 1 ∧ mag < 10 ^ 15 then fmtInt (if neg then -mag.num else mag.num)
    else fmt17g (.finite neg mag grid)
  | x => fmt17g x

mutual
/-- `stringify_value` -/
def stringifyValue : Value → Bytes
  | .null => ascii "null"
  | .bool true => ascii "true"
  | .bool false => ascii "false"
  | .number x => stringifyNumber x
  | .string s => stringifyString s
  | .array items => ch '[' :: (stringifyItems 0 items ++ [ch ']'])
  | .object pairs => ch '{' :: (stringifyPairs 0 pairs ++ [ch '}'])

/-- The loop over the elements of an array, from index `i` on. -/
def stringifyItems : ℕ → List Value → Bytes
  | _, [] => []
  | i, v :: vs =>
    (if i > 0 then [ch ','] else []) ++ stringifyValue v ++ stringifyItems (i + 1) vs

/-- The loop over the members of an object, from index `i` on. -/
def stringifyPairs : ℕ → List (Bytes × Value) → Bytes
  | _, [] => []
  | i, (k, v) :: ps =>
    (if i > 0 then [ch ','] else []) ++ stringifyString k ++ [ch ':'] ++ stringifyValue v ++
      stringifyPairs (i + 1) ps
end

/-- `sc_json_stringify`: the text, without its terminator. -/
def scJsonStringify (v : Value) : Bytes := stringifyValue v

end SeaClaw.Json
