import SeaClaw.Json.Parse
import Mathlib.Data.List.DropRight
import Mathlib.Data.List.TakeWhile

/-!
# What the parser reads

A derivation of `ReadsValue t d s v rest` says how a value is spelled at the front of
the slice `s`, at nesting level `d`, when the memory `t` follows the slice. It is the
language of the parser as a grammar: white space, trailing commas and repeated keys are
where the parser allows them, and a number is what `strtod` takes. Every derivation is
followed by the parser, with fuel linear in the slice.
-/

namespace SeaClaw.Json

open Lib

/-- The first octet of a number token. -/
def startsNumber (b : UInt8) : Prop := b = ch '-' ∨ isDigit b

/-- The pairs of an object after its members were stored one by one. -/
def storePairs (pairs : List (Bytes × Value)) (ms : List (Bytes × Value)) :
    List (Bytes × Value) :=
  ms.foldl (fun ps m => putPair m.1 m.2 ps) pairs

mutual
/-- A value at the front of `s`, leaving `rest`. -/
inductive ReadsValue (t : Bytes) : ℕ → Bytes → Value → Bytes → Prop where
  | string {d s u str rest} (hs : dropWs s = ch '"' :: u)
      (hl : stringLoop u StrBuf.empty = .closed str rest) : ReadsValue t d s (.string str) rest
  | number {d s b u n neg mag grid} (hs : dropWs s = b :: u) (hb : startsNumber b)
      (hn : strtod (b :: u ++ t) = some (n, .finite neg mag grid)) (hpos : n ≠ 0)
      (hle : n ≤ (b :: u).length) :
      ReadsValue t d s (.number (.finite neg mag grid)) ((b :: u).drop n)
  | true {d s rest} (hs : dropWs s = ascii "true" ++ rest) : ReadsValue t d s (.bool true) rest
  | false {d s rest} (hs : dropWs s = ascii "false" ++ rest) :
      ReadsValue t d s (.bool false) rest
  | null {d s rest} (hs : dropWs s = ascii "null" ++ rest) : ReadsValue t d s .null rest
  | emptyArray {d s u rest} (hs : dropWs s = ch '[' :: u) (hd : d < jsonMaxDepth)
      (hu : dropWs u = ch ']' :: rest) : ReadsValue t d s (.array []) rest
  | array {d s u items rest} (hs : dropWs s = ch '[' :: u) (hd : d < jsonMaxDepth)
      (hu : (dropWs u).head? ≠ some (ch ']'))
      (hi : ReadsItems t (d + 1) (dropWs u) items rest) : ReadsValue t d s (.array items) rest
  | emptyObject {d s u rest} (hs : dropWs s = ch '{' :: u) (hd : d < jsonMaxDepth)
      (hu : dropWs u = ch '}' :: rest) : ReadsValue t d s (.object []) rest
  | object {d s u ms rest} (hs : dropWs s = ch '{' :: u) (hd : d < jsonMaxDepth)
      (hu : (dropWs u).head? ≠ some (ch '}'))
      (hm : ReadsMembers t (d + 1) (dropWs u) ms rest) :
      ReadsValue t d s (.object (storePairs [] ms)) rest

/-- The elements of an array and its closing bracket. -/
inductive ReadsItems (t : Bytes) : ℕ → Bytes → List Value → Bytes → Prop where
  | last {d s v u rest} (hv : ReadsValue t d s v u) (hu : dropWs u = ch ']' :: rest) :
      ReadsItems t d s [v] rest
  | trailing {d s v u w rest} (hv : ReadsValue t d s v u) (hu : dropWs u = ch ',' :: w)
      (hw : dropWs w = ch ']' :: rest) : ReadsItems t d s [v] rest
  | cons {d s v u w vs rest} (hv : ReadsValue t d s v u) (hu : dropWs u = ch ',' :: w)
      (hw : (dropWs w).head? ≠ some (ch ']')) (hvs : ReadsItems t d (dropWs w) vs rest) :
      ReadsItems t d s (v :: vs) rest

/-- The members of an object and its closing brace. -/
inductive ReadsMembers (t : Bytes) : ℕ → Bytes → List (Bytes × Value) → Bytes → Prop where
  | close {d s rest} (hs : dropWs s = ch '}' :: rest) : ReadsMembers t d s [] rest
  | last {d s u key r w v x rest} (hs : dropWs s = ch '"' :: u)
      (hk : stringLoop u StrBuf.empty = .closed key r) (hr : dropWs r = ch ':' :: w)
      (hv : ReadsValue t d w v x) (hx : dropWs x = ch '}' :: rest) :
      ReadsMembers t d s [(key, v)] rest
  | cons {d s u key r w v x y ms rest} (hs : dropWs s = ch '"' :: u)
      (hk : stringLoop u StrBuf.empty = .closed key r) (hr : dropWs r = ch ':' :: w)
      (hv : ReadsValue t d w v x) (hx : dropWs x = ch ',' :: y)
      (hms : ReadsMembers t d y ms rest) : ReadsMembers t d s ((key, v) :: ms) rest
end

/-! ## The cursor inside the slice -/

@[simp] theorem dropWs_dropWs (s : Bytes) : dropWs (dropWs s) = dropWs s :=
  List.dropWhile_idempotent ..

theorem dropWs_length_le (s : Bytes) : (dropWs s).length ≤ s.length :=
  List.length_dropWhile_le ..

@[simp] theorem peek_mk (s t : Bytes) (p d : ℕ) :
    peek ⟨s, t, p, d⟩ = ((dropWs s).headD 0, ⟨dropWs s, t, p, d⟩) := rfl

theorem advance_mk {s : Bytes} {b : UInt8} {u : Bytes} (hs : dropWs s = b :: u) (t : Bytes)
    (p d : ℕ) : advance ⟨s, t, p, d⟩ = (b, ⟨u, t, p, d⟩) := by
  simp [advance, skipWs, hs, Cursor.advanceBy]

/-- Stepping over an octet that `peek` has just returned. -/
theorem advance_peeked {s : Bytes} {b : UInt8} {u : Bytes} (hs : dropWs s = b :: u) (t : Bytes)
    (p d : ℕ) : advance ⟨b :: u, t, p, d⟩ = (b, ⟨u, t, p, d⟩) :=
  advance_mk (by rw [← hs, dropWs_dropWs]) t p d

@[simp] theorem advanceBy_one (b : UInt8) (u t : Bytes) (p d : ℕ) :
    Cursor.advanceBy ⟨b :: u, t, p, d⟩ 1 = ⟨u, t, p, d⟩ := by
  simp [Cursor.advanceBy]

theorem advanceBy_le {s : Bytes} {n : ℕ} (hn : n ≤ s.length) (t : Bytes) (p d : ℕ) :
    Cursor.advanceBy ⟨s, t, p, d⟩ n = ⟨s.drop n, t, p, d⟩ := by
  have h0 : n - s.length = 0 := by omega
  simp [Cursor.advanceBy, h0]

@[simp] theorem closeBracket_mk (b : UInt8) (u t : Bytes) (p d : ℕ) :
    closeBracket ⟨b :: u, t, p, d⟩ = ⟨u, t, p, d - 1⟩ := by
  simp [closeBracket]

theorem parseStringRaw_mk (u t : Bytes) (p d : ℕ) :
    parseStringRaw ⟨ch '"' :: u, t, p, d⟩ =
      match stringLoop u StrBuf.empty with
      | .closed str rest => .ok str ⟨rest, t, p, d⟩
      | .malformed rest => .err .jsonParse ⟨rest, t, p, d⟩ := by
  cases hl : stringLoop u StrBuf.empty <;> simp [parseStringRaw, hl]

/-- The loop of a string stops at or before the end of the slice. -/
theorem stringLoop_length {u : Bytes} {buf : StrBuf} {str rest : Bytes}
    (h : stringLoop u buf = .closed str rest) : rest.length < u.length := by
  fun_induction stringLoop u buf <;> simp_all only [List.length_cons, reduceCtorEq] <;>
    grind

/-- The octets that open a string, an object or an array open nothing else. -/
theorem startsNumber_ne {b : UInt8} (hb : startsNumber b) :
    b ≠ ch '"' ∧ b ≠ ch '{' ∧ b ≠ ch '[' := by
  revert b
  unfold startsNumber
  decide +kernel

/-! ## Progress -/

section Progress

variable {t : Bytes}

theorem length_of_dropWs {s : Bytes} {b : UInt8} {u : Bytes} (hs : dropWs s = b :: u) :
    u.length < s.length := by
  have h := dropWs_length_le s
  rw [hs, List.length_cons] at h
  omega

mutual
/-- A value takes up at least one octet. -/
theorem ReadsValue.length_lt {d : ℕ} {s rest : Bytes} {v : Value} :
    ReadsValue t d s v rest → rest.length < s.length
  | .string hs hl => (stringLoop_length hl).trans (length_of_dropWs hs)
  | .number (b := b) (u := u) (n := n) hs _ _ hpos hle => by
    have hlen := length_of_dropWs hs
    simp only [List.length_drop, List.length_cons] at hle ⊢
    omega
  | .true hs => by
    have hlen := dropWs_length_le s
    rw [hs, List.length_append] at hlen
    have h4 : (ascii "true").length = 4 := by decide
    omega
  | .false hs => by
    have hlen := dropWs_length_le s
    rw [hs, List.length_append] at hlen
    have h5 : (ascii "false").length = 5 := by decide
    omega
  | .null hs => by
    have hlen := dropWs_length_le s
    rw [hs, List.length_append] at hlen
    have h4 : (ascii "null").length = 4 := by decide
    omega
  | .emptyArray hs _ hu => (length_of_dropWs hu).trans (length_of_dropWs hs)
  | .array hs _ _ hi => (hi.length_lt.trans_le (dropWs_length_le _)).trans (length_of_dropWs hs)
  | .emptyObject hs _ hu => (length_of_dropWs hu).trans (length_of_dropWs hs)
  | .object hs _ _ hm => (hm.length_lt.trans_le (dropWs_length_le _)).trans (length_of_dropWs hs)

theorem ReadsItems.length_lt {d : ℕ} {s rest : Bytes} {vs : List Value} :
    ReadsItems t d s vs rest → rest.length < s.length
  | .last hv hu => (length_of_dropWs hu).trans hv.length_lt
  | .trailing hv hu hw => ((length_of_dropWs hw).trans (length_of_dropWs hu)).trans hv.length_lt
  | .cons hv hu _ hvs =>
    ((hvs.length_lt.trans_le (dropWs_length_le _)).trans (length_of_dropWs hu)).trans hv.length_lt

theorem ReadsMembers.length_lt {d : ℕ} {s rest : Bytes} {ms : List (Bytes × Value)} :
    ReadsMembers t d s ms rest → rest.length < s.length
  | .close hs => length_of_dropWs hs
  | .last hs hk hr hv hx =>
    ((((length_of_dropWs hx).trans hv.length_lt).trans (length_of_dropWs hr)).trans
      (stringLoop_length hk)).trans (length_of_dropWs hs)
  | .cons hs hk hr hv hx hms =>
    (((((hms.length_lt.trans (length_of_dropWs hx)).trans hv.length_lt).trans
      (length_of_dropWs hr)).trans (stringLoop_length hk))).trans (length_of_dropWs hs)
end

end Progress

/-! ## Dispatch on the first octet -/

section Dispatch

variable {s u : Bytes} (t : Bytes) (p d fuel : ℕ)

attribute [local simp] parseValue parseArray parseObject arrayLoop objectLoop

theorem parseValue_string (hs : dropWs s = ch '"' :: u) :
    parseValue (fuel + 1) ⟨s, t, p, d⟩ = parseString ⟨ch '"' :: u, t, p, d⟩ := by
  simp [parseValue, hs]

theorem parseValue_object (hs : dropWs s = ch '{' :: u) :
    parseValue (fuel + 1) ⟨s, t, p, d⟩ = parseObject fuel ⟨ch '{' :: u, t, p, d⟩ := by
  have hne : ch '{' ≠ ch '"' := by decide
  simp [parseValue, hs, hne]

theorem parseValue_array (hs : dropWs s = ch '[' :: u) :
    parseValue (fuel + 1) ⟨s, t, p, d⟩ = parseArray fuel ⟨ch '[' :: u, t, p, d⟩ := by
  have hq : ch '[' ≠ ch '"' := by decide
  have ho : ch '[' ≠ ch '{' := by decide
  simp [parseValue, hs, hq, ho]

theorem parseValue_number {b : UInt8} (hs : dropWs s = b :: u) (hb : startsNumber b) :
    parseValue (fuel + 1) ⟨s, t, p, d⟩ = parseNumber ⟨b :: u, t, p, d⟩ := by
  obtain ⟨hq, ho, ha⟩ := startsNumber_ne hb
  have hnum : b = ch '-' ∨ isDigit b = true := hb
  simp [parseValue, hs, hq, ho, ha, hnum]

theorem parseValue_true (hs : dropWs s = ascii "true" ++ u) :
    parseValue (fuel + 1) ⟨s, t, p, d⟩ = .ok (.bool true) ⟨u, t, p, d⟩ := by
  simp [parseValue, hs, ascii, ch, isDigit, Cursor.advanceBy]

theorem parseValue_false (hs : dropWs s = ascii "false" ++ u) :
    parseValue (fuel + 1) ⟨s, t, p, d⟩ = .ok (.bool false) ⟨u, t, p, d⟩ := by
  simp [parseValue, hs, ascii, ch, isDigit, Cursor.advanceBy]

theorem parseValue_null (hs : dropWs s = ascii "null" ++ u) :
    parseValue (fuel + 1) ⟨s, t, p, d⟩ = .ok .null ⟨u, t, p, d⟩ := by
  simp [parseValue, hs, ascii, ch, isDigit, Cursor.advanceBy]

theorem parseArray_mk :
    parseArray (fuel + 1) ⟨ch '[' :: u, t, p, d⟩ =
      if jsonMaxDepth ≤ d then .err .jsonDepth ⟨u, t, p, d + 1⟩
      else if (dropWs u).headD 0 = ch ']' then
        .ok (.array []) (closeBracket ⟨dropWs u, t, p, d + 1⟩)
      else arrayLoop fuel ⟨dropWs u, t, p, d + 1⟩ [] := by
  simp [parseArray]

theorem parseObject_mk :
    parseObject (fuel + 1) ⟨ch '{' :: u, t, p, d⟩ =
      if jsonMaxDepth ≤ d then .err .jsonDepth ⟨u, t, p, d + 1⟩
      else if (dropWs u).headD 0 = ch '}' then
        .ok (.object []) (closeBracket ⟨dropWs u, t, p, d + 1⟩)
      else objectLoop fuel ⟨dropWs u, t, p, d + 1⟩ [] := by
  simp [parseObject]

/-- A round of the array loop that stops at a comma. -/
theorem arrayLoop_comma {v : Value} {w : Bytes} {c : Cursor} {items : List Value}
    (hv : parseValue fuel c = .ok v ⟨u, t, p, d⟩) (hu : dropWs u = ch ',' :: w) :
    arrayLoop (fuel + 1) c items =
      if (dropWs w).headD 0 = ch ']' then
        .ok (.array (items ++ [v])) (closeBracket ⟨dropWs w, t, p, d⟩)
      else arrayLoop fuel ⟨dropWs w, t, p, d⟩ (items ++ [v]) := by
  rw [arrayLoop, hv]
  simp only [peek_mk, hu, List.headD_cons, ite_true, advance_peeked hu]

/-- A round of the array loop that stops at the bracket. -/
theorem arrayLoop_close {v : Value} {w : Bytes} {c : Cursor} {items : List Value}
    (hv : parseValue fuel c = .ok v ⟨u, t, p, d⟩) (hu : dropWs u = ch ']' :: w) :
    arrayLoop (fuel + 1) c items = .ok (.array (items ++ [v])) ⟨w, t, p, d - 1⟩ := by
  have hne : ch ']' ≠ ch ',' := by decide
  rw [arrayLoop, hv]
  simp only [peek_mk, hu, List.headD_cons, hne, ite_false, ite_true, closeBracket_mk]

/-- A round of the object loop whose key is there. -/
theorem objectLoop_key {key r w : Bytes} {pairs : List (Bytes × Value)}
    (hs : dropWs s = ch '"' :: u) (hk : stringLoop u StrBuf.empty = .closed key r)
    (hr : dropWs r = ch ':' :: w) :
    objectLoop (fuel + 1) ⟨s, t, p, d⟩ pairs =
      match parseValue fuel ⟨w, t, p, d⟩ with
      | .ok v c =>
        if (peek c).1 = ch ',' then
          objectLoop fuel (advance (peek c).2).2 (putPair key v pairs)
        else if (peek c).1 = ch '}' then
          .ok (.object (putPair key v pairs)) (closeBracket (peek c).2)
        else .err .jsonParse (peek c).2
      | .err e c => .err e c
      | .overread c => .overread c
      | .outOfFuel => .outOfFuel := by
  have hne : ch '"' ≠ ch '}' := by decide
  rw [objectLoop]
  cases hv : parseValue fuel ⟨w, t, p, d⟩ <;>
    simp only [peek_mk, hs, List.headD_cons, hne, ite_false, parseStringRaw_mk, hk,
      advance_mk hr, ne_eq, not_true_eq_false, hv]

end Dispatch

/-- A first octet other than `b`, which is not NUL, as the parser tests for it. -/
theorem headD_ne {s : Bytes} {b : UInt8} (hb : b ≠ 0) (h : s.head? ≠ some b) : s.headD 0 ≠ b := by
  cases s with
  | nil => exact hb.symm
  | cons a s => simpa using h

/-! ## The parser follows every derivation -/

section Follow

variable {t : Bytes}

theorem storePairs_cons (pairs : List (Bytes × Value)) (key : Bytes) (v : Value)
    (ms : List (Bytes × Value)) :
    storePairs pairs ((key, v) :: ms) = storePairs (putPair key v pairs) ms := rfl

mutual
/-- A derived value is the parser's result, and the cursor stands after it. -/
theorem ReadsValue.parse {d : ℕ} {s rest : Bytes} {v : Value} :
    ReadsValue t d s v rest → ∀ fuel, 3 * s.length + 3 ≤ fuel →
      parseValue fuel ⟨s, t, 0, d⟩ = .ok v ⟨rest, t, 0, d⟩
  | h, 0, hf => by omega
  | .string hs hl, fuel + 1, _ => by
    rw [parseValue_string t 0 d fuel hs, parseString, parseStringRaw_mk, hl]
  | .number hs hb hn hpos hle, fuel + 1, _ => by
    rw [parseValue_number t 0 d fuel hs hb, parseNumber, hn]
    simp only [hpos, ite_false, advanceBy_le hle]
  | .true hs, fuel + 1, _ => parseValue_true t 0 d fuel hs
  | .false hs, fuel + 1, _ => parseValue_false t 0 d fuel hs
  | .null hs, fuel + 1, _ => parseValue_null t 0 d fuel hs
  | .emptyArray hs hd hu, fuel + 2, _ => by
    rw [parseValue_array t 0 d _ hs, parseArray_mk, if_neg (by omega), hu]
    simp
  | .array hs hd hu hi, fuel + 2, hf => by
    have hlen := length_of_dropWs hs
    have hws := dropWs_length_le (List.tail (dropWs s))
    rw [hs, List.tail_cons] at hws
    rw [parseValue_array t 0 d _ hs, parseArray_mk, if_neg (by omega),
      if_neg (headD_ne (by decide) hu), hi.parse fuel (by omega) []]
    simp
  | .emptyObject hs hd hu, fuel + 2, _ => by
    rw [parseValue_object t 0 d _ hs, parseObject_mk, if_neg (by omega), hu]
    simp
  | .object hs hd hu hm, fuel + 2, hf => by
    have hlen := length_of_dropWs hs
    have hws := dropWs_length_le (List.tail (dropWs s))
    rw [hs, List.tail_cons] at hws
    rw [parseValue_object t 0 d _ hs, parseObject_mk, if_neg (by omega),
      if_neg (headD_ne (by decide) hu), hm.parse fuel (by omega) []]
    simp
  | .emptyArray .., 1, hf => by omega
  | .array .., 1, hf => by omega
  | .emptyObject .., 1, hf => by omega
  | .object .., 1, hf => by omega

theorem ReadsItems.parse {d : ℕ} {s rest : Bytes} {vs : List Value} :
    ReadsItems t d s vs rest → ∀ fuel, 3 * s.length + 4 ≤ fuel → ∀ items,
      arrayLoop fuel ⟨s, t, 0, d⟩ items = .ok (.array (items ++ vs)) ⟨rest, t, 0, d - 1⟩
  | h, 0, hf => by omega
  | .last hv hu, fuel + 1, hf => fun items =>
    arrayLoop_close t 0 d fuel (hv.parse fuel (by omega)) hu
  | .trailing hv hu hw, fuel + 1, hf => by
    intro items
    rw [arrayLoop_comma t 0 d fuel (hv.parse fuel (by omega)) hu, hw]
    simp
  | .cons (w := w) hv hu hw hvs, fuel + 1, hf => by
    intro items
    have hlen := hv.length_lt
    have hcomma := length_of_dropWs hu
    have hws := dropWs_length_le w
    rw [arrayLoop_comma t 0 d fuel (hv.parse fuel (by omega)) hu,
      if_neg (headD_ne (by decide) hw), hvs.parse fuel (by omega)]
    simp

theorem ReadsMembers.parse {d : ℕ} {s rest : Bytes} {ms : List (Bytes × Value)} :
    ReadsMembers t d s ms rest → ∀ fuel, 3 * s.length + 4 ≤ fuel → ∀ pairs,
      objectLoop fuel ⟨s, t, 0, d⟩ pairs =
        .ok (.object (storePairs pairs ms)) ⟨rest, t, 0, d - 1⟩
  | h, 0, hf => by omega
  | .close hs, fuel + 1, hf => by
    intro pairs
    simp [objectLoop, hs, storePairs]
  | .last hs hk hr hv hx, fuel + 1, hf => by
    intro pairs
    have hkey := stringLoop_length hk
    have hcolon := length_of_dropWs hr
    have hquote := length_of_dropWs hs
    have hne : ch '}' ≠ ch ',' := by decide
    rw [objectLoop_key t 0 d fuel hs hk hr, hv.parse fuel (by omega)]
    simp only [peek_mk, hx, List.headD_cons, hne, ite_false, ite_true, closeBracket_mk]
    rfl
  | .cons hs hk hr hv hx hms, fuel + 1, hf => by
    intro pairs
    have hkey := stringLoop_length hk
    have hcolon := length_of_dropWs hr
    have hquote := length_of_dropWs hs
    have hval := hv.length_lt
    have hcomma := length_of_dropWs hx
    rw [objectLoop_key t 0 d fuel hs hk hr, hv.parse fuel (by omega)]
    simp only [peek_mk, hx, List.headD_cons, ite_true, advance_peeked hx]
    rw [hms.parse fuel (by omega), storePairs_cons]
end

end Follow

end SeaClaw.Json
