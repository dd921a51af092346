import SeaClaw.Json.Grammar
import SeaClaw.Json.Value

/-!
# Parsing what was printed

The text of a value is a derivation of that value, whatever may follow it in
memory as long as it does not continue a number. The induction is on the value,
with one step for each of the two lists it nests.
-/

namespace SeaClaw.Json

open Lib

mutual
/-- The values with an exact text: integers below `10 ^ 15`, and objects whose keys
are pairwise distinct. -/
def Value.Plain : Value → Prop
  | .number x => ∃ (i : ℤ) (h : i.natAbs < 10 ^ 15),
      x = Binary64.ofInt i (lt_two_pow_53 h)
  | .array items => PlainItems items
  | .object pairs => (pairs.map (·.1)).Nodup ∧ PlainPairs pairs
  | _ => True

def PlainItems : List Value → Prop
  | [] => True
  | v :: vs => v.Plain ∧ PlainItems vs

def PlainPairs : List (Bytes × Value) → Prop
  | [] => True
  | (_, v) :: ps => v.Plain ∧ PlainPairs ps
end

/-! ## Strings -/

theorem codeUnit_fmtHex4 : ∀ c : UInt8, codeUnit (ch '0') (ch '0') (hexDigit (c.toNat / 16))
    (hexDigit (c.toNat % 16)) = some c.toNat := by decide +kernel

/-- The loop reads back the octet that was escaped. -/
theorem stringLoop_escapeOctet (c : UInt8) (t : Bytes) (buf : StrBuf) :
    stringLoop (escapeOctet c ++ t) buf = stringLoop t (buf.push c) := by
  unfold escapeOctet
  split_ifs with h1 h2 h3 h4 h5 h6 h7 h8
  · exact h1 ▸ stringLoop_simple t buf (by decide)
  · exact h2 ▸ stringLoop_simple t buf (by decide)
  · exact h3 ▸ stringLoop_simple t buf (by decide)
  · exact h4 ▸ stringLoop_simple t buf (by decide)
  · exact h5 ▸ stringLoop_simple t buf (by decide)
  · exact h6 ▸ stringLoop_simple t buf (by decide)
  · exact h7 ▸ stringLoop_simple t buf (by decide)
  · have hlt : c.toNat < 0x20 := h8
    have hpush : buf.pushEscape c.toNat = buf.push c := by
      simp [StrBuf.pushEscape, show c.toNat < 0x80 by omega]
    rw [← hpush]
    exact stringLoop_unicode t buf (codeUnit_fmtHex4 c) (by omega)
  · exact stringLoop_plain t buf h1 h2 h8

/-- The loop reads back a printed string, up to its closing quote. -/
theorem stringLoop_stringify (s t : Bytes) (buf : StrBuf) :
    stringLoop (s.flatMap escapeOctet ++ ch '"' :: t) buf = .closed (buf.bytes ++ s) t := by
  induction s generalizing buf with
  | nil => simp
  | cons c s ih =>
    rw [List.flatMap_cons, List.append_assoc, stringLoop_escapeOctet, ih]
    simp

/-! ## Numbers -/

/-- What may follow a number: an octet that does not continue it. -/
def Follows (s : Bytes) : Prop := ∃ b r, s = b :: r ∧ EndsInteger b

theorem follows_append {s : Bytes} (h : Follows s) (t : Bytes) : Follows (s ++ t) := by
  obtain ⟨b, r, rfl, hb⟩ := h
  exact ⟨b, r ++ t, rfl, hb⟩

theorem follows_cons {b : UInt8} (hb : EndsInteger b) (s : Bytes) : Follows (b :: s) :=
  ⟨b, s, rfl, hb⟩

/-- A printed integer opens like a number. -/
theorem fmtInt_head (i : ℤ) : ∃ b u, fmtInt i = b :: u ∧ startsNumber b := by
  unfold fmtInt
  split_ifs with h
  · exact ⟨ch '-', fmtNat i.natAbs, rfl, Or.inl rfl⟩
  · have htext := fmtNat_integerText i.natAbs
    obtain ⟨b, u, hu⟩ := List.exists_cons_of_ne_nil htext.nonempty
    exact ⟨b, u, hu, Or.inr (htext.digits b (by rw [hu]; exact List.mem_cons_self ..))⟩

/-- White space opens no number, and neither does a closing bracket. -/
theorem startsNumber_plain {b : UInt8} (hb : startsNumber b) : isWs b = false ∧ b ≠ ch ']' := by
  revert b
  unfold startsNumber
  decide +kernel

theorem dropWs_cons {b : UInt8} (hb : isWs b = false) (s : Bytes) : dropWs (b :: s) = b :: s := by
  simp [dropWs, hb]

/-- The token `strtod` finds in a printed integer is all of it. -/
theorem strtod_fmtInt (i : ℤ) (hi : i.natAbs < 2 ^ 53) {s : Bytes} (hs : Follows s) :
    strtod (fmtInt i ++ s) = some ((fmtInt i).length, Binary64.ofInt i hi) := by
  obtain ⟨b, r, rfl, hb⟩ := hs
  have htok := strtod_integer (fmtNat_integerText i.natAbs) hb (decide (i < 0)) r
  have hround := Binary64.round_natCast (decide (i < 0)) hi
  rw [natOfDigits_fmtNat, hround] at htok
  by_cases h : i < 0 <;> simpa [fmtInt, h, Binary64.ofInt, Nat.add_comm] using htok

/-- A small integer is printed with `%lld`. -/
theorem stringifyNumber_ofInt {i : ℤ} (hi : i.natAbs < 10 ^ 15) :
    stringifyNumber (Binary64.ofInt i (lt_two_pow_53 hi)) = fmtInt i := by
  have hlt : (i.natAbs : ℚ) < 10 ^ 15 := by exact_mod_cast hi
  simp only [Binary64.ofInt, stringifyNumber, Rat.den_natCast, Rat.num_natCast, hlt, and_self,
    ite_true, decide_eq_true_eq]
  split_ifs with hneg <;> congr 1 <;> omega

/-! ## Values -/

/-- A printed value opens with an octet that the parser does not skip and that closes
no array. -/
theorem stringifyValue_head {v : Value} (hv : v.Plain) :
    ∃ b u, stringifyValue v = b :: u ∧ isWs b = false ∧ b ≠ ch ']' := by
  cases v with
  | null => exact ⟨ch 'n', ascii "ull", rfl, by decide⟩
  | bool b =>
    cases b with
    | true => exact ⟨ch 't', ascii "rue", rfl, by decide⟩
    | false => exact ⟨ch 'f', ascii "alse", rfl, by decide⟩
  | number x =>
    obtain ⟨i, hi, rfl⟩ := hv
    obtain ⟨b, u, hu, hb⟩ := fmtInt_head i
    exact ⟨b, u, by rw [stringifyValue, stringifyNumber_ofInt hi, hu], startsNumber_plain hb⟩
  | string s => exact ⟨ch '"', _, by rw [stringifyValue, stringifyString], by decide⟩
  | array items => exact ⟨ch '[', _, by rw [stringifyValue], by decide⟩
  | object pairs => exact ⟨ch '{', _, by rw [stringifyValue], by decide⟩

/-- The elements after the first are printed with a comma before each. -/
theorem stringifyItems_succ (i : ℕ) (v : Value) (vs : List Value) :
    stringifyItems (i + 1) (v :: vs) = ch ',' :: stringifyValue v ++ stringifyItems (i + 2) vs := by
  simp [stringifyItems]

theorem stringifyPairs_succ (i : ℕ) (k : Bytes) (v : Value) (ps : List (Bytes × Value)) :
    stringifyPairs (i + 1) ((k, v) :: ps) =
      ch ',' :: (stringifyString k ++ ch ':' :: (stringifyValue v ++ stringifyPairs (i + 2) ps)) := by
  simp [stringifyPairs]

/-- Pairs with new keys are stored at the end, in order. -/
theorem putPair_new {key : Bytes} {v : Value} {pairs : List (Bytes × Value)}
    (h : key ∉ pairs.map (·.1)) : putPair key v pairs = pairs ++ [(key, v)] := by
  induction pairs with
  | nil => rfl
  | cons p ps ih =>
    simp only [List.map_cons, List.mem_cons, not_or] at h
    rw [putPair, if_neg (Ne.symm h.1), ih h.2, List.cons_append]

theorem storePairs_nodup (ms pairs : List (Bytes × Value))
    (h : ((pairs ++ ms).map (·.1)).Nodup) : storePairs pairs ms = pairs ++ ms := by
  induction ms generalizing pairs with
  | nil => simp [storePairs]
  | cons m ms ih =>
    obtain ⟨key, v⟩ := m
    have hnew : key ∉ pairs.map (·.1) := by
      simp only [List.map_append, List.map_cons, List.nodup_append, List.mem_cons] at h
      exact fun hk => h.2.2 key hk key (Or.inl rfl) rfl
    rw [storePairs_cons, putPair_new hnew, ih _ (by simpa using h)]
    simp

section Reads

variable (t : Bytes)

theorem reads_fmtInt {d : ℕ} (i : ℤ) (hi : i.natAbs < 2 ^ 53) {rest : Bytes}
    (hs : Follows (rest ++ t)) :
    ReadsValue t d (fmtInt i ++ rest) (.number (Binary64.ofInt i hi)) rest := by
  have htok := strtod_fmtInt i hi hs
  obtain ⟨b, u, hu, hb⟩ := fmtInt_head i
  rw [hu] at htok ⊢
  have hread := ReadsValue.number (t := t) (d := d) (s := b :: u ++ rest)
    (dropWs_cons (startsNumber_plain hb).1 (u ++ rest)) hb
    (by rw [← List.cons_append, List.append_assoc]; exact htok)
    (by simp) (by simp)
  rwa [← List.cons_append, List.drop_left] at hread

/-- What `ReadsMembers` needs to know of a printed key. -/
theorem stringLoop_key (k r : Bytes) : ∃ u, stringifyString k ++ r = ch '"' :: u ∧
    stringLoop u StrBuf.empty = .closed k r :=
  ⟨k.flatMap escapeOctet ++ ch '"' :: r, by simp [stringifyString], by
    simpa using stringLoop_stringify k r StrBuf.empty⟩

mutual
/-- The text of a value derives the value. -/
theorem reads_stringify : ∀ (v : Value), v.Plain → ∀ d, d + v.depth ≤ jsonMaxDepth → ∀ rest,
    Follows (rest ++ t) → ReadsValue t d (stringifyValue v ++ rest) v rest
  | .null, _, d, _, rest, _ => .null (by rw [stringifyValue]; rfl)
  | .bool true, _, d, _, rest, _ => .true (by rw [stringifyValue]; rfl)
  | .bool false, _, d, _, rest, _ => .false (by rw [stringifyValue]; rfl)
  | .number x, hv, d, _, rest, hf => by
    obtain ⟨i, hi, rfl⟩ := hv
    rw [stringifyValue, stringifyNumber_ofInt hi]
    exact reads_fmtInt t i _ hf
  | .string s, _, d, _, rest, _ => by
    obtain ⟨u, hu, hl⟩ := stringLoop_key s rest
    rw [stringifyValue, hu]
    exact .string rfl hl
  | .array [], _, d, hd, rest, _ => by
    rw [Value.depth] at hd
    rw [stringifyValue, stringifyItems]
    exact .emptyArray rfl (by omega) rfl
  | .array (v :: vs), hv, d, hd, rest, _ => by
    rw [Value.Plain, PlainItems] at hv
    rw [Value.depth, itemsDepth] at hd
    obtain ⟨b, u, hu, hws, hb⟩ := stringifyValue_head hv.1
    have hitems := reads_stringifyItems vs hv.2 (d + 1) (by omega) v 0 rest
      (reads_stringify v hv.1 (d + 1) (by omega))
    have hdrop : dropWs (stringifyValue v ++ stringifyItems 1 vs ++ ch ']' :: rest) =
        stringifyValue v ++ stringifyItems 1 vs ++ ch ']' :: rest := by
      rw [hu]
      exact dropWs_cons hws _
    refine .array (u := stringifyValue v ++ stringifyItems 1 vs ++ ch ']' :: rest) ?_ (by omega)
      ?_ (by rw [hdrop]; exact hitems)
    · simp [stringifyValue, stringifyItems, dropWs, isWs, ch]
    · rw [hdrop, hu]
      simpa using hb
  | .object [], _, d, hd, rest, _ => by
    rw [Value.depth] at hd
    rw [stringifyValue, stringifyPairs]
    exact .emptyObject rfl (by omega) rfl
  | .object ((k, v) :: ps), hv, d, hd, rest, _ => by
    rw [Value.Plain, PlainPairs] at hv
    rw [Value.depth, pairsDepth] at hd
    have hmembers := reads_stringifyPairs ps hv.2.2 (d + 1) (by omega) k v 0 rest
      (reads_stringify v hv.2.1 (d + 1) (by omega))
    obtain ⟨u, hu, -⟩ := stringLoop_key k
      (ch ':' :: (stringifyValue v ++ (stringifyPairs 1 ps ++ ch '}' :: rest)))
    have hdrop : ∀ x : Bytes, dropWs (stringifyString k ++ x) = stringifyString k ++ x := by
      intro x
      rw [stringifyString, List.cons_append]
      exact dropWs_cons (by decide) _
    have hread := ReadsValue.object (t := t) (d := d)
      (s := ch '{' :: (stringifyString k ++
        ch ':' :: (stringifyValue v ++ (stringifyPairs 1 ps ++ ch '}' :: rest))))
      rfl (by omega) (by rw [hdrop, hu]; simp [ch]) (by rw [hdrop]; exact hmembers)
    rw [storePairs_nodup _ _ (by simpa using hv.1), List.nil_append] at hread
    simpa [stringifyValue, stringifyPairs] using hread

/-- The rest of an array after the text of its first element. -/
theorem reads_stringifyItems : ∀ (vs : List Value), PlainItems vs → ∀ d,
    d + itemsDepth vs ≤ jsonMaxDepth → ∀ v i rest,
      (∀ x, Follows (x ++ t) → ReadsValue t d (stringifyValue v ++ x) v x) →
      ReadsItems t d (stringifyValue v ++ stringifyItems (i + 1) vs ++ ch ']' :: rest)
        (v :: vs) rest
  | [], _, d, _, v, i, rest, hv => by
    rw [stringifyItems, List.append_nil]
    exact .last (hv _ (follows_cons (by decide) _)) rfl
  | w :: ws, hws, d, hd, v, i, rest, hv => by
    rw [PlainItems] at hws
    rw [itemsDepth] at hd
    obtain ⟨b, u, hu, hb, hne⟩ := stringifyValue_head hws.1
    have hitems := reads_stringifyItems ws hws.2 d (by omega) w (i + 1) rest
      (reads_stringify w hws.1 d (by omega))
    have hdrop : dropWs (stringifyValue w ++ stringifyItems (i + 2) ws ++ ch ']' :: rest) =
        stringifyValue w ++ stringifyItems (i + 2) ws ++ ch ']' :: rest := by
      rw [hu]
      exact dropWs_cons hb _
    rw [stringifyItems_succ, List.append_assoc]
    refine .cons (w := stringifyValue w ++ stringifyItems (i + 2) ws ++ ch ']' :: rest)
      (hv _ (follows_cons (by decide) _)) rfl ?_ (by rw [hdrop]; exact hitems)
    · rw [hdrop, hu]
      simpa using hne

/-- The rest of an object after the value of its first member. -/
theorem reads_stringifyPairs : ∀ (ps : List (Bytes × Value)), PlainPairs ps → ∀ d,
    d + pairsDepth ps ≤ jsonMaxDepth → ∀ k v i rest,
      (∀ x, Follows (x ++ t) → ReadsValue t d (stringifyValue v ++ x) v x) →
      ReadsMembers t d (stringifyString k ++
        ch ':' :: (stringifyValue v ++ (stringifyPairs (i + 1) ps ++ ch '}' :: rest)))
        ((k, v) :: ps) rest
  | [], _, d, _, k, v, i, rest, hv => by
    obtain ⟨u, hu, hk⟩ := stringLoop_key k (ch ':' :: (stringifyValue v ++ ch '}' :: rest))
    rw [stringifyPairs, List.nil_append, hu]
    exact .last rfl hk rfl (hv _ (follows_cons (by decide) _)) rfl
  | (k', w) :: ps, hps, d, hd, k, v, i, rest, hv => by
    rw [PlainPairs] at hps
    rw [pairsDepth] at hd
    have hmembers := reads_stringifyPairs ps hps.2 d (by omega) k' w (i + 1) rest
      (reads_stringify w hps.1 d (by omega))
    obtain ⟨u, hu, hk⟩ := stringLoop_key k
      (ch ':' :: (stringifyValue v ++ (stringifyPairs (i + 1) ((k', w) :: ps) ++ ch '}' :: rest)))
    rw [hu]
    refine .cons rfl hk rfl (hv _ ?_) ?_ hmembers
    · rw [stringifyPairs_succ]
      exact follows_cons (by decide) _
    · simp [stringifyPairs_succ, dropWs, isWs, ch]
end

end Reads

/-- Parsing the text of a value gives the value back and uses up the text, unless the
octet in memory after it would continue a number. -/
theorem scJsonParse_of_follows {v : Value} (hv : v.Plain) (hd : v.depth ≤ jsonMaxDepth)
    {t : Bytes} (ht : Follows t) : scJsonParse (scJsonStringify v) t = .ok v ⟨[], t, 0, 0⟩ := by
  have hread := reads_stringify t v hv 0 (by omega) [] ht
  rw [List.append_nil] at hread
  exact hread.parse _ (by rw [fuelFor, scJsonStringify])

/-- The printer ends its text with NUL, so parsing it always gives the value back. -/
theorem scJsonParse_scJsonStringify (v : Value) (hv : v.Plain) (hd : v.depth ≤ jsonMaxDepth)
    (t : Bytes) : scJsonParse (scJsonStringify v) (0 :: t) = .ok v ⟨[], 0 :: t, 0, 0⟩ :=
  scJsonParse_of_follows hv hd (follows_cons (by decide) t)

theorem seven_lt : (-7 : ℤ).natAbs < 2 ^ 53 := by decide

/-- An object with an empty key, a key that holds NUL, a nested array and a control octet. -/
theorem scJsonParse_scJsonStringify_object :
    scJsonParse (scJsonStringify (.object [([], .array [.number (Binary64.ofInt (-7) seven_lt),
        .null, .array []]), ([0, ch '"'], .string [0x1F, ch '\\', 0xFF])])) [0] =
      .ok (.object [([], .array [.number (Binary64.ofInt (-7) seven_lt), .null, .array []]),
        ([0, ch '"'], .string [0x1F, ch '\\', 0xFF])]) ⟨[], [0], 0, 0⟩ := by
  refine scJsonParse_scJsonStringify _ ?_ (by simp [Value.depth, itemsDepth, pairsDepth,
    jsonMaxDepth]) []
  refine ⟨by simp, ⟨⟨-7, by norm_num, rfl⟩, trivial, ?_, trivial⟩, trivial, trivial⟩
  simp [Value.Plain, PlainItems]

end SeaClaw.Json
