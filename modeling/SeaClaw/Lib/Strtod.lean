import SeaClaw.Lib.Binary64

/-!
# Reading a number as `strtod` does

The scanner of the C library takes no length: it reads octets until one cannot
continue the number. Its argument is the readable memory from the start of the
token, and running off that memory is the result `none`. The forms are those of
the C locale: decimal, hexadecimal, infinity and not-a-number, each with an
optional sign. Leading white space is the caller's.
-/

namespace SeaClaw.Lib

/-- The longest run of octets satisfying `p`, and what follows it. The octet that
ends the run has to be readable. -/
def spanMem (p : UInt8 → Bool) : Bytes → Option (Bytes × Bytes)
  | [] => none
  | b :: s => if p b then (spanMem p s).map fun r => (b :: r.1, r.2) else some ([], b :: s)

/-- An optional sign: its polarity, its length and what follows it. -/
def readSign : Bytes → Option (Bool × ℕ × Bytes)
  | [] => none
  | b :: s =>
    if b = ch '-' then some (true, 1, s)
    else if b = ch '+' then some (false, 1, s)
    else some (false, 0, b :: s)

/-- The value of a run of digits in a base, most significant first. -/
def natOfDigits (base : ℕ) (ds : Bytes) : ℕ :=
  Nat.ofDigits base (ds.reverse.map fun b => (hexVal b).getD 0)

/-- Integer digits, then an optional point with fraction digits: the two runs, the
length of the whole and what follows it. -/
def readMantissa (p : UInt8 → Bool) (s : Bytes) : Option (Bytes × Bytes × ℕ × Bytes) :=
  match spanMem p s with
  | none => none
  | some (_, []) => none
  | some (whole, b :: r) =>
    if b = ch '.' then
      (spanMem p r).map fun f => (whole, f.1, whole.length + 1 + f.1.length, f.2)
    else some (whole, [], whole.length, b :: r)

/-- An optional exponent: its value and its length, zero when no digit follows the marker. -/
def readExponent (marker : UInt8) : Bytes → Option (ℤ × ℕ)
  | [] => none
  | b :: s =>
    if toLower b = marker then
      match readSign s with
      | none => none
      | some (neg, k, r) =>
        (spanMem isDigit r).map fun d =>
          if d.1 = [] then (0, 0)
          else (if neg then -(natOfDigits 10 d.1 : ℤ) else natOfDigits 10 d.1, 1 + k + d.1.length)
    else some (0, 0)

/-- A number without sign: its length, zero when there is none, and its magnitude as
a double of either sign. -/
abbrev Token := ℕ × (Bool → Binary64)

/-- A token of no octets. -/
def noToken : Token := (0, fun neg => Binary64.round neg 0)

/-- The power an exponent stands for. -/
def scale (base : ℕ) (e : ℤ) : ℚ := (base : ℚ) ^ e

/-- Digits in `base` with an exponent of two or ten; `offset` octets came before them. -/
def readDigits (p : UInt8 → Bool) (base expBase perDigit : ℕ) (marker : UInt8) (offset : ℕ)
    (missing : Token) (s : Bytes) : Option Token :=
  match readMantissa p s with
  | none => none
  | some (whole, frac, n, r) =>
    if whole = [] ∧ frac = [] then some missing
    else (readExponent marker r).map fun e =>
      (offset + n + e.2, fun neg => Binary64.round neg
        (natOfDigits base (whole ++ frac) * scale expBase (e.1 - perDigit * frac.length)))

/-- A decimal number. -/
def readDecimal (s : Bytes) : Option Token :=
  readDigits isDigit 10 10 1 (ch 'e') 0 noToken s

/-- The digits after `0x`; without any, the token is the zero before the letter. -/
def readHex (s : Bytes) : Option Token :=
  readDigits isHexDigit 16 2 4 (ch 'p') 2 (1, fun neg => Binary64.round neg 0) s

/-- Whether the memory starts with a word, up to letter case. -/
def matchWord : Bytes → Bytes → Option Bool
  | [], _ => some true
  | _ :: _, [] => none
  | w :: ws, b :: s => if toLower b = w then matchWord ws s else some false

/-- `inf` or `infinity`. -/
def readInf (s : Bytes) : Option Token :=
  match matchWord (ascii "inf") s with
  | none => none
  | some false => some noToken
  | some true => (matchWord (ascii "infinity") s).map fun long =>
      (if long then 8 else 3, Binary64.inf)

/-- The octets allowed between the parentheses after `nan`. -/
def isNChar (b : UInt8) : Bool :=
  isDigit b || (ch 'a' ≤ toLower b && toLower b ≤ ch 'z') || b = ch '_'

/-- `nan`, with an optional parenthesised payload. -/
def readNan (s : Bytes) : Option Token :=
  match matchWord (ascii "nan") s with
  | none => none
  | some false => some noToken
  | some true =>
    match s.drop 3 with
    | [] => none
    | b :: r =>
      if b = ch '(' then (spanMem isNChar r).map fun q =>
        (if q.2.head? = some (ch ')') then 5 + q.1.length else 3, Binary64.nan)
      else some (3, Binary64.nan)

/-- A number after its sign. -/
def readUnsigned : Bytes → Option Token
  | [] => none
  | b :: s =>
    if toLower b = ch 'i' then readInf (b :: s)
    else if toLower b = ch 'n' then readNan (b :: s)
    else if b = ch '0' then
      match s with
      | [] => none
      | x :: r => if toLower x = ch 'x' then readHex r else readDecimal (b :: x :: r)
    else readDecimal (b :: s)

/-- `strtod`: the number of octets converted, zero for no conversion, and the value. -/
def strtod (s : Bytes) : Option (ℕ × Binary64) :=
  match readSign s with
  | none => none
  | some (neg, k, r) => (readUnsigned r).map fun t =>
      if t.1 = 0 then (0, Binary64.round false 0) else (k + t.1, t.2 neg)

/-! ## Memory after a scanned token is never looked at -/

section Locality

variable {s : Bytes} (t : Bytes)

theorem spanMem_append {p : UInt8 → Bool} {r : Bytes × Bytes} (h : spanMem p s = some r) :
    spanMem p (s ++ t) = some (r.1, r.2 ++ t) := by
  induction s generalizing r with
  | nil => simp [spanMem] at h
  | cons b s ih =>
    rw [List.cons_append]
    unfold spanMem at h ⊢
    split at h
    · rename_i hp
      obtain ⟨q, hq, rfl⟩ := Option.map_eq_some_iff.mp h
      simp [hp, ih hq]
    · rename_i hp
      cases h
      simp [hp]

/-- The scanned run, then the octet that stopped it. -/
theorem spanMem_eq {p : UInt8 → Bool} {r : Bytes × Bytes} (h : spanMem p s = some r) :
    s = r.1 ++ r.2 ∧ r.2 ≠ [] := by
  induction s generalizing r with
  | nil => simp [spanMem] at h
  | cons b s ih =>
    unfold spanMem at h
    split at h
    · obtain ⟨q, hq, rfl⟩ := Option.map_eq_some_iff.mp h
      obtain ⟨hs, hne⟩ := ih hq
      exact ⟨by simp only [List.cons_append, ← hs], hne⟩
    · cases h
      simp

theorem readSign_append {neg : Bool} {k : ℕ} {r : Bytes} (h : readSign s = some (neg, k, r)) :
    readSign (s ++ t) = some (neg, k, r ++ t) := by
  cases s with
  | nil => simp [readSign] at h
  | cons b s =>
    rw [List.cons_append]
    simp only [readSign] at h ⊢
    split_ifs at h ⊢ <;> cases h <;> rfl

theorem readMantissa_append {p : UInt8 → Bool} {w f : Bytes} {n : ℕ} {r : Bytes}
    (h : readMantissa p s = some (w, f, n, r)) :
    readMantissa p (s ++ t) = some (w, f, n, r ++ t) := by
  unfold readMantissa at h ⊢
  split at h
  · contradiction
  · contradiction
  · rename_i whole b q hspan
    rw [spanMem_append t hspan]
    simp only [List.cons_append]
    split_ifs at h ⊢
    · obtain ⟨f', hf, he⟩ := Option.map_eq_some_iff.mp h
      cases he
      rw [spanMem_append t hf]
      rfl
    · cases h
      rfl

theorem readExponent_append {m : UInt8} {e : ℤ × ℕ} (h : readExponent m s = some e) :
    readExponent m (s ++ t) = some e := by
  cases s with
  | nil => simp [readExponent] at h
  | cons b s =>
    rw [List.cons_append]
    simp only [readExponent] at h ⊢
    split_ifs at h ⊢ with hb
    · cases hs : readSign s with
      | none => simp [hs] at h
      | some q =>
        obtain ⟨neg, k, r⟩ := q
        rw [readSign_append t hs]
        simp only [hs] at h ⊢
        obtain ⟨d, hd, rfl⟩ := Option.map_eq_some_iff.mp h
        rw [spanMem_append t hd]
        rfl
    · exact h

theorem readDigits_append {p : UInt8 → Bool} {base expBase perDigit offset : ℕ} {m : UInt8}
    {missing k : Token} (h : readDigits p base expBase perDigit m offset missing s = some k) :
    readDigits p base expBase perDigit m offset missing (s ++ t) = some k := by
  unfold readDigits at h ⊢
  split at h
  · contradiction
  · rename_i w f n r hm
    rw [readMantissa_append t hm]
    dsimp only
    split_ifs at h ⊢
    · exact h
    · obtain ⟨e, he, rfl⟩ := Option.map_eq_some_iff.mp h
      rw [readExponent_append t he]
      rfl

theorem matchWord_append {w : Bytes} {b : Bool} (h : matchWord w s = some b) :
    matchWord w (s ++ t) = some b := by
  induction w generalizing s with
  | nil => simpa [matchWord] using h
  | cons c w ih =>
    cases s with
    | nil => simp [matchWord] at h
    | cons x s =>
      simp only [List.cons_append, matchWord] at h ⊢
      split_ifs at h ⊢
      · exact ih h
      · exact h

theorem readInf_append {k : Token} (h : readInf s = some k) : readInf (s ++ t) = some k := by
  unfold readInf at h ⊢
  split at h
  · contradiction
  · rename_i hw
    rw [matchWord_append t hw]
    exact h
  · rename_i hw
    obtain ⟨b, hb, rfl⟩ := Option.map_eq_some_iff.mp h
    rw [matchWord_append t hw, matchWord_append t hb]
    rfl

theorem readNan_append {k : Token} (h : readNan s = some k) : readNan (s ++ t) = some k := by
  unfold readNan at h ⊢
  split at h
  · contradiction
  · rename_i hw
    rw [matchWord_append t hw]
    exact h
  · rename_i hw
    rw [matchWord_append t hw]
    cases hd : s.drop 3 with
    | nil => simp [hd] at h
    | cons b r =>
      have hlen : 3 ≤ s.length := by
        by_contra hl
        rw [List.drop_eq_nil_of_le (by omega)] at hd
        contradiction
      rw [List.drop_append_of_le_length hlen, hd]
      simp only [hd, List.cons_append] at h ⊢
      split_ifs at h ⊢
      · obtain ⟨q, hq, rfl⟩ := Option.map_eq_some_iff.mp h
        rw [spanMem_append t hq]
        have hne := (spanMem_eq hq).2
        cases hq2 : q.2 with
        | nil => exact absurd hq2 hne
        | cons c u => simp
      · exact h

theorem readUnsigned_append {k : Token} (h : readUnsigned s = some k) :
    readUnsigned (s ++ t) = some k := by
  cases s with
  | nil => simp [readUnsigned] at h
  | cons b s =>
    rw [List.cons_append]
    simp only [readUnsigned] at h ⊢
    split_ifs at h ⊢ with h1 h2 h3
    · exact readInf_append t h
    · exact readNan_append t h
    · cases s with
      | nil => simp at h
      | cons x r =>
        simp only [List.cons_append] at h ⊢
        split_ifs at h ⊢
        · exact readDigits_append t h
        · exact readDigits_append t h
    · exact readDigits_append t h

/-- A token that ends inside the readable memory is read the same in any larger memory. -/
theorem strtod_append {r : ℕ × Binary64} (h : strtod s = some r) : strtod (s ++ t) = some r := by
  unfold strtod at h ⊢
  split at h
  · contradiction
  · rename_i neg k q hs
    obtain ⟨u, hu, rfl⟩ := Option.map_eq_some_iff.mp h
    rw [readSign_append t hs]
    simp only [readUnsigned_append t hu, Option.map_some]

end Locality

/-! ## The token lies in the memory scanned -/

theorem readSign_length {s : Bytes} {neg : Bool} {k : ℕ} {r : Bytes}
    (h : readSign s = some (neg, k, r)) : k + r.length = s.length := by
  cases s with
  | nil => simp [readSign] at h
  | cons b s =>
    simp only [readSign] at h
    split_ifs at h <;> cases h <;> simp only [List.length_cons] <;> omega

theorem readMantissa_length {p : UInt8 → Bool} {s w f : Bytes} {n : ℕ} {r : Bytes}
    (h : readMantissa p s = some (w, f, n, r)) : n + r.length = s.length := by
  unfold readMantissa at h
  split at h
  · contradiction
  · contradiction
  · rename_i whole b q hspan
    have hs := (spanMem_eq hspan).1
    split_ifs at h
    · obtain ⟨f', hf, he⟩ := Option.map_eq_some_iff.mp h
      have hq := (spanMem_eq hf).1
      cases he
      rw [hs, hq]
      simp only [List.length_append, List.length_cons]
      omega
    · cases h
      rw [hs, List.length_append]

theorem readExponent_length {m : UInt8} {s : Bytes} {e : ℤ × ℕ} (h : readExponent m s = some e) :
    e.2 ≤ s.length := by
  cases s with
  | nil => simp [readExponent] at h
  | cons b s =>
    simp only [readExponent] at h
    split_ifs at h
    · cases hs : readSign s with
      | none => simp [hs] at h
      | some q =>
        obtain ⟨neg, k, r⟩ := q
        have hk := readSign_length hs
        simp only [hs] at h
        obtain ⟨d, hd, rfl⟩ := Option.map_eq_some_iff.mp h
        have hr := congrArg List.length (spanMem_eq hd).1
        rw [List.length_append] at hr
        split_ifs <;> simp only [List.length_cons] <;> omega
    · cases h
      exact Nat.zero_le _

theorem readDigits_length {p : UInt8 → Bool} {base expBase perDigit offset : ℕ} {m : UInt8}
    {missing k : Token} {s : Bytes} (hm : missing.1 ≤ offset + s.length)
    (h : readDigits p base expBase perDigit m offset missing s = some k) :
    k.1 ≤ offset + s.length := by
  unfold readDigits at h
  split at h
  · contradiction
  · rename_i w f n r hman
    have hn := readMantissa_length hman
    split_ifs at h
    · cases h
      exact hm
    · obtain ⟨e, he, rfl⟩ := Option.map_eq_some_iff.mp h
      have := readExponent_length he
      dsimp only
      omega

theorem matchWord_length {w s : Bytes} (h : matchWord w s = some true) : w.length ≤ s.length := by
  induction w generalizing s with
  | nil => exact Nat.zero_le _
  | cons c w ih =>
    cases s with
    | nil => simp [matchWord] at h
    | cons x s =>
      simp only [matchWord] at h
      split_ifs at h
      · simpa using ih h
      · simp at h

theorem readInf_length {s : Bytes} {k : Token} (h : readInf s = some k) : k.1 ≤ s.length := by
  unfold readInf at h
  split at h
  · contradiction
  · cases h
    exact Nat.zero_le _
  · rename_i hw
    obtain ⟨b, hb, rfl⟩ := Option.map_eq_some_iff.mp h
    have hshort : 3 ≤ s.length := matchWord_length hw
    cases b with
    | false => exact hshort
    | true =>
      have hlong : 8 ≤ s.length := matchWord_length hb
      exact hlong

theorem readNan_length {s : Bytes} {k : Token} (h : readNan s = some k) : k.1 ≤ s.length := by
  unfold readNan at h
  split at h
  · contradiction
  · cases h
    exact Nat.zero_le _
  · rename_i hw
    have hshort : 3 ≤ s.length := matchWord_length hw
    cases hd : s.drop 3 with
    | nil => simp [hd] at h
    | cons b r =>
      have hlen := congrArg List.length hd
      simp only [List.length_drop, List.length_cons] at hlen
      simp only [hd] at h
      split_ifs at h
      · obtain ⟨q, hq, rfl⟩ := Option.map_eq_some_iff.mp h
        obtain ⟨hr, hne⟩ := spanMem_eq hq
        have hr' := congrArg List.length hr
        have hpos := List.length_pos_iff.mpr hne
        rw [List.length_append] at hr'
        dsimp only
        split_ifs <;> omega
      · cases h
        exact hshort

theorem readUnsigned_length {s : Bytes} {k : Token} (h : readUnsigned s = some k) :
    k.1 ≤ s.length := by
  cases s with
  | nil => simp [readUnsigned] at h
  | cons b s =>
    have hdec {k : Token} (hk : readDecimal (b :: s) = some k) : k.1 ≤ (b :: s).length := by
      simpa using readDigits_length (by simp [noToken]) hk
    simp only [readUnsigned] at h
    split_ifs at h
    · exact readInf_length h
    · exact readNan_length h
    · cases s with
      | nil => simp at h
      | cons x r =>
        simp only at h
        split_ifs at h
        · have := readDigits_length (by dsimp only; omega) h
          simp only [List.length_cons]
          omega
        · exact hdec h
    · exact hdec h

/-- `strtod` never converts more octets than it was given. -/
theorem strtod_length {s : Bytes} {n : ℕ} {x : Binary64} (h : strtod s = some (n, x)) :
    n ≤ s.length := by
  unfold strtod at h
  split at h
  · contradiction
  · rename_i neg k r hs
    obtain ⟨u, hu, he⟩ := Option.map_eq_some_iff.mp h
    have hk := readSign_length hs
    have hlen := readUnsigned_length hu
    split_ifs at he <;> cases he <;> omega

/-! ## Integers -/

/-- A nonempty run of decimal digits that starts with a nonzero digit, or is just `0`. -/
structure IntegerText (ds : Bytes) : Prop where
  digits : ∀ b ∈ ds, isDigit b = true
  nonempty : ds ≠ []
  leading : ds.head? = some (ch '0') → ds = [ch '0']

/-- The octets that continue no integer: neither digit, point, exponent nor `0x`. -/
def EndsInteger (b : UInt8) : Prop :=
  isDigit b = false ∧ b ≠ ch '.' ∧ toLower b ≠ ch 'e' ∧ toLower b ≠ ch 'x'

instance (b : UInt8) : Decidable (EndsInteger b) := inferInstanceAs (Decidable (_ ∧ _))

theorem spanMem_run {p : UInt8 → Bool} {ds : Bytes} (hd : ∀ b ∈ ds, p b = true) {b : UInt8}
    (hb : p b = false) (t : Bytes) : spanMem p (ds ++ b :: t) = some (ds, b :: t) := by
  induction ds with
  | nil => simp [spanMem, hb]
  | cons d ds ih =>
    have hp := hd d (List.mem_cons_self ..)
    have ht := ih fun x hx => hd x (List.mem_cons_of_mem _ hx)
    simp [spanMem, hp, ht]

theorem readDecimal_integer {ds : Bytes} (h : IntegerText ds) {b : UInt8} (hb : EndsInteger b)
    (t : Bytes) : readDecimal (ds ++ b :: t) =
      some (ds.length, fun neg => Binary64.round neg (natOfDigits 10 ds)) := by
  obtain ⟨hdigit, hdot, hexp, -⟩ := hb
  have hman : readMantissa isDigit (ds ++ b :: t) = some (ds, [], ds.length, b :: t) := by
    unfold readMantissa
    rw [spanMem_run h.digits hdigit]
    simp only [hdot, ite_false]
  have hnone : readExponent (ch 'e') (b :: t) = some (0, 0) := by
    simp only [readExponent, hexp, ite_false]
  unfold readDecimal readDigits
  rw [hman]
  simp only [h.nonempty, false_and, ite_false, hnone, Option.map_some]
  simp [scale]

/-- A digit opens neither a word nor a sign. -/
theorem digit_plain {b : UInt8} (h : isDigit b = true) : toLower b ≠ ch 'i' ∧
    toLower b ≠ ch 'n' ∧ toLower b ≠ ch 'x' ∧ b ≠ ch '-' ∧ b ≠ ch '+' := by
  revert b
  decide +kernel

theorem readUnsigned_integer {ds : Bytes} (h : IntegerText ds) {b : UInt8} (hb : EndsInteger b)
    (t : Bytes) : readUnsigned (ds ++ b :: t) =
      some (ds.length, fun neg => Binary64.round neg (natOfDigits 10 ds)) := by
  have hdec := readDecimal_integer h hb t
  cases ds with
  | nil => exact absurd rfl h.nonempty
  | cons d ds =>
    obtain ⟨hi, hn, -, -, -⟩ := digit_plain (h.digits d (List.mem_cons_self ..))
    rw [List.cons_append] at hdec ⊢
    simp only [readUnsigned, hi, hn, ite_false]
    split_ifs with hz
    · -- a leading zero stands alone, so the next octet is the one that ends the token
      have hds : ds = [] := by
        have := h.leading (by simp [hz])
        simpa [hz] using this
      subst hds
      simp only [List.nil_append, hb.2.2.2, ite_false]
      exact hdec
    · exact hdec

/-- An integer token is converted whole, to the double nearest to it. -/
theorem strtod_integer {ds : Bytes} (h : IntegerText ds) {b : UInt8} (hb : EndsInteger b)
    (neg : Bool) (t : Bytes) :
    strtod ((if neg then [ch '-'] else []) ++ ds ++ b :: t) =
      some ((if neg then 1 else 0) + ds.length, Binary64.round neg (natOfDigits 10 ds)) := by
  have hne : ds.length ≠ 0 := fun h0 => h.nonempty (List.length_eq_zero_iff.mp h0)
  have hsign : readSign ((if neg then [ch '-'] else []) ++ ds ++ b :: t) =
      some (neg, if neg then 1 else 0, ds ++ b :: t) := by
    cases neg with
    | true => simp [readSign]
    | false =>
      cases ds with
      | nil => exact absurd rfl h.nonempty
      | cons d ds =>
        obtain ⟨-, -, -, hm, hp⟩ := digit_plain (h.digits d (List.mem_cons_self ..))
        simp [readSign, hm, hp]
  unfold strtod
  rw [hsign]
  simp only [readUnsigned_integer h hb t, Option.map_some, hne, ite_false]

end SeaClaw.Lib
