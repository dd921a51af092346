import SeaClaw.Lib.Strtod

/-!
# Numbers of RFC 8259

A number is an integer without leading zeros, with an optional sign, fraction and exponent.
`strtod` takes the whole of such a text when what follows it continues no number.
-/

namespace SeaClaw.Json

open Lib

/-- Decimal digits, at least one. -/
structure Digits where
  octets : Bytes
  digits : ∀ b ∈ octets, isDigit b = true
  ne_nil : octets ≠ []

/-- A sign that an exponent may have. -/
inductive ExpSign where
  | none | plus | minus

def ExpSign.text : ExpSign → Bytes
  | none => []
  | plus => [ch '+']
  | minus => [ch '-']

/-- An exponent, with its letter in either case. -/
structure ExpText where
  upper : Bool
  sign : ExpSign
  digits : Digits

def ExpText.text (e : ExpText) : Bytes :=
  (if e.upper then ch 'E' else ch 'e') :: (e.sign.text ++ e.digits.octets)

/-- A number of the grammar. -/
structure NumberText where
  neg : Bool
  int : Digits
  leading : int.octets.head? = some (ch '0') → int.octets = [ch '0']
  frac : Option Digits
  exp : Option ExpText

def fracText : Option Digits → Bytes
  | none => []
  | some ds => ch '.' :: ds.octets

def expText : Option ExpText → Bytes
  | none => []
  | some e => e.text

/-- The number behind its sign. -/
def NumberText.unsigned (n : NumberText) : Bytes :=
  n.int.octets ++ (fracText n.frac ++ expText n.exp)

def NumberText.text (n : NumberText) : Bytes := (if n.neg then [ch '-'] else []) ++ n.unsigned

/-- A number starts with a digit or with the sign. -/
theorem NumberText.head (n : NumberText) :
    ∃ b u, n.text = b :: u ∧ (b = ch '-' ∨ isDigit b = true) := by
  obtain ⟨d, ds, hd⟩ := List.exists_cons_of_ne_nil n.int.ne_nil
  have hdigit := n.int.digits d (by simp [hd])
  cases hneg : n.neg with
  | true => exact ⟨_, _, by rw [text, hneg, if_pos rfl, List.singleton_append], Or.inl rfl⟩
  | false => exact ⟨d, ds ++ (fracText n.frac ++ expText n.exp), by simp [text, hneg, unsigned, hd],
      Or.inr hdigit⟩

/-! ## What `strtod` takes -/

variable {b : UInt8} (hb : EndsInteger b) (r : Bytes)
include hb

/-- The exponent is taken whole. -/
theorem readExponent_expText (e : Option ExpText) :
    ∃ x, readExponent (ch 'e') (expText e ++ b :: r) = some (x, (expText e).length) := by
  cases e with
  | none =>
    refine ⟨0, ?_⟩
    simp only [expText, List.nil_append, List.length_nil, readExponent, hb.2.2.1, if_false]
  | some e =>
    obtain ⟨d, ds, hd⟩ := List.exists_cons_of_ne_nil e.digits.ne_nil
    have hdigit := e.digits.digits d (by simp [hd])
    obtain ⟨-, -, -, hm, hp⟩ := digit_plain hdigit
    have hspan := spanMem_run e.digits.digits hb.1 r
    have hmarker : toLower (if e.upper = true then ch 'E' else ch 'e') = ch 'e' := by
      cases e.upper <;> decide
    have hsign : ∃ neg k, k = e.sign.text.length ∧
        readSign (e.sign.text ++ e.digits.octets ++ b :: r) =
          some (neg, k, e.digits.octets ++ b :: r) := by
      cases e.sign with
      | none => exact ⟨false, 0, rfl, by simp [ExpSign.text, readSign, hd, hm, hp]⟩
      | plus => exact ⟨false, 1, rfl, by simp [ExpSign.text, readSign, ch]⟩
      | minus => exact ⟨true, 1, rfl, by simp [ExpSign.text, readSign]⟩
    obtain ⟨neg, k, hk, hsign⟩ := hsign
    rw [expText, ExpText.text, List.cons_append, readExponent, if_pos hmarker, hsign]
    simp only [hspan, Option.map_some, if_neg e.digits.ne_nil]
    refine ⟨_, congrArg some (Prod.ext rfl ?_)⟩
    simp only [List.length_cons, List.length_append, hk]
    omega

/-- What stands behind the integer continues no run of digits. -/
theorem head_fraction (f : Option Digits) (e : Option ExpText) :
    ∃ c u, fracText f ++ expText e ++ b :: r = c :: u ∧ isDigit c = false ∧ toLower c ≠ ch 'x' := by
  cases f with
  | some ds => exact ⟨ch '.', _, rfl, by decide, by decide⟩
  | none =>
    cases e with
    | some e => exact ⟨_, _, rfl, by cases e.upper <;> decide, by cases e.upper <;> decide⟩
    | none => exact ⟨b, r, rfl, hb.1, hb.2.2.2⟩

/-- Integer and fraction are taken whole. -/
theorem readMantissa_number (n : NumberText) :
    ∃ frac, readMantissa isDigit (n.unsigned ++ b :: r) =
      some (n.int.octets, frac, n.int.octets.length + (fracText n.frac).length,
        expText n.exp ++ b :: r) := by
  obtain ⟨c, u, hcu, hc, -⟩ := head_fraction hb r none n.exp
  rw [fracText, List.nil_append] at hcu
  have hexp : ∃ c u, expText n.exp ++ b :: r = c :: u ∧ isDigit c = false := ⟨c, u, hcu, hc⟩
  rw [NumberText.unsigned, List.append_assoc, List.append_assoc, readMantissa]
  cases hf : n.frac with
  | some ds =>
    rw [fracText, List.cons_append, spanMem_run n.int.digits (by decide)]
    simp only [if_true]
    rw [hcu, spanMem_run ds.digits hc]
    refine ⟨ds.octets, ?_⟩
    simp only [Option.map_some, List.length_cons, Option.some.injEq, Prod.mk.injEq, true_and,
      and_true]
    omega
  | none =>
    refine ⟨[], ?_⟩
    have hdot : c ≠ ch '.' := by
      cases he : n.exp with
      | none =>
        rw [he, expText, List.nil_append, List.cons.injEq] at hcu
        rw [← hcu.1]
        exact hb.2.1
      | some e =>
        rw [he, expText, ExpText.text, List.cons_append, List.cons.injEq] at hcu
        rw [← hcu.1]
        cases e.upper <;> decide
    rw [fracText, List.nil_append, hcu, spanMem_run n.int.digits hc]
    simp only [if_neg hdot, List.length_nil, Nat.add_zero]

/-- A decimal token is the whole number behind its sign. -/
theorem readUnsigned_number (n : NumberText) :
    ∃ x, readUnsigned (n.unsigned ++ b :: r) = some (n.unsigned.length, x) := by
  obtain ⟨frac, hman⟩ := readMantissa_number hb r n
  obtain ⟨x, hexp⟩ := readExponent_expText hb r n.exp
  have hdecimal : ∃ y, readDecimal (n.unsigned ++ b :: r) = some (n.unsigned.length, y) := by
    have hnot : ¬ (n.int.octets = [] ∧ frac = []) := fun h => n.int.ne_nil h.1
    rw [readDecimal, readDigits, hman]
    simp only [if_neg hnot, hexp, Option.map_some]
    refine ⟨_, congrArg some (Prod.ext ?_ rfl)⟩
    simp only [NumberText.unsigned, List.length_append]
    omega
  obtain ⟨d, ds, hd⟩ := List.exists_cons_of_ne_nil n.int.ne_nil
  obtain ⟨hi, hn, -, -, -⟩ := digit_plain (n.int.digits d (by simp [hd]))
  have hcons : n.unsigned ++ b :: r = d :: (ds ++ (fracText n.frac ++ expText n.exp ++ b :: r)) := by
    simp [NumberText.unsigned, hd]
  rw [hcons] at hdecimal ⊢
  rw [readUnsigned.eq_def]
  simp only [if_neg hi, if_neg hn]
  split_ifs with hzero
  · -- a leading zero stands alone, and no `x` follows it
    have hds : ds = [] := by
      have hlead := n.leading (by rw [hd, hzero]; rfl)
      rw [hd, List.cons.injEq] at hlead
      exact hlead.2
    obtain ⟨c, u, hcu, -, hx⟩ := head_fraction hb r n.frac n.exp
    rw [hds, List.nil_append, hcu] at hdecimal ⊢
    simp only [if_neg hx]
    exact hdecimal
  · exact hdecimal

/-- `strtod` takes a number whole when the octet behind it continues none. -/
theorem strtod_number (n : NumberText) :
    ∃ x, strtod (n.text ++ b :: r) = some (n.text.length, x) := by
  obtain ⟨x, hx⟩ := readUnsigned_number hb r n
  obtain ⟨d, ds, hd⟩ := List.exists_cons_of_ne_nil n.int.ne_nil
  obtain ⟨-, -, -, hm, hp⟩ := digit_plain (n.int.digits d (by simp [hd]))
  have hcons : n.unsigned ++ b :: r = d :: (ds ++ (fracText n.frac ++ expText n.exp ++ b :: r)) := by
    simp [NumberText.unsigned, hd]
  have hlen : n.unsigned.length ≠ 0 := by
    simp [NumberText.unsigned, hd]
  have hsign : readSign (n.text ++ b :: r) =
      some (n.neg, if n.neg then 1 else 0, n.unsigned ++ b :: r) := by
    rw [NumberText.text]
    cases n.neg with
    | true => simp [readSign]
    | false =>
      rw [if_neg (by simp), List.nil_append, hcons, readSign, if_neg hm, if_neg hp]
      rfl
  rw [strtod, hsign]
  simp only [hx, Option.map_some, if_neg hlen]
  refine ⟨_, congrArg some (Prod.ext ?_ rfl)⟩
  simp only [NumberText.text, List.length_append]
  cases n.neg <;> rfl

end SeaClaw.Json
