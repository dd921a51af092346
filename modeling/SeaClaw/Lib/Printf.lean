import SeaClaw.Lib.Strtod

/-!
# Formatted output

The conversions of `snprintf` that the program uses, as functions of the
argument: `%lu`, `%lld`, `%04x` of an octet and `%.17g`. A printed integer is a
token that `strtod` reads back whole.
-/

namespace SeaClaw.Lib

/-- `%lu` -/
def fmtNat (n : ℕ) : Bytes :=
  if n = 0 then [ch '0'] else (Nat.digits 10 n).reverse.map hexDigit

/-- `%0*u` with the width `w` -/
def fmtPad (w n : ℕ) : Bytes := List.replicate (w - (fmtNat n).length) (ch '0') ++ fmtNat n

/-- `%lld` -/
def fmtInt (i : ℤ) : Bytes := (if i < 0 then [ch '-'] else []) ++ fmtNat i.natAbs

/-- `%04x` of an octet -/
def fmtHex4 (b : UInt8) : Bytes :=
  [ch '0', ch '0', hexDigit (b.toNat / 16), hexDigit (b.toNat % 16)]

/-- Seventeen significant decimal digits of a positive magnitude, and the decimal
exponent of the first. -/
def sigDigits (q : ℚ) : ℕ × ℤ :=
  let x := Int.log 10 q
  let m := roundHalfEven (q / 10 ^ (x - 16))
  if m = 10 ^ 17 then (10 ^ 16, x + 1) else (m, x)

/-- Digits after the point, without trailing zeros and without a bare point. -/
def fmtFraction (ds : Bytes) : Bytes :=
  let kept := (ds.reverse.dropWhile (· = ch '0')).reverse
  if kept = [] then [] else ch '.' :: kept

/-- `%.17g` of a positive magnitude. -/
def fmtMag17 (q : ℚ) : Bytes :=
  let (m, x) := sigDigits q
  let ds := fmtNat m
  if x < -4 ∨ 17 ≤ x then
    let ex := fmtNat x.natAbs
    ds.take 1 ++ fmtFraction (ds.drop 1) ++ [ch 'e', if x < 0 then ch '-' else ch '+'] ++
      (if ex.length < 2 then ch '0' :: ex else ex)
  else if x < 0 then ch '0' :: fmtFraction (List.replicate (x.natAbs - 1) (ch '0') ++ ds)
  else ds.take (x.natAbs + 1) ++ fmtFraction (ds.drop (x.natAbs + 1))

/-- `%.17g` -/
def fmt17g : Binary64 → Bytes
  | .finite neg q _ =>
    (if neg then [ch '-'] else []) ++ if q = 0 then [ch '0'] else fmtMag17 q
  | .inf neg => (if neg then [ch '-'] else []) ++ ascii "inf"
  | .nan neg => (if neg then [ch '-'] else []) ++ ascii "nan"

theorem isDigit_hexDigit : ∀ d, d < 10 → isDigit (hexDigit d) = true := by decide

theorem hexDigit_eq_zero : ∀ d, d < 10 → hexDigit d = ch '0' → d = 0 := by decide

/-- The digits printed for a positive number, most significant first. -/
private theorem fmtNat_digits (n : ℕ) : ∀ d ∈ (Nat.digits 10 n).reverse, d < 10 := by
  intro d hd
  exact Nat.digits_lt_base (by decide) (List.mem_reverse.mp hd)

/-- A printed number is a plain integer token. -/
theorem fmtNat_integerText (n : ℕ) : IntegerText (fmtNat n) := by
  unfold fmtNat
  split_ifs with h0
  · exact ⟨by simp [isDigit, ch], by simp, fun _ => rfl⟩
  · have hlt := fmtNat_digits n
    have hne : Nat.digits 10 n ≠ [] := Nat.digits_ne_nil_iff_ne_zero.mpr h0
    refine ⟨?_, ?_, ?_⟩
    · intro b hb
      obtain ⟨d, hd, rfl⟩ := List.mem_map.mp hb
      exact isDigit_hexDigit d (hlt d hd)
    · simpa using hne
    · -- the most significant digit is never zero
      intro hhead
      exfalso
      have hlast : (Nat.digits 10 n).getLast hne ≠ 0 := Nat.getLast_digit_ne_zero 10 h0
      have hmem : (Nat.digits 10 n).getLast hne ∈ (Nat.digits 10 n).reverse := by
        exact List.mem_reverse.mpr (List.getLast_mem hne)
      rw [List.head?_map, List.head?_reverse, List.getLast?_eq_some_getLast hne] at hhead
      exact hlast (hexDigit_eq_zero _ (hlt _ hmem) (by simpa using hhead))

theorem length_fmtNat_le {w n : ℕ} (hw : 0 < w) (hn : n < 10 ^ w) : (fmtNat n).length ≤ w := by
  unfold fmtNat
  split_ifs with h0
  · exact hw
  · rw [List.length_map, List.length_reverse]
    exact (Nat.digits_length_le_iff (by decide) n).mpr hn

/-- A number of at most `w` digits fills the width exactly. -/
theorem length_fmtPad {w n : ℕ} (hw : 0 < w) (hn : n < 10 ^ w) : (fmtPad w n).length = w := by
  have hle := length_fmtNat_le hw hn
  rw [fmtPad, List.length_append, List.length_replicate]
  omega

/-- A printed number reads back as itself. -/
theorem natOfDigits_fmtNat (n : ℕ) : natOfDigits 10 (fmtNat n) = n := by
  unfold fmtNat
  split_ifs with h0
  · subst h0
    decide
  · have hval : ((Nat.digits 10 n).reverse.map hexDigit).reverse.map
        (fun b => (hexVal b).getD 0) = Nat.digits 10 n := by
      rw [← List.map_reverse, List.reverse_reverse, List.map_map]
      conv_rhs => rw [← List.map_id (Nat.digits 10 n)]
      apply List.map_congr_left
      intro d hd
      have hlt := fmtNat_digits n d (List.mem_reverse.mpr hd)
      simp [hexVal_hexDigit d (by omega)]
    rw [natOfDigits, hval, Nat.ofDigits_digits]

end SeaClaw.Lib
