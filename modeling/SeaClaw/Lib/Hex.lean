import SeaClaw.Lib.CString

/-!
# Hexadecimal text

Octets printed as pairs of lower-case digits, and read back from digits of either letter
case. A text spells some octets exactly when its lower-case form is their print.
-/

namespace SeaClaw.Lib

/-- Exactly `n` octets. -/
abbrev Octets (n : ℕ) := { b : Bytes // b.length = n }

/-- Two lower-case digits for each octet. -/
def hexEncode : Bytes → Bytes
  | [] => []
  | b :: s => hexDigit (b.toNat / 16) :: hexDigit (b.toNat % 16) :: hexEncode s

/-- The octets that pairs of digits of either case spell. -/
def hexDecode : Bytes → Option Bytes
  | [] => some []
  | [_] => none
  | h :: l :: s =>
    match hexVal h, hexVal l with
    | some x, some y => (hexDecode s).map fun b => (x * 16 + y).toUInt8 :: b
    | _, _ => none

theorem length_hexEncode (s : Bytes) : (hexEncode s).length = 2 * s.length := by
  induction s with
  | nil => rfl
  | cons b s ih =>
    simp only [hexEncode, List.length_cons, ih]
    omega

theorem hexVal_eq_some_iff : ∀ x : UInt8, ∀ n < 16, hexVal x = some n ↔ toLower x = hexDigit n := by
  decide +kernel

theorem hexDigit_injective : ∀ n < 16, ∀ m < 16, hexDigit n = hexDigit m → n = m := by decide

theorem toNat_div_mod (b : UInt8) : (b.toNat / 16 * 16 + b.toNat % 16).toUInt8 = b := by
  rw [Nat.div_add_mod' b.toNat 16]
  simp

theorem toUInt8_nibbles {x y : ℕ} (hx : x < 16) (hy : y < 16) :
    (x * 16 + y).toUInt8.toNat / 16 = x ∧ (x * 16 + y).toUInt8.toNat % 16 = y := by
  have hnat : (x * 16 + y).toUInt8.toNat = x * 16 + y := by
    simp
    omega
  rw [hnat]
  omega

/-- A text spells `b` exactly when its lower-case form is the print of `b`. -/
theorem hexDecode_eq_some_iff {s b : Bytes} :
    hexDecode s = some b ↔ s.map toLower = hexEncode b := by
  induction s using hexDecode.induct generalizing b with
  | case1 =>
    cases b <;> simp [hexDecode, hexEncode]
  | case2 x =>
    cases b <;> simp [hexDecode, hexEncode]
  | case3 h l s x y hl hh ih =>
    have hx := hexVal_lt hh
    have hy := hexVal_lt hl
    simp only [hexDecode, hh, hl, List.map_cons, Option.map_eq_some_iff, ih]
    rw [(hexVal_eq_some_iff h x hx).mp hh, (hexVal_eq_some_iff l y hy).mp hl]
    constructor
    · rintro ⟨t, ht, rfl⟩
      obtain ⟨hdiv, hmod⟩ := toUInt8_nibbles hx hy
      rw [hexEncode, hdiv, hmod, ht]
    · intro heq
      cases b with
      | nil => simp [hexEncode] at heq
      | cons c t =>
        simp only [hexEncode, List.cons.injEq] at heq
        obtain ⟨h1, h2, h3⟩ := heq
        have hc := c.toNat_lt
        have hdiv := hexDigit_injective x hx _ (by omega) h1
        have hmod := hexDigit_injective y hy _ (by omega) h2
        exact ⟨t, h3, by rw [hdiv, hmod, toNat_div_mod]⟩
  | case4 h l s hnone =>
    simp only [hexDecode]
    refine ⟨fun habs => absurd habs (by simp), ?_⟩
    intro heq
    cases b with
    | nil => simp [hexEncode] at heq
    | cons c t =>
      simp only [hexEncode, List.map_cons, List.cons.injEq] at heq
      obtain ⟨h1, h2, -⟩ := heq
      have hc := c.toNat_lt
      have hh := (hexVal_eq_some_iff h _ (by omega)).mpr h1
      have hl := (hexVal_eq_some_iff l _ (by omega)).mpr h2
      exact absurd hl (hnone _ _ hh)

theorem toLower_hexDigit : ∀ n < 16, toLower (hexDigit n) = hexDigit n := by decide

/-- A print is in lower case. -/
theorem map_toLower_hexEncode (b : Bytes) : (hexEncode b).map toLower = hexEncode b := by
  induction b with
  | nil => rfl
  | cons c b ih =>
    have hc := c.toNat_lt
    rw [hexEncode, List.map_cons, List.map_cons, toLower_hexDigit _ (by omega),
      toLower_hexDigit _ (by omega), ih]

/-- A print is read back. -/
@[simp] theorem hexDecode_hexEncode (b : Bytes) : hexDecode (hexEncode b) = some b :=
  hexDecode_eq_some_iff.mpr (map_toLower_hexEncode b)

theorem hexEncode_injective {a b : Bytes} (h : hexEncode a = hexEncode b) : a = b := by
  have ha := hexDecode_hexEncode a
  rw [h, hexDecode_hexEncode] at ha
  exact (Option.some.inj ha).symm

theorem hexDigit_ne_zero : ∀ n < 16, hexDigit n ≠ 0 := by decide

/-- A print holds no NUL. -/
theorem hexEncode_noNul (b : Bytes) : 0 ∉ hexEncode b := by
  induction b with
  | nil => exact List.not_mem_nil
  | cons c b ih =>
    have hc := c.toNat_lt
    rw [hexEncode, List.mem_cons, List.mem_cons, not_or, not_or]
    exact ⟨(hexDigit_ne_zero _ (by omega)).symm, (hexDigit_ne_zero _ (by omega)).symm, ih⟩

end SeaClaw.Lib
