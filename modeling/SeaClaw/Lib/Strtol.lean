import SeaClaw.Lib.Strtod

/-!
# Reading a decimal integer as `strtol` does

White space, an optional sign and digits. The value is that of a 64-bit `long`: what lies
outside is taken to its nearer end, and a text without digits is zero.
-/

namespace SeaClaw.Lib

/-- `isspace` in the C locale. -/
def isSpace (b : UInt8) : Bool := b = 0x20 ∨ 0x09 ≤ b ∧ b ≤ 0x0d

/-- `LONG_MAX` -/
def longMax : ℤ := 2 ^ 63 - 1

/-- `LONG_MIN` -/
def longMin : ℤ := -2 ^ 63

/-- An optional sign of a text that may end: whether it is a minus, and what follows it. -/
def optSign : Bytes → Bool × Bytes
  | [] => (false, [])
  | b :: s => if b = ch '-' then (true, s) else if b = ch '+' then (false, s) else (false, b :: s)

/-- The value of the digits at the start of a text. -/
def leadingNat (s : Bytes) : ℕ := natOfDigits 10 (s.takeWhile isDigit)

/-- `strtol(s, NULL, 10)` of a text that a NUL or its end stops. -/
def strtol10 (s : Bytes) : ℤ :=
  let r := optSign (s.dropWhile isSpace)
  let v : ℤ := leadingNat r.2
  if r.1 then max (-v) longMin else min v longMax

/-- What a digit is not. -/
theorem not_special_of_isDigit {b : UInt8} (hb : isDigit b = true) :
    isSpace b = false ∧ b ≠ ch '-' ∧ b ≠ ch '+' ∧ b ≠ ch '*' ∧ b ≠ ch ',' ∧ b ≠ ch '/' ∧
      b ≠ ch ' ' := by
  have hlow : 0x30 ≤ b.toNat := UInt8.le_iff_toNat_le.mp ((isDigit_iff b).mp hb).1
  have hne : ∀ c : UInt8, c.toNat < 0x30 → b ≠ c := by
    intro c hc heq
    rw [heq] at hlow
    omega
  have hspace : isSpace b = false := by
    rw [isSpace, decide_eq_false_iff_not, not_or, not_and, UInt8.le_iff_toNat_le,
      UInt8.le_iff_toNat_le]
    refine ⟨hne _ (by decide), fun _ h => ?_⟩
    have hhigh : (0x0d : UInt8).toNat = 13 := rfl
    omega
  exact ⟨hspace, hne _ (by decide), hne _ (by decide), hne _ (by decide), hne _ (by decide),
    hne _ (by decide), hne _ (by decide)⟩

end SeaClaw.Lib
