import SeaClaw.Lib.Bytes

/-!
# Binary64 numbers

A finite double is a sign and the exact rational magnitude it stands for, which
must lie on the binary64 grid. Conversion rounds to nearest, ties to even, and
overflows to infinity, as the C library does in its default rounding mode.
-/

namespace SeaClaw.Lib

/-- Magnitudes with a 53-bit significand and an exponent in the binary64 range. -/
def OnGrid (q : ℚ) : Prop :=
  ∃ (m : ℕ) (e : ℤ), m < 2 ^ 53 ∧ -1074 ≤ e ∧ e ≤ 971 ∧ q = m * (2 : ℚ) ^ e

/-- A C `double`. Not-a-number keeps its sign and nothing else. -/
inductive Binary64 where
  | finite (neg : Bool) (mag : ℚ) (grid : OnGrid mag)
  | inf (neg : Bool)
  | nan (neg : Bool)
  deriving DecidableEq

/-- Round a nonnegative rational to the nearest integer, ties to even. -/
def roundHalfEven (q : ℚ) : ℕ :=
  let n := ⌊q⌋₊
  if q - n < 1 / 2 then n
  else if 1 / 2 < q - n then n + 1
  else if n % 2 = 0 then n else n + 1

/-- The exponent of the last significand bit: 53 bits, never below the subnormals. -/
def lastBit (q : ℚ) : ℤ := max (Int.log 2 q - 52) (-1074)

/-- The grid magnitude nearest to `q`, before the overflow check. -/
def roundMag (q : ℚ) : ℚ := roundHalfEven (q / 2 ^ lastBit q) * 2 ^ lastBit q

theorem roundHalfEven_natCast (n : ℕ) : roundHalfEven n = n := by
  simp [roundHalfEven]

/-- Rounding never passes the next integer. -/
theorem roundHalfEven_le {q : ℚ} {n : ℕ} (h0 : 0 ≤ q) (hq : q < n) : roundHalfEven q ≤ n := by
  have hf : ⌊q⌋₊ < n := (Nat.floor_lt h0).mpr hq
  unfold roundHalfEven
  dsimp only
  split_ifs <;> omega

/-- Rounding never falls below an integer already reached. -/
theorem le_roundHalfEven {q : ℚ} {n : ℕ} (hq : (n : ℚ) ≤ q) : n ≤ roundHalfEven q := by
  have hf : n ≤ ⌊q⌋₊ := Nat.le_floor hq
  unfold roundHalfEven
  dsimp only
  split_ifs <;> omega

/-- The scaled magnitude fits in 53 bits, or is the next power of two after rounding. -/
theorem roundHalfEven_scaled_le {q : ℚ} (h0 : 0 ≤ q) :
    roundHalfEven (q / 2 ^ lastBit q) ≤ 2 ^ 53 := by
  have hpos : (0 : ℚ) < 2 ^ lastBit q := by positivity
  apply roundHalfEven_le (by positivity)
  rw [div_lt_iff₀ hpos]
  have hlog : q < (2 : ℚ) ^ (Int.log 2 q + 1) := by
    exact_mod_cast Int.lt_zpow_succ_log_self (by decide) q
  calc q < (2 : ℚ) ^ (Int.log 2 q + 1) := hlog
    _ ≤ (2 : ℚ) ^ (53 + lastBit q) := by
        apply zpow_le_zpow_right₀ (by norm_num)
        unfold lastBit
        omega
    _ = ((2 ^ 53 : ℕ) : ℚ) * 2 ^ lastBit q := by
        rw [zpow_add₀ (by norm_num)]
        norm_num

/-- A rounded magnitude below the overflow threshold is on the grid. -/
theorem onGrid_of_le {m : ℕ} {e : ℤ} (hm : m ≤ 2 ^ 53) (he : -1074 ≤ e)
    (hlt : (m : ℚ) * 2 ^ e < 2 ^ (1024 : ℤ)) (hnorm : e = -1074 ∨ 2 ^ 52 ≤ m) :
    OnGrid (m * 2 ^ e) := by
  have hexp (k : ℕ) (hk : 2 ^ k ≤ m) : (k : ℤ) + e < 1024 := by
    have hle : (2 : ℚ) ^ ((k : ℤ) + e) ≤ m * 2 ^ e := by
      rw [zpow_add₀ (by norm_num), zpow_natCast]
      have : ((2 ^ k : ℕ) : ℚ) ≤ m := by exact_mod_cast hk
      push_cast at this
      exact mul_le_mul_of_nonneg_right this (by positivity)
    exact (zpow_lt_zpow_iff_right₀ (by norm_num)).mp (lt_of_le_of_lt hle hlt)
  rcases Nat.lt_or_ge m (2 ^ 53) with hm' | hm'
  · refine ⟨m, e, hm', he, ?_, rfl⟩
    rcases hnorm with rfl | hn
    · decide
    · have := hexp 52 hn
      omega
  · have hme : m = 2 ^ 53 := le_antisymm hm hm'
    refine ⟨2 ^ 52, e + 1, by norm_num, by omega, ?_, ?_⟩
    · have := hexp 53 hm'
      omega
    · rw [hme, zpow_add_one₀ (by norm_num)]
      push_cast
      ring

/-- Either the last bit is the subnormal one, or the significand is full. -/
theorem scaled_normal {q : ℚ} (hq : 0 < q) :
    lastBit q = -1074 ∨ 2 ^ 52 ≤ roundHalfEven (q / 2 ^ lastBit q) := by
  rcases le_or_gt (Int.log 2 q - 52) (-1074) with hs | hn
  · exact Or.inl (max_eq_right hs)
  · right
    have he : lastBit q = Int.log 2 q - 52 := max_eq_left hn.le
    apply le_roundHalfEven
    rw [le_div_iff₀ (by positivity), he]
    have hlog : (2 : ℚ) ^ Int.log 2 q ≤ q := by
      exact_mod_cast Int.zpow_log_le_self (b := 2) (by decide) hq
    calc ((2 ^ 52 : ℕ) : ℚ) * 2 ^ (Int.log 2 q - 52) = 2 ^ Int.log 2 q := by
          rw [zpow_sub₀ (by norm_num)]
          norm_num
          ring
      _ ≤ q := hlog

/-- A nonnegative magnitude that does not overflow rounds onto the grid. -/
theorem onGrid_roundMag {q : ℚ} (h0 : 0 ≤ q) (hlt : roundMag q < 2 ^ (1024 : ℤ)) :
    OnGrid (roundMag q) := by
  rcases h0.eq_or_lt with rfl | hq
  · refine ⟨0, 0, by norm_num, by norm_num, by norm_num, ?_⟩
    simp [roundMag, roundHalfEven]
  · exact onGrid_of_le (roundHalfEven_scaled_le h0) (le_max_right _ _) hlt (scaled_normal hq)

/-- The double nearest to a signed magnitude; past the largest finite one, infinity. -/
def Binary64.round (neg : Bool) (q : ℚ) : Binary64 :=
  if h : 0 ≤ q ∧ roundMag q < 2 ^ (1024 : ℤ) then
    .finite neg (roundMag q) (onGrid_roundMag h.1 h.2)
  else .inf neg

/-- Integers below `2 ^ 53` are their own magnitude. -/
theorem onGrid_natCast {n : ℕ} (hn : n < 2 ^ 53) : OnGrid n :=
  ⟨n, 0, hn, by norm_num, by norm_num, by simp⟩

/-- The double of a small integer, with a positive zero. -/
def Binary64.ofInt (i : ℤ) (h : i.natAbs < 2 ^ 53) : Binary64 :=
  .finite (decide (i < 0)) i.natAbs (onGrid_natCast h)

/-- Fifteen decimal digits fit in the significand. -/
theorem lt_two_pow_53 {n : ℕ} (h : n < 10 ^ 15) : n < 2 ^ 53 := by omega

/-- Small integers round to themselves. -/
theorem roundMag_natCast {n : ℕ} (hn : n < 2 ^ 53) : roundMag n = n := by
  rcases Nat.eq_zero_or_pos n with rfl | hpos
  · simp [roundMag, roundHalfEven]
  · have hlog : Int.log 2 (n : ℚ) = Nat.log 2 n := Int.log_natCast 2 n
    have hlt : Nat.log 2 n < 53 := Nat.log_lt_of_lt_pow hpos.ne' hn
    obtain ⟨k, hk⟩ : ∃ k : ℕ, lastBit n = -(k : ℤ) := by
      refine ⟨52 - Nat.log 2 n, ?_⟩
      unfold lastBit
      rw [hlog]
      omega
    have hscaled : (n : ℚ) / 2 ^ lastBit n = ((n * 2 ^ k : ℕ) : ℚ) := by
      rw [hk, zpow_neg, zpow_natCast]
      push_cast
      field_simp
    unfold roundMag
    rw [hscaled, roundHalfEven_natCast, hk, zpow_neg, zpow_natCast]
    push_cast
    field_simp

theorem Binary64.round_natCast (neg : Bool) {n : ℕ} (hn : n < 2 ^ 53) :
    Binary64.round neg n = .finite neg n (onGrid_natCast hn) := by
  have hmag := roundMag_natCast hn
  have hlt : roundMag (n : ℚ) < 2 ^ (1024 : ℤ) := by
    rw [hmag]
    calc (n : ℚ) < ((2 ^ 53 : ℕ) : ℚ) := by exact_mod_cast hn
      _ = 2 ^ (53 : ℤ) := by norm_num
      _ ≤ 2 ^ (1024 : ℤ) := zpow_le_zpow_right₀ (by norm_num) (by norm_num)
  unfold Binary64.round
  split
  · simp only [hmag]
  · rename_i hn
    exact absurd ⟨Nat.cast_nonneg n, hlt⟩ hn

end SeaClaw.Lib
