import SeaClaw.Lib.Bytes
import Mathlib.Data.List.DropRight

/-!
# Base64

Three octets are written as four letters, and a rest of one or two octets is padded. The
reader takes the padding off first. Numbers of 24 bits are written as sums.
-/

namespace SeaClaw.Lib

/-- The letter of six bits. -/
def b64Letter (n : ℕ) : UInt8 :=
  (ascii "ABCDEFGHIJKLMNOPQRSTUVWXYZabcdefghijklmnopqrstuvwxyz0123456789+/").getD n 0

/-- The letter of the six bits of `val` from the bit `2 ^ k = shift` on. -/
def b64At (val shift : ℕ) : UInt8 := b64Letter (val / shift % 64)

/-- The text of some octets, padded. -/
def b64Encode : Bytes → Bytes
  | [] => []
  | [a] =>
    let val := a.toNat * 2 ^ 16
    [b64At val (2 ^ 18), b64At val (2 ^ 12), ch '=', ch '=']
  | [a, b] =>
    let val := a.toNat * 2 ^ 16 + b.toNat * 2 ^ 8
    [b64At val (2 ^ 18), b64At val (2 ^ 12), b64At val (2 ^ 6), ch '=']
  | a :: b :: c :: s =>
    let val := a.toNat * 2 ^ 16 + b.toNat * 2 ^ 8 + c.toNat
    b64At val (2 ^ 18) :: b64At val (2 ^ 12) :: b64At val (2 ^ 6) :: b64At val 1 :: b64Encode s

/-- The six bits of a letter. -/
def b64Value (c : UInt8) : Option ℕ :=
  if ch 'A' ≤ c ∧ c ≤ ch 'Z' then some (c.toNat - 0x41)
  else if ch 'a' ≤ c ∧ c ≤ ch 'z' then some (c.toNat - 0x61 + 26)
  else if ch '0' ≤ c ∧ c ≤ ch '9' then some (c.toNat - 0x30 + 52)
  else if c = ch '+' then some 62
  else if c = ch '/' then some 63
  else none

/-- The octets of letters without padding. A single letter at the end is ignored. -/
def b64Letters : Bytes → Option Bytes
  | w :: x :: y :: z :: s => do
    let a ← b64Value w
    let b ← b64Value x
    let c ← b64Value y
    let d ← b64Value z
    let val := a * 2 ^ 18 + b * 2 ^ 12 + c * 2 ^ 6 + d
    let t ← b64Letters s
    some ((val / 2 ^ 16).toUInt8 :: (val / 2 ^ 8).toUInt8 :: val.toUInt8 :: t)
  | [w, x, y] => do
    let a ← b64Value w
    let b ← b64Value x
    let c ← b64Value y
    let val := a * 2 ^ 18 + b * 2 ^ 12 + c * 2 ^ 6
    some [(val / 2 ^ 16).toUInt8, (val / 2 ^ 8).toUInt8]
  | [w, x] => do
    let a ← b64Value w
    let b ← b64Value x
    some [((a * 2 ^ 18 + b * 2 ^ 12) / 2 ^ 16).toUInt8]
  | _ => some []

/-- The octets of a text, padded or not. -/
def b64Decode (s : Bytes) : Option Bytes := b64Letters (s.rdropWhile (· = ch '='))

/-! ## Lengths -/

theorem length_b64Encode (s : Bytes) : (b64Encode s).length = (s.length + 2) / 3 * 4 := by
  induction s using b64Encode.induct with
  | case1 => rfl
  | case2 a => simp [b64Encode]
  | case3 a b => simp [b64Encode]
  | case4 a b c s ih =>
    simp only [b64Encode, List.length_cons, ih]
    omega

/-! ## Reading back -/

theorem b64Value_letter : ∀ n < 64, b64Value (b64Letter n) = some n ∧ b64Letter n ≠ ch '=' := by
  decide +kernel

theorem b64Value_at (val shift : ℕ) : b64Value (b64At val shift) = some (val / shift % 64) :=
  (b64Value_letter _ (Nat.mod_lt _ (by decide))).1

theorem b64At_ne (val shift : ℕ) : b64At val shift ≠ ch '=' :=
  (b64Value_letter _ (Nat.mod_lt _ (by decide))).2

/-- Four letters make up their 24 bits. -/
theorem sextets_eq {val : ℕ} (h : val < 2 ^ 24) : val / 2 ^ 18 % 64 * 2 ^ 18 +
    val / 2 ^ 12 % 64 * 2 ^ 12 + val / 2 ^ 6 % 64 * 2 ^ 6 + val / 1 % 64 = val := by
  omega

/-- The octets of 24 bits. -/
theorem octets_of_sum (a b c : UInt8) :
    ((a.toNat * 2 ^ 16 + b.toNat * 2 ^ 8 + c.toNat) / 2 ^ 16).toUInt8 = a ∧
    ((a.toNat * 2 ^ 16 + b.toNat * 2 ^ 8 + c.toNat) / 2 ^ 8).toUInt8 = b ∧
    (a.toNat * 2 ^ 16 + b.toNat * 2 ^ 8 + c.toNat).toUInt8 = c := by
  have ha := a.toNat_lt
  have hb := b.toNat_lt
  have hc := c.toNat_lt
  refine ⟨?_, ?_, ?_⟩ <;> rw [← UInt8.toNat_inj] <;> simp <;> omega

/-- The letters of the text, without its padding. -/
def b64Bare : Bytes → Bytes
  | [] => []
  | [a] => [b64At (a.toNat * 2 ^ 16) (2 ^ 18), b64At (a.toNat * 2 ^ 16) (2 ^ 12)]
  | [a, b] =>
    let val := a.toNat * 2 ^ 16 + b.toNat * 2 ^ 8
    [b64At val (2 ^ 18), b64At val (2 ^ 12), b64At val (2 ^ 6)]
  | a :: b :: c :: s =>
    let val := a.toNat * 2 ^ 16 + b.toNat * 2 ^ 8 + c.toNat
    b64At val (2 ^ 18) :: b64At val (2 ^ 12) :: b64At val (2 ^ 6) :: b64At val 1 :: b64Bare s

theorem b64Encode_eq_bare (s : Bytes) :
    ∃ n, b64Encode s = b64Bare s ++ List.replicate n (ch '=') := by
  induction s using b64Encode.induct with
  | case1 => exact ⟨0, rfl⟩
  | case2 a => exact ⟨2, rfl⟩
  | case3 a b => exact ⟨1, rfl⟩
  | case4 a b c s ih =>
    obtain ⟨n, hn⟩ := ih
    exact ⟨n, by simp only [b64Encode, b64Bare, hn, List.cons_append]⟩

theorem not_mem_b64Bare (s : Bytes) : ch '=' ∉ b64Bare s := by
  induction s using b64Bare.induct with
  | case1 => exact List.not_mem_nil
  | case2 a => simp [b64Bare, (b64At_ne _ _).symm]
  | case3 a b => simp [b64Bare, (b64At_ne _ _).symm]
  | case4 a b c s ih => simp [b64Bare, (b64At_ne _ _).symm, ih]

theorem b64Letters_bare (s : Bytes) : b64Letters (b64Bare s) = some s := by
  induction s using b64Bare.induct with
  | case1 => rfl
  | case2 a =>
    have ha := a.toNat_lt
    have hval : a.toNat * 2 ^ 16 / 2 ^ 18 % 64 * 2 ^ 18 +
        a.toNat * 2 ^ 16 / 2 ^ 12 % 64 * 2 ^ 12 = a.toNat * 2 ^ 16 + (0 : UInt8).toNat * 2 ^ 8 +
          (0 : UInt8).toNat := by
      simp
      omega
    obtain ⟨h, -, -⟩ := octets_of_sum a 0 0
    simp only [b64Bare, b64Letters, b64Value_at, Option.bind_eq_bind, Option.bind_some, hval, h]
  | case3 a b =>
    have ha := a.toNat_lt
    have hb := b.toNat_lt
    have hval : (a.toNat * 2 ^ 16 + b.toNat * 2 ^ 8) / 2 ^ 18 % 64 * 2 ^ 18 +
        (a.toNat * 2 ^ 16 + b.toNat * 2 ^ 8) / 2 ^ 12 % 64 * 2 ^ 12 +
        (a.toNat * 2 ^ 16 + b.toNat * 2 ^ 8) / 2 ^ 6 % 64 * 2 ^ 6 =
          a.toNat * 2 ^ 16 + b.toNat * 2 ^ 8 + (0 : UInt8).toNat := by
      simp
      omega
    obtain ⟨h, h', -⟩ := octets_of_sum a b 0
    simp only [b64Bare, b64Letters, b64Value_at, Option.bind_eq_bind, Option.bind_some, hval, h,
      h']
  | case4 a b c s ih =>
    have ha := a.toNat_lt
    have hb := b.toNat_lt
    have hc := c.toNat_lt
    have hlt : a.toNat * 2 ^ 16 + b.toNat * 2 ^ 8 + c.toNat < 2 ^ 24 := by omega
    have hval := sextets_eq hlt
    obtain ⟨h, h', h''⟩ := octets_of_sum a b c
    simp only [b64Bare, b64Letters, b64Value_at, Option.bind_eq_bind, Option.bind_some, hval, ih,
      h, h', h'']

/-- A text is read back. -/
theorem b64Decode_encode (s : Bytes) : b64Decode (b64Encode s) = some s := by
  obtain ⟨n, hn⟩ := b64Encode_eq_bare s
  have hstrip : (b64Encode s).rdropWhile (· = ch '=') = b64Bare s := by
    rw [hn]
    clear hn
    induction n with
    | zero =>
      rw [List.replicate_zero, List.append_nil, List.rdropWhile_eq_self_iff]
      intro hne
      rw [decide_eq_true_eq]
      intro hlast
      exact not_mem_b64Bare s (hlast ▸ List.getLast_mem hne)
    | succ n ih =>
      rw [List.replicate_succ', ← List.append_assoc, List.rdropWhile_concat_pos _ _ _ (by simp)]
      exact ih
  rw [b64Decode, hstrip, b64Letters_bare]

end SeaClaw.Lib
