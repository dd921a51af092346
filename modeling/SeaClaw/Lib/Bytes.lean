import Mathlib.Tactic
import Mathlib.Data.Int.Log
import Mathlib.Data.Rat.Floor
import Mathlib.Data.Nat.Digits.Lemmas
import Mathlib.Data.FinEnum

/-!
# Byte strings

A C buffer is a list of octets. Literals of the source are written as ASCII text
and reduce to their octets, so that every constant can be compared with the
source at a glance.
-/

namespace SeaClaw.Lib

/-- The contents of a buffer, in address order. -/
abbrev Bytes := List UInt8

/-- The octet of an ASCII character constant. -/
def ch (c : Char) : UInt8 := c.toNat.toUInt8

/-- The octets of an ASCII string literal, without its terminator. -/
def ascii (s : String) : Bytes := s.toList.map ch

/-- `isdigit` in the C locale. -/
def isDigit (b : UInt8) : Bool := 0x30 ≤ b && b ≤ 0x39

/-- The value of one hexadecimal digit of either letter case. -/
def hexVal (b : UInt8) : Option Nat :=
  if ch '0' ≤ b ∧ b ≤ ch '9' then some (b.toNat - 0x30)
  else if ch 'a' ≤ b ∧ b ≤ ch 'f' then some (b.toNat - 0x61 + 10)
  else if ch 'A' ≤ b ∧ b ≤ ch 'F' then some (b.toNat - 0x41 + 10)
  else none

/-- `isxdigit` in the C locale. -/
def isHexDigit (b : UInt8) : Bool := (hexVal b).isSome

/-- The lower-case hexadecimal digit of a nibble, `"0123456789abcdef"[n]`. -/
def hexDigit (n : Nat) : UInt8 :=
  if n < 10 then (0x30 + n).toUInt8 else (0x61 + (n - 10)).toUInt8

/-- `tolower` in the C locale. -/
def toLower (b : UInt8) : UInt8 := if ch 'A' ≤ b ∧ b ≤ ch 'Z' then b + 0x20 else b

theorem isDigit_iff (b : UInt8) : isDigit b = true ↔ 0x30 ≤ b ∧ b ≤ 0x39 := by
  rw [isDigit, Bool.and_eq_true, decide_eq_true_eq, decide_eq_true_eq]

/-- A property that is checked octet by octet. -/
theorem forall_mem_of_all {P : UInt8 → Prop} [DecidablePred P] {s : Bytes}
    (h : s.all (fun b => decide (P b)) = true) : ∀ b ∈ s, P b := by
  intro b hb
  exact of_decide_eq_true (List.all_eq_true.mp h b hb)

/-- What comes before the lower-case letters is in lower case of itself only. -/
theorem eq_of_toLower_eq {b c : UInt8} (hc : c < ch 'a') (h : toLower b = c) : b = c := by
  unfold toLower at h
  split_ifs at h with hupper
  · rw [UInt8.le_iff_toNat_le, UInt8.le_iff_toNat_le] at hupper
    rw [UInt8.lt_iff_toNat_lt, ← h, UInt8.toNat_add] at hc
    rw [show (ch 'A').toNat = 65 by decide, show (ch 'Z').toNat = 90 by decide] at hupper
    rw [show (ch 'a').toNat = 97 by decide, show (0x20 : UInt8).toNat = 32 by decide] at hc
    omega
  · exact h

theorem toNat_ch {c : Char} (hc : c.toNat < 0x80) : (ch c).toNat = c.toNat := by
  simp [ch]
  omega

theorem ch_inj {c x : Char} (hc : c.toNat < 0x80) (hx : x.toNat < 0x80) (h : ch c = ch x) :
    c = x := by
  have hnat := congrArg UInt8.toNat h
  rw [toNat_ch hc, toNat_ch hx] at hnat
  exact Char.toNat_inj.mp hnat

/-- Reading back a printed nibble. -/
theorem hexVal_hexDigit : ∀ n, n < 16 → hexVal (hexDigit n) = some n := by decide

theorem hexVal_lt {b : UInt8} {n : Nat} (h : hexVal b = some n) : n < 16 := by
  revert b n
  decide +kernel

/-! ## Comparing in constant time -/

theorem or_eq_zero_iff (x y : UInt8) : x ||| y = 0 ↔ x = 0 ∧ y = 0 := by
  simp [← UInt8.toBitVec_inj]

/-- The difference that is collected is zero when every octet agrees. -/
theorem foldl_or_eq_zero_iff (acc : UInt8) (s : Bytes) :
    s.foldl (· ||| ·) acc = 0 ↔ acc = 0 ∧ ∀ b ∈ s, b = 0 := by
  induction s generalizing acc with
  | nil => simp
  | cons b s ih =>
    rw [List.foldl_cons, ih, or_eq_zero_iff, List.forall_mem_cons, and_assoc]

/-- The differences of two buffers of one length collect to zero when they are equal. -/
theorem foldl_xor_eq_zero_iff {a b : Bytes} (h : a.length = b.length) :
    (List.zipWith (· ^^^ ·) a b).foldl (· ||| ·) 0 = 0 ↔ a = b := by
  simp only [foldl_or_eq_zero_iff, true_and]
  induction a generalizing b with
  | nil =>
    cases b with
    | nil => simp
    | cons y b => simp at h
  | cons x a ih =>
    cases b with
    | nil => simp at h
    | cons y b =>
      rw [List.zipWith_cons_cons, List.forall_mem_cons, ih (by simpa using h),
        List.cons.injEq, UInt8.xor_eq_zero_iff]

end SeaClaw.Lib
