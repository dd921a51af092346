import SeaClaw.Lib.Base64

/-!
# Groups of six bits

Base64 in the way C programs write it: a number made of three octets by shifts, and a table that
is asked for six bits of it at a time. The text is the table applied to the groups, padded.
-/

namespace SeaClaw.Lib

/-- The three octets of a group in one number. -/
def groupBits (a b c : UInt8) : ℕ := a.toNat <<< 16 ||| b.toNat <<< 8 ||| c.toNat

/-- `tbl[(v >> shift) & 63]`; behind the letters stands the terminator. -/
def tblAt (tbl : Bytes) (v shift : ℕ) : UInt8 := tbl.getD (v >>> shift &&& 63) 0

/-- The groups of six bits that the letters stand for. -/
def sextets : Bytes → List ℕ
  | [] => []
  | [a] => [a.toNat * 2 ^ 16 / 2 ^ 18 % 64, a.toNat * 2 ^ 16 / 2 ^ 12 % 64]
  | [a, b] =>
    let val := a.toNat * 2 ^ 16 + b.toNat * 2 ^ 8
    [val / 2 ^ 18 % 64, val / 2 ^ 12 % 64, val / 2 ^ 6 % 64]
  | a :: b :: c :: s =>
    let val := a.toNat * 2 ^ 16 + b.toNat * 2 ^ 8 + c.toNat
    val / 2 ^ 18 % 64 :: val / 2 ^ 12 % 64 :: val / 2 ^ 6 % 64 :: val / 1 % 64 :: sextets s

theorem sextets_lt (s : Bytes) : ∀ n ∈ sextets s, n < 64 := by
  have hmod : ∀ m : ℕ, m % 64 < 64 := fun m => Nat.mod_lt m (by decide)
  induction s using sextets.induct with
  | case1 => exact fun n hn => absurd hn List.not_mem_nil
  | case2 a => simp only [sextets, List.forall_mem_cons, hmod, List.not_mem_nil, true_and,
      false_imp_iff, implies_true]
  | case3 a b => simp only [sextets, List.forall_mem_cons, hmod, List.not_mem_nil, true_and,
      false_imp_iff, implies_true]
  | case4 a b c s ih =>
    simp only [sextets, List.forall_mem_cons, hmod, true_and]
    exact ih

theorem shift_or (a : UInt8) : a.toNat <<< 16 = a.toNat * 2 ^ 16 := Nat.shiftLeft_eq _ _

theorem groupBits_two (a b : UInt8) :
    a.toNat <<< 16 ||| b.toNat <<< 8 = a.toNat * 2 ^ 16 + b.toNat * 2 ^ 8 := by
  have hlow : b.toNat <<< 8 < 2 ^ 16 := by
    have hb := b.toNat_lt
    rw [Nat.shiftLeft_eq]
    omega
  rw [← Nat.shiftLeft_add_eq_or_of_lt hlow, Nat.shiftLeft_eq, Nat.shiftLeft_eq]

theorem groupBits_eq (a b c : UInt8) :
    groupBits a b c = a.toNat * 2 ^ 16 + b.toNat * 2 ^ 8 + c.toNat := by
  have hsplit : a.toNat * 2 ^ 16 + b.toNat * 2 ^ 8 = (a.toNat * 2 ^ 8 + b.toNat) <<< 8 := by
    rw [Nat.shiftLeft_eq]
    omega
  rw [groupBits, groupBits_two, hsplit, ← Nat.shiftLeft_add_eq_or_of_lt c.toNat_lt]

theorem tblAt_eq (tbl : Bytes) (v shift : ℕ) :
    tblAt tbl v shift = tbl.getD (v / 2 ^ shift % 64) 0 := by
  have hmask : v >>> shift &&& 63 = v >>> shift % 64 := Nat.and_two_pow_sub_one_eq_mod _ 6
  rw [tblAt, hmask, Nat.shiftRight_eq_div_pow]

/-- The text of an octet behind whole groups. -/
theorem b64Encode_eq {s : Bytes} (h : s.length % 3 = 1) :
    b64Encode s = (sextets s).map b64Letter ++ [ch '=', ch '='] := by
  induction s using sextets.induct with
  | case1 => exact absurd h (by decide)
  | case2 a => simp only [b64Encode, sextets, b64At, List.map_cons, List.map_nil,
      List.cons_append, List.nil_append]
  | case3 a b => exact absurd h (by simp)
  | case4 a b c s ih =>
    have hs : s.length % 3 = 1 := by
      rw [← h]
      simp only [List.length_cons]
      omega
    simp only [b64Encode, sextets, b64At, ih hs, List.map_cons, List.cons_append]

end SeaClaw.Lib
