import SeaClaw.Lib.Bytes

/-!
# UTF-8

The encoding of a character is the one of the core library. Here are the octets of an
encoding as shifts and masks write them, for numbers of at most sixteen bits.
-/

namespace SeaClaw.Lib

/-- The octets are valid UTF-8 and decode to the characters `cs`. -/
def Decodes (out : Bytes) (cs : List Char) : Prop := out.toByteArray = cs.utf8Encode

theorem decodes_iff_eq {out : Bytes} {cs : List Char} :
    Decodes out cs ↔ out = cs.flatMap String.utf8EncodeChar := by
  unfold Decodes List.utf8Encode
  constructor
  · intro h
    simpa using congrArg (fun b : ByteArray => b.data.toList) h
  · rintro rfl
    rfl

/-- What decodes is valid UTF-8, and its text is the characters. -/
theorem Decodes.isValid {out : Bytes} {cs : List Char} (h : Decodes out cs) :
    ∃ hv : out.toByteArray.IsValidUTF8, String.fromUTF8 out.toByteArray hv = String.ofList cs := by
  refine ⟨⟨cs, h⟩, ?_⟩
  rw [← String.toByteArray_inj, String.toByteArray_ofList]
  exact h

theorem toNat_ofNat {n : ℕ} (hn : n.isValidChar) : (Char.ofNat n).toNat = n := by
  unfold Char.ofNat
  rw [dif_pos hn]
  rfl

/-- The low six bits after the mark of a continuation octet. -/
def continuation (n : ℕ) : UInt8 := (0x80 ||| n &&& 0x3F).toUInt8

theorem continuation_eq (n : ℕ) : continuation n = UInt8.ofNat (n % 0x40 + 0x80) := by
  have hmod : n &&& 0x3F = n % 0x40 := Nat.and_two_pow_sub_one_eq_mod n 6
  have hor : 0x80 ||| n % 0x40 = 0x80 + n % 0x40 :=
    (Nat.two_pow_add_eq_or_of_lt (by omega : n % 0x40 < 2 ^ 6) 2).symm
  unfold continuation
  rw [hmod, hor, Nat.add_comm]

/-- Octets of a character past ASCII have their high bit set. -/
theorem utf8EncodeChar_high {c : Char} (hc : 0x80 ≤ c.toNat) :
    ∀ b ∈ String.utf8EncodeChar c, 0x80 ≤ b := by
  have hv : 0x80 ≤ c.val.toNat := hc
  intro b hb
  rw [UInt8.le_iff_toNat_le]
  simp only [String.utf8EncodeChar] at hb
  split_ifs at hb <;> try omega
  all_goals
    simp only [List.mem_cons, List.not_mem_nil, or_false] at hb
    rcases hb with rfl | rfl | rfl | rfl <;> simp <;> omega

theorem utf8EncodeChar_ascii {c : Char} (hc : c.toNat < 0x80) :
    String.utf8EncodeChar c = [ch c] := by
  have hv : c.val.toNat ≤ 0x7F := by
    have : c.val.toNat < 0x80 := hc
    omega
  simp only [String.utf8EncodeChar, hv, ite_true]
  rfl

/-- The two octets of a character below `0x800`. -/
theorem utf8EncodeChar_two {c : Char} (hlo : 0x80 ≤ c.toNat) (hhi : c.toNat < 0x800) :
    String.utf8EncodeChar c = [(0xC0 ||| c.toNat >>> 6).toUInt8, continuation c.toNat] := by
  have hor : 0xC0 ||| c.toNat / 64 = c.toNat / 64 % 0x20 + 0xC0 := by
    have h : 0xC0 + c.toNat / 64 = 0xC0 ||| c.toNat / 64 :=
      Nat.two_pow_add_eq_or_of_lt (by omega : c.toNat / 64 < 2 ^ 5) 6
    omega
  have h1 : ¬ c.val.toNat ≤ 0x7F := by
    have : 0x80 ≤ c.val.toNat := hlo
    omega
  have h2 : c.val.toNat ≤ 0x7FF := by
    have : c.val.toNat < 0x800 := hhi
    omega
  rw [continuation_eq, Nat.shiftRight_eq_div_pow, show 2 ^ 6 = 64 from rfl, hor]
  simp only [String.utf8EncodeChar, h1, h2, ite_false, ite_true]
  rfl

/-- The three octets of any other character of at most sixteen bits. -/
theorem utf8EncodeChar_three {c : Char} (hlo : 0x800 ≤ c.toNat) (hhi : c.toNat < 0x10000) :
    String.utf8EncodeChar c =
      [(0xE0 ||| c.toNat >>> 12).toUInt8, continuation (c.toNat >>> 6), continuation c.toNat] := by
  have hor : 0xE0 ||| c.toNat / 4096 = c.toNat / 4096 % 0x10 + 0xE0 := by
    have h : 0xE0 + c.toNat / 4096 = 0xE0 ||| c.toNat / 4096 :=
      Nat.two_pow_add_eq_or_of_lt (by omega : c.toNat / 4096 < 2 ^ 4) 14
    omega
  have h1 : ¬ c.val.toNat ≤ 0x7F := by
    have : 0x800 ≤ c.val.toNat := hlo
    omega
  have h2 : ¬ c.val.toNat ≤ 0x7FF := by
    have : 0x800 ≤ c.val.toNat := hlo
    omega
  have h3 : c.val.toNat ≤ 0xFFFF := by
    have : c.val.toNat < 0x10000 := hhi
    omega
  rw [continuation_eq, continuation_eq, Nat.shiftRight_eq_div_pow, Nat.shiftRight_eq_div_pow,
    show 2 ^ 6 = 64 from rfl, show 2 ^ 12 = 4096 from rfl, hor]
  simp only [String.utf8EncodeChar, h1, h2, h3, ite_false, ite_true]
  rfl

/-- Past sixteen bits there are four octets. -/
theorem length_utf8EncodeChar_four {c : Char} (hc : 0x10000 ≤ c.toNat) :
    (String.utf8EncodeChar c).length = 4 := by
  have hv : 0x10000 ≤ c.val.toNat := hc
  have h1 : ¬ c.val.toNat ≤ 0x7F := by omega
  have h2 : ¬ c.val.toNat ≤ 0x7FF := by omega
  have h3 : ¬ c.val.toNat ≤ 0xFFFF := by omega
  simp only [String.utf8EncodeChar, h1, h2, h3, ite_false, List.length_cons, List.length_nil]

end SeaClaw.Lib
