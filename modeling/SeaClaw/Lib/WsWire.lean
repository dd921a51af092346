import SeaClaw.Lib.Bytes
import SeaClaw.Lib.Stream

/-!
# WebSocket frames on the wire

The base framing of RFC 6455: two octets of header, a length of two or eight octets
where the seven bits do not hold it, a mask, and the payload. Reading a frame back from
the front of a stream is exact in both directions.
-/

namespace SeaClaw.Lib

/-! ## Numbers in network order -/

/-- `k` octets of `n`, most significant first. -/
def beOctets : ℕ → ℕ → Bytes
  | 0, _ => []
  | k + 1, n => beOctets k (n / 256) ++ [UInt8.ofNat (n % 256)]

def beValue (ds : Bytes) : ℕ := ds.foldl (fun n b => n * 256 + b.toNat) 0

@[simp] theorem length_beOctets (k n : ℕ) : (beOctets k n).length = k := by
  induction k generalizing n <;> simp [beOctets, *]

theorem beValue_append (ds : Bytes) (b : UInt8) :
    beValue (ds ++ [b]) = beValue ds * 256 + b.toNat := by
  simp [beValue]

theorem beValue_beOctets (k n : ℕ) (h : n < 256 ^ k) : beValue (beOctets k n) = n := by
  induction k generalizing n with
  | zero =>
    have h0 : n = 0 := by simpa using h
    subst h0
    rfl
  | succ k ih =>
    have hdiv : n / 256 < 256 ^ k := by
      rw [Nat.div_lt_iff_lt_mul (by decide), ← Nat.pow_succ]
      exact h
    have hmod : (UInt8.ofNat (n % 256)).toNat = n % 256 := by simp
    rw [beOctets, beValue_append, ih _ hdiv, hmod]
    omega

theorem beValue_lt (ds : Bytes) : beValue ds < 256 ^ ds.length := by
  induction ds using List.reverseRecOn with
  | nil => simp [beValue]
  | append_singleton ds b ih =>
    have hb := b.toNat_lt
    rw [beValue_append, List.length_append, List.length_singleton, Nat.pow_succ]
    omega

theorem beOctets_beValue (ds : Bytes) : beOctets ds.length (beValue ds) = ds := by
  induction ds using List.reverseRecOn with
  | nil => rfl
  | append_singleton ds b ih =>
    have hb := b.toNat_lt
    have hdiv : (beValue ds * 256 + b.toNat) / 256 = beValue ds := by omega
    have hmod : (beValue ds * 256 + b.toNat) % 256 = b.toNat := by omega
    rw [beValue_append, List.length_append, List.length_singleton, beOctets, hdiv, hmod, ih]
    simp

/-! ## Masks -/

structure Mask where
  k0 : UInt8
  k1 : UInt8
  k2 : UInt8
  k3 : UInt8
  deriving DecidableEq, Repr

def Mask.octets (m : Mask) : Bytes := [m.k0, m.k1, m.k2, m.k3]

/-- The octet of the mask for index `i` of the payload. -/
def Mask.key (m : Mask) (i : ℕ) : UInt8 :=
  match i % 4 with
  | 0 => m.k0
  | 1 => m.k1
  | 2 => m.k2
  | _ => m.k3

def Mask.apply (m : Mask) (payload : Bytes) : Bytes := payload.mapIdx fun i b => b ^^^ m.key i

@[simp] theorem Mask.length_apply (m : Mask) (payload : Bytes) :
    (m.apply payload).length = payload.length := List.length_mapIdx

/-- Masking twice changes nothing. -/
@[simp] theorem Mask.apply_apply (m : Mask) (payload : Bytes) : m.apply (m.apply payload) = payload := by
  unfold Mask.apply
  rw [List.mapIdx_mapIdx]
  apply List.ext_getElem
  · simp
  · intro i h1 h2
    rw [List.getElem_mapIdx]
    change payload[i] ^^^ m.key i ^^^ m.key i = payload[i]
    rw [UInt8.xor_assoc, UInt8.xor_self, UInt8.xor_zero]

/-! ## Frames -/

/-- Where the length of the payload stands. -/
inductive LengthForm where
  | short
  | medium
  | long
  deriving DecidableEq, Repr

/-- The octets of the extended length. -/
def LengthForm.octets : LengthForm → ℕ
  | short => 0
  | medium => 2
  | long => 8

/-- The lengths a form can state. -/
def LengthForm.Fits : LengthForm → ℕ → Prop
  | short, n => n ≤ 125
  | medium, n => n < 256 ^ 2
  | long, n => n < 256 ^ 8

instance : ∀ form n, Decidable (LengthForm.Fits form n)
  | .short, _ => Nat.decLe _ _
  | .medium, _ => Nat.decLt _ _
  | .long, _ => Nat.decLt _ _

/-- The seven bits of the second octet. -/
def LengthForm.code : LengthForm → ℕ → ℕ
  | short, n => n
  | medium, _ => 126
  | long, _ => 127

/-- A frame with its flags and opcode in the first octet. -/
@[ext] structure Frame where
  head : UInt8
  mask : Option Mask
  form : LengthForm
  payload : Bytes
  fits : form.Fits payload.length

/-- The last frame of its message. -/
def Frame.fin (f : Frame) : Bool := 0x80 ≤ f.head

def Frame.opcode (f : Frame) : ℕ := f.head.toNat % 16

/-- The octets of a mask, if there is one. -/
def maskOctets : Option Mask → Bytes
  | none => []
  | some m => m.octets

/-- Put a mask on, or take it off. -/
def applyMask : Option Mask → Bytes → Bytes
  | none, payload => payload
  | some m, payload => m.apply payload

@[simp] theorem length_applyMask (m : Option Mask) (payload : Bytes) :
    (applyMask m payload).length = payload.length := by
  cases m <;> simp [applyMask]

@[simp] theorem applyMask_applyMask (m : Option Mask) (payload : Bytes) :
    applyMask m (applyMask m payload) = payload := by
  cases m <;> simp [applyMask]

/-- The second octet of the header. -/
def Frame.second (f : Frame) : UInt8 :=
  UInt8.ofNat ((if f.mask.isSome then 128 else 0) + f.form.code f.payload.length)

/-- The header. -/
def Frame.header (f : Frame) : Bytes :=
  f.head :: f.second :: (beOctets f.form.octets f.payload.length ++ maskOctets f.mask)

def Frame.encode (f : Frame) : Bytes := f.header ++ applyMask f.mask f.payload

theorem Frame.length_header (f : Frame) :
    f.header.length = 2 + f.form.octets + if f.mask.isSome then 4 else 0 := by
  cases hm : f.mask with
  | none => simp [header, hm, maskOctets]; omega
  | some m => simp [header, hm, maskOctets, Mask.octets]; omega

theorem Frame.length_encode (f : Frame) : f.encode.length = f.header.length + f.payload.length := by
  simp [encode]

theorem Frame.code_le (f : Frame) : f.form.code f.payload.length ≤ 127 := by
  have hf := f.fits
  cases hform : f.form <;> simp [LengthForm.code, LengthForm.Fits, hform] at hf ⊢
  omega

theorem Frame.toNat_second (f : Frame) :
    f.second.toNat = (if f.mask.isSome then 128 else 0) + f.form.code f.payload.length := by
  have hc := f.code_le
  rw [second, UInt8.toNat_ofNat']
  split_ifs <;> omega

/-! ## Reading a frame -/

/-- What the header says before the mask. -/
structure Preamble where
  head : UInt8
  masked : Bool
  form : LengthForm
  size : ℕ
  fits : form.Fits size

/-- The front of a header and the octets after the length. -/
def takePreamble : Bytes → Option (Preamble × Bytes)
  | b0 :: b1 :: s =>
    let masked : Bool := 128 ≤ b1.toNat
    if b1.toNat % 128 = 126 then
      if h : 2 ≤ s.length then
        some (⟨b0, masked, .medium, beValue (s.take 2), by
          simpa [LengthForm.Fits, h] using beValue_lt (s.take 2)⟩, s.drop 2)
      else none
    else if b1.toNat % 128 = 127 then
      if h : 8 ≤ s.length then
        some (⟨b0, masked, .long, beValue (s.take 8), by
          simpa [LengthForm.Fits, h] using beValue_lt (s.take 8)⟩, s.drop 8)
      else none
    else if h : b1.toNat % 128 ≤ 125 then 
      some (⟨b0, masked, .short, b1.toNat % 128, by simpa [LengthForm.Fits] using h⟩, s)
    else none
  | _ => none

/-- The mask, if the header announces one. -/
def takeMask : Bool → Bytes → Option (Option Mask × Bytes)
  | false, s => some (none, s)
  | true, k0 :: k1 :: k2 :: k3 :: s => some (some ⟨k0, k1, k2, k3⟩, s)
  | true, _ => none

/-- A whole frame at the front of `s`, and the octets after it. -/
def takeFrame (s : Bytes) : Option (Frame × Bytes) :=
  match takePreamble s with
  | none => none
  | some (p, s) =>
    match takeMask p.masked s with
    | none => none
    | some (m, s) =>
      if h : p.size ≤ s.length then
        some (⟨p.head, m, p.form, applyMask m (s.take p.size), by simpa [h] using p.fits⟩,
          s.drop p.size)
      else none

/-- What the header of a frame says. -/
def Frame.preamble (f : Frame) : Preamble :=
  ⟨f.head, f.mask.isSome, f.form, f.payload.length, f.fits⟩

/-- The preamble of a frame is read from its header. -/
theorem takePreamble_header (f : Frame) (t : Bytes) :
    takePreamble (f.header ++ t) = some (f.preamble, maskOctets f.mask ++ t) := by
  have hsecond := f.toNat_second
  have hmasked : (128 ≤ f.second.toNat) = (f.mask.isSome = true) := by
    have hc := f.code_le
    rw [hsecond]
    split_ifs with h <;> simp [h]
    omega
  have hcode : f.second.toNat % 128 = f.form.code f.payload.length := by
    have hc := f.code_le
    rw [hsecond]
    split_ifs <;> omega
  obtain ⟨head, mask, form, payload, hfits⟩ := f
  simp only [Frame.header, List.cons_append, List.append_assoc, takePreamble, Frame.preamble]
  simp only at hmasked hcode
  cases form with
  | short =>
    simp only [LengthForm.Fits] at hfits
    have h6 : payload.length ≠ 126 := by omega
    have h7 : payload.length ≠ 127 := by omega
    simp [LengthForm.code, LengthForm.octets, beOctets, h6, h7, hfits, hcode, hmasked]
  | medium =>
    have hval := beValue_beOctets 2 payload.length hfits
    have htake : (beOctets 2 payload.length ++ (maskOctets mask ++ t)).take 2 =
        beOctets 2 payload.length := List.take_left' (length_beOctets 2 _)
    have hdrop : (beOctets 2 payload.length ++ (maskOctets mask ++ t)).drop 2 =
        maskOctets mask ++ t := List.drop_left' (length_beOctets 2 _)
    simp [LengthForm.code, LengthForm.octets, htake, hdrop, hval, hcode, hmasked]
  | long =>
    have hval := beValue_beOctets 8 payload.length hfits
    have htake : (beOctets 8 payload.length ++ (maskOctets mask ++ t)).take 8 =
        beOctets 8 payload.length := List.take_left' (length_beOctets 8 _)
    have hdrop : (beOctets 8 payload.length ++ (maskOctets mask ++ t)).drop 8 =
        maskOctets mask ++ t := List.drop_left' (length_beOctets 8 _)
    simp [LengthForm.code, LengthForm.octets, htake, hdrop, hval, hcode, hmasked]

theorem takeMask_octets (m : Option Mask) (t : Bytes) :
    takeMask m.isSome (maskOctets m ++ t) = some (m, t) := by
  cases m <;> rfl

/-- A frame is read back from its octets, whatever follows. -/
theorem takeFrame_encode (f : Frame) (t : Bytes) : takeFrame (f.encode ++ t) = some (f, t) := by
  have hlen : (applyMask f.mask f.payload ++ t).take f.payload.length =
      applyMask f.mask f.payload := List.take_left' (length_applyMask _ _)
  have hdrop : (applyMask f.mask f.payload ++ t).drop f.payload.length = t :=
    List.drop_left' (length_applyMask _ _)
  have hle : f.payload.length ≤ (applyMask f.mask f.payload ++ t).length := by simp
  unfold takeFrame
  rw [Frame.encode, List.append_assoc, takePreamble_header]
  simp only [Frame.preamble, takeMask_octets, hle, dite_true, hlen, hdrop, applyMask_applyMask]

/-- The octets from which a preamble was read. -/
theorem takePreamble_eq {s r : Bytes} {p : Preamble} (h : takePreamble s = some (p, r)) :
    ∃ b1 : UInt8, s = p.head :: b1 :: (beOctets p.form.octets p.size ++ r) ∧
      b1.toNat = (if p.masked then 128 else 0) + p.form.code p.size := by
  match s with
  | [] => simp [takePreamble] at h
  | [_] => simp [takePreamble] at h
  | b0 :: b1 :: s =>
    have hb1 := b1.toNat_lt
    refine ⟨b1, ?_⟩
    simp only [takePreamble] at h
    split_ifs at h with h6 hl h7 hl h5
    · cases h
      have hoct := beOctets_beValue (s.take 2)
      rw [List.length_take, Nat.min_eq_left hl] at hoct
      refine ⟨by simp [LengthForm.octets, hoct], ?_⟩
      simp only [LengthForm.code, decide_eq_true_eq]
      split_ifs <;> omega
    · cases h
      have hoct := beOctets_beValue (s.take 8)
      rw [List.length_take, Nat.min_eq_left hl] at hoct
      refine ⟨by simp [LengthForm.octets, hoct], ?_⟩
      simp only [LengthForm.code, decide_eq_true_eq]
      split_ifs <;> omega
    · cases h
      refine ⟨by simp [LengthForm.octets, beOctets], ?_⟩
      simp only [LengthForm.code, decide_eq_true_eq]
      split_ifs <;> omega

theorem takeMask_eq {masked : Bool} {s r : Bytes} {m : Option Mask}
    (h : takeMask masked s = some (m, r)) : s = maskOctets m ++ r ∧ m.isSome = masked := by
  match masked, s with
  | false, s =>
    cases h
    exact ⟨rfl, rfl⟩
  | true, [] | true, [_] | true, [_, _] | true, [_, _, _] => simp [takeMask] at h
  | true, k0 :: k1 :: k2 :: k3 :: s =>
    cases h
    exact ⟨rfl, rfl⟩

/-- What was read is spelled at the front of the stream. -/
theorem encode_of_takeFrame {s t : Bytes} {f : Frame} (h : takeFrame s = some (f, t)) :
    s = f.encode ++ t := by
  unfold takeFrame at h
  cases hp : takePreamble s with
  | none => simp [hp] at h
  | some pr =>
    obtain ⟨p, r⟩ := pr
    simp only [hp] at h
    cases hm : takeMask p.masked r with
    | none => simp [hm] at h
    | some mr =>
      obtain ⟨m, u⟩ := mr
      simp only [hm] at h
      split_ifs at h with hle
      cases h
      obtain ⟨b1, hs, hb1⟩ := takePreamble_eq hp
      obtain ⟨hr, hsome⟩ := takeMask_eq hm
      have hlen : (u.take p.size).length = p.size := by simp [hle]
      have hsecond : (⟨p.head, m, p.form, applyMask m (u.take p.size), by
          simpa [hle] using p.fits⟩ : Frame).second = b1 := by
        apply UInt8.toNat_inj.mp
        rw [Frame.toNat_second, hb1]
        simp [hsome, hle]
      rw [Frame.encode, Frame.header, hsecond, hs, hr]
      simp [hle]

/-- Reading frames off a stream is not disturbed by later octets. -/
theorem takeFrame_append {s t : Bytes} {f : Frame} (h : takeFrame s = some (f, t)) (u : Bytes) :
    takeFrame (s ++ u) = some (f, t ++ u) := by
  rw [encode_of_takeFrame h, List.append_assoc, takeFrame_encode]

theorem takeFrame_length {s t : Bytes} {f : Frame} (h : takeFrame s = some (f, t)) :
    s.length = f.encode.length + t.length := by
  rw [encode_of_takeFrame h, List.length_append]

/-- A frame has at least its two octets of header. -/
theorem Frame.two_le_header (f : Frame) : 2 ≤ f.header.length := by
  simp [header]

end SeaClaw.Lib
