import SeaClaw.Lib.CBuffer
import SeaClaw.Lib.WsWire

/-!
# Frame helpers

The frame parser and builder that client and server share, and what the parser makes of
the octets of a frame.
-/

namespace SeaClaw.Websocket

open Lib

def opContinuation : ℕ := 0
def opText : ℕ := 1
def opBinary : ℕ := 2
def opClose : ℕ := 8
def opPing : ℕ := 9
def opPong : ℕ := 10

/-- `SC_WS_MAX_FRAME_PAYLOAD` -/
def maxFramePayload : ℕ := 4 * 1024 * 1024

/-- `sc_ws_parsed_header_t` -/
structure ParsedHeader where
  opcode : ℕ
  fin : Bool
  masked : Bool
  payloadLen : ℕ
  headerBytes : ℕ
  deriving DecidableEq, Repr

/-- `(payload_len << 8) | bytes[i]` over some octets. -/
def shiftIn (ds : Bytes) : ℕ := ds.foldl (fun n b => n <<< 8 ||| b.toNat) 0

/-- `sc_ws_parse_header`; none where it returns -1. -/
def scWsParseHeader : Bytes → Option ParsedHeader
  | b0 :: b1 :: s =>
    let short := b1.toNat &&& 0x7F
    let length : Option (ℕ × ℕ) :=
      if short = 126 then if s.length < 2 then none else some (shiftIn (s.take 2), 4)
      else if short = 127 then if s.length < 8 then none else some (shiftIn (s.take 8), 10)
      else some (short, 2)
    let masked : Bool := b1 &&& 0x80 ≠ 0
    match length with
    | none => none
    | some (payloadLen, hlen) =>
      if payloadLen > maxFramePayload then none
      else
        some ⟨b0.toNat &&& 0x0F, b0 &&& 0x80 ≠ 0, masked, payloadLen,
          if masked then hlen + 4 else hlen⟩
  | _ => none

/-- `sc_ws_apply_mask` -/
def scWsApplyMask (payload : Bytes) (mask : Mask) : Bytes :=
  payload.mapIdx fun i b => b ^^^ mask.key i

/-- The length field of a client frame, with the mask bit. -/
def lengthField (n : ℕ) : Bytes :=
  if n ≤ 125 then [UInt8.ofNat (0x80 ||| n &&& 0x7F)]
  else if n ≤ 65535 then UInt8.ofNat (0x80 ||| 126) :: beOctets 2 n
  else UInt8.ofNat (0x80 ||| 127) :: beOctets 8 n

/-- `sc_ws_build_frame` into `buf`: the buffer and the octets written, zero on error. -/
def scWsBuildFrame (buf : Bytes) (opcode : ℕ) (payload : Bytes) (mask : Mask) :
    Option (Bytes × ℕ) :=
  if buf.length < 6 ∨ payload.length > maxFramePayload then some (buf, 0)
  else do
    let header := UInt8.ofNat (0x80 ||| opcode &&& 0x0F) ::
      (lengthField payload.length ++ mask.octets)
    let buf ← poke buf 0 header
    if header.length + payload.length > buf.length then some (buf, 0)
    else do
      let buf ← poke buf header.length (scWsApplyMask payload mask)
      some (buf, header.length + payload.length)

theorem length_lengthField (n : ℕ) : (lengthField n).length ≤ 9 := by
  unfold lengthField
  split_ifs <;> simp

/-- With space for the longest header, the builder stays inside the buffer. -/
theorem scWsBuildFrame_isSome {b : Bytes} (h : 14 ≤ b.length) (opcode : ℕ) (payload : Bytes)
    (mask : Mask) : ∃ r, scWsBuildFrame b opcode payload mask = some r := by
  have hfield := length_lengthField payload.length
  obtain ⟨header, hheader⟩ : ∃ x, x = UInt8.ofNat (0x80 ||| opcode &&& 0x0F) ::
    (lengthField payload.length ++ mask.octets) := ⟨_, rfl⟩
  have hlen : header.length ≤ 14 := by
    rw [hheader]
    simp [Mask.octets]
    omega
  rw [scWsBuildFrame, ← hheader]
  split_ifs with hguard
  · exact ⟨_, rfl⟩
  · obtain ⟨buf1, hbuf1, hpre, hlen1⟩ := poke_prefix (b := b) (p := []) (x := header)
      List.nil_prefix (by simpa using hlen.trans h)
    rw [List.length_nil] at hbuf1
    rw [List.nil_append] at hpre
    simp only [hbuf1, Option.bind_eq_bind, Option.bind_some]
    split_ifs with hlong
    · exact ⟨_, rfl⟩
    · obtain ⟨buf2, hbuf2, -, -⟩ := poke_prefix hpre (x := scWsApplyMask payload mask) (by
        rw [scWsApplyMask, List.length_mapIdx]
        omega)
      exact ⟨_, by rw [hbuf2]; rfl⟩

/-! ## The parser against the wire format -/

theorem shiftIn_eq (ds : Bytes) : shiftIn ds = beValue ds := by
  induction ds using List.reverseRecOn with
  | nil => rfl
  | append_singleton ds b ih =>
    have hstep : shiftIn (ds ++ [b]) = shiftIn ds <<< 8 ||| b.toNat := by simp [shiftIn]
    rw [hstep, beValue_append, ← ih, ← Nat.shiftLeft_add_eq_or_of_lt b.toNat_lt,
      Nat.shiftLeft_eq]

/-- The header of a frame as the parser reports it. -/
def headerOf (p : Preamble) : ParsedHeader where
  opcode := p.head.toNat % 16
  fin := 0x80 ≤ p.head
  masked := p.masked
  payloadLen := p.size
  headerBytes := 2 + p.form.octets + if p.masked then 4 else 0

theorem high_bit (b : UInt8) : (b &&& 0x80 ≠ 0) ↔ 0x80 ≤ b := by
  revert b
  decide +kernel

/-- The parser reads a preamble and turns down the long ones. -/
theorem scWsParseHeader_eq (s : Bytes) :
    scWsParseHeader s = match takePreamble s with
      | none => none
      | some (p, _) => if p.size > maxFramePayload then none else some (headerOf p) := by
  match s with
  | [] => rfl
  | [_] => rfl
  | b0 :: b1 :: s =>
    have hshort : b1.toNat &&& 0x7F = b1.toNat % 128 := Nat.and_two_pow_sub_one_eq_mod _ 7
    have hop : b0.toNat &&& 0x0F = b0.toNat % 16 := Nat.and_two_pow_sub_one_eq_mod _ 4
    have hmask : (0x80 ≤ b1) ↔ 128 ≤ b1.toNat := UInt8.le_iff_toNat_le
    have hlt := b1.toNat_lt
    simp only [scWsParseHeader, takePreamble, hshort, hop, high_bit, hmask, shiftIn_eq]
    by_cases h6 : b1.toNat % 128 = 126
    · by_cases hl : 2 ≤ s.length
      · simp only [h6, hl, Nat.not_lt.mpr hl, ite_true, ite_false, dite_true, headerOf,
          LengthForm.octets, decide_eq_true_eq]
        split_ifs <;> rfl
      · simp [h6, hl, Nat.lt_of_not_le hl]
    · by_cases h7 : b1.toNat % 128 = 127
      · by_cases hl : 8 ≤ s.length
        · simp only [h7, hl, Nat.reduceEqDiff, Nat.not_lt.mpr hl, ite_true, ite_false, dite_true,
            headerOf, LengthForm.octets, decide_eq_true_eq]
          split_ifs <;> rfl
        · simp [h7, hl, Nat.lt_of_not_le hl]
      · have h5 : b1.toNat % 128 ≤ 125 := by omega
        simp only [h6, h7, h5, ite_false, dite_true, headerOf, LengthForm.octets,
          decide_eq_true_eq]
        split_ifs <;> rfl

/-- The header of a whole frame that is not too long. -/
theorem scWsParseHeader_frame {f : Frame} (hf : f.payload.length ≤ maxFramePayload) (t : Bytes) :
    scWsParseHeader (f.header ++ t) = some (headerOf f.preamble) := by
  rw [scWsParseHeader_eq, takePreamble_header]
  exact if_neg (Nat.not_lt.mpr hf)

theorem headerBytes_eq (f : Frame) : (headerOf f.preamble).headerBytes = f.header.length := by
  rw [f.length_header]
  rfl

/-- Without a whole frame there is no header or not all that the header announces. -/
theorem scWsParseHeader_of_none {s : Bytes} (h : takeFrame s = none) :
    scWsParseHeader s = none ∨ ∃ hdr, scWsParseHeader s = some hdr ∧
      s.length < hdr.headerBytes + hdr.payloadLen := by
  rw [scWsParseHeader_eq]
  unfold takeFrame at h
  cases hp : takePreamble s with
  | none => exact Or.inl rfl
  | some pr =>
    obtain ⟨p, r⟩ := pr
    simp only [hp] at h
    by_cases hbig : p.size > maxFramePayload
    · exact Or.inl (if_pos hbig)
    · refine Or.inr ⟨headerOf p, if_neg hbig, ?_⟩
      obtain ⟨b1, hs, -⟩ := takePreamble_eq hp
      have hlen : s.length = 2 + p.form.octets + r.length := by
        rw [hs]
        simp
        omega
      cases hm : takeMask p.masked r with
      | none =>
        have hmasked : p.masked = true := by
          by_contra hu
          simp [Bool.not_eq_true _ ▸ hu, takeMask] at hm
        have hshort : r.length < 4 := by
          rw [hmasked] at hm
          rcases r with _ | ⟨a, _ | ⟨b, _ | ⟨c, _ | ⟨d, u⟩⟩⟩⟩
          any_goals simp [takeMask] at hm ⊢
        simp only [headerOf, hmasked]
        simp only [if_true]
        omega
      | some mr =>
        obtain ⟨m, u⟩ := mr
        simp only [hm] at h
        obtain ⟨hr, hsome⟩ := takeMask_eq hm
        have hu : u.length < p.size := by
          by_contra hle
          simp [Nat.not_lt.mp hle] at h
        have hmo : (maskOctets m).length = if p.masked then 4 else 0 := by
          cases m <;> simp [maskOctets, Mask.octets, ← hsome]
        rw [hr, List.length_append, hmo] at hlen
        simp only [headerOf]
        omega

end SeaClaw.Websocket
