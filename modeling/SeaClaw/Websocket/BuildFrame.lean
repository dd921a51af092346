import SeaClaw.Websocket.Header

/-!
# Frames of the client

The builder writes the header before it looks whether the frame fits, so that a small buffer is
left when the length takes more than the octets that were asked for. In every other buffer the
frame that it writes is read back by the parser.
-/

namespace SeaClaw.Websocket

open Lib

/-! ## The frame -/

/-- The form in which the builder states a length. -/
def clientForm (n : ℕ) : LengthForm :=
  if n ≤ 125 then .short else if n ≤ 65535 then .medium else .long

theorem clientForm_fits {n : ℕ} (h : n ≤ maxFramePayload) : (clientForm n).Fits n := by
  have hmax : maxFramePayload < 256 ^ 8 := by decide
  rw [clientForm]
  split_ifs with hshort hmedium
  · exact hshort
  · exact Nat.lt_succ_of_le hmedium
  · exact h.trans_lt hmax

/-- The octets in front of the payload. -/
def clientHeaderLen (n : ℕ) : ℕ := 6 + (clientForm n).octets

/-- The frame that the builder is asked for. -/
def clientFrame (opcode : ℕ) (payload : Bytes) (mask : Mask)
    (h : payload.length ≤ maxFramePayload) : Frame where
  head := UInt8.ofNat (0x80 ||| opcode &&& 0x0F)
  mask := some mask
  form := clientForm payload.length
  payload := payload
  fits := clientForm_fits h

section Frame

variable {opcode : ℕ} {payload : Bytes} {mask : Mask} (h : payload.length ≤ maxFramePayload)

theorem short_code : ∀ n < 126, 0x80 ||| n &&& 0x7F = 128 + n := by decide

/-- The length field with its mask bit, as the frame has it. -/
theorem lengthField_eq (n : ℕ) : lengthField n =
    UInt8.ofNat (128 + (clientForm n).code n) :: beOctets (clientForm n).octets n := by
  rw [lengthField, clientForm]
  split_ifs with hshort hmedium
  · rw [short_code n (Nat.lt_succ_of_le hshort)]
    rfl
  · rfl
  · rfl

/-- The builder writes the header of the frame. -/
theorem clientFrame_header : UInt8.ofNat (0x80 ||| opcode &&& 0x0F) ::
    (lengthField payload.length ++ mask.octets) = (clientFrame opcode payload mask h).header := by
  rw [lengthField_eq]
  rfl

theorem length_clientFrame_header :
    (clientFrame opcode payload mask h).header.length = clientHeaderLen payload.length := by
  rw [Frame.length_header, clientHeaderLen]
  simp only [clientFrame, Option.isSome_some, if_true]
  omega

theorem scWsApplyMask_eq : scWsApplyMask payload mask = mask.apply payload := rfl

/-- The first octet says that the frame is the last one and names the opcode. -/
theorem head_bits : ∀ opcode < 16, 0x80 ≤ UInt8.ofNat (0x80 ||| opcode &&& 0x0F) ∧
    (UInt8.ofNat (0x80 ||| opcode &&& 0x0F)).toNat % 16 = opcode := by
  decide

end Frame

/-! ## What the builder does -/

/-- What a call has to do: it writes inside of the buffer, and what it writes, if anything, is
read as the frame it was asked for. -/
def BuildsFrame (buf : Bytes) (opcode : ℕ) (payload : Bytes) (mask : Mask) : Prop :=
  ∃ buf' n, scWsBuildFrame buf opcode payload mask = some (buf', n) ∧
    (n = 0 ∨ n = clientHeaderLen payload.length + payload.length ∧
      ∃ hdr, scWsParseHeader (buf'.take n) = some hdr ∧ hdr.fin = true ∧ hdr.masked = true ∧
        hdr.opcode = opcode ∧ hdr.payloadLen = payload.length ∧
        hdr.headerBytes + hdr.payloadLen = n ∧
        scWsApplyMask ((buf'.take n).drop hdr.headerBytes) mask = payload)

section Builder

variable {buf : Bytes} {opcode : ℕ} {payload : Bytes} {mask : Mask}

/-- A header that is longer than the buffer is written past its end. -/
theorem scWsBuildFrame_overrun (h : payload.length ≤ maxFramePayload) (hsize : 6 ≤ buf.length)
    (hshort : buf.length < clientHeaderLen payload.length) :
    scWsBuildFrame buf opcode payload mask = none := by
  have hguard : ¬ (buf.length < 6 ∨ payload.length > maxFramePayload) := by omega
  have hout : buf.length < 0 + (clientFrame opcode payload mask h).header.length := by
    rw [length_clientFrame_header h]
    omega
  rw [scWsBuildFrame, if_neg hguard, clientFrame_header h]
  simp only [poke_eq_none hout, Option.bind_eq_bind, Option.bind_none]

/-- In a buffer for the header, the frame is written if it fits. -/
theorem scWsBuildFrame_fits (h : payload.length ≤ maxFramePayload)
    (hsize : clientHeaderLen payload.length ≤ buf.length) :
    (∃ buf', scWsBuildFrame buf opcode payload mask = some (buf', 0)) ∨
    ∃ buf', scWsBuildFrame buf opcode payload mask =
        some (buf', clientHeaderLen payload.length + payload.length) ∧
      (clientFrame opcode payload mask h).encode <+: buf' := by
  have hguard : ¬ (buf.length < 6 ∨ payload.length > maxFramePayload) := by
    rw [clientHeaderLen] at hsize
    omega
  have hlen := @length_clientFrame_header opcode payload mask h
  obtain ⟨header, hheader⟩ : ∃ x, (clientFrame opcode payload mask h).header = x := ⟨_, rfl⟩
  rw [hheader] at hlen
  obtain ⟨buf1, hbuf1, hstarts, hlen1⟩ := poke_prefix (b := buf) (p := []) (x := header)
    List.nil_prefix (by rw [List.length_nil, hlen]; omega)
  rw [List.length_nil] at hbuf1
  rw [List.nil_append] at hstarts
  rw [scWsBuildFrame, if_neg hguard, clientFrame_header h, hheader]
  simp only [hbuf1, Option.bind_eq_bind, Option.bind_some]
  split_ifs with hlong
  · exact Or.inl ⟨buf1, rfl⟩
  · have hmask : (scWsApplyMask payload mask).length = payload.length := List.length_mapIdx
    obtain ⟨buf2, hbuf2, hstarts2, -⟩ := poke_prefix (x := scWsApplyMask payload mask) hstarts
      (by rw [hmask]; omega)
    refine Or.inr ⟨buf2, ?_, ?_⟩
    · rw [hbuf2, hlen]
      rfl
    · rw [Frame.encode, hheader]
      exact hstarts2

/-- What the parser makes of the frame. -/
theorem parse_clientFrame (h : payload.length ≤ maxFramePayload) (hop : opcode < 16) :
    ∃ hdr, scWsParseHeader (clientFrame opcode payload mask h).encode = some hdr ∧
      hdr.fin = true ∧ hdr.masked = true ∧ hdr.opcode = opcode ∧
      hdr.payloadLen = payload.length ∧ hdr.headerBytes = clientHeaderLen payload.length := by
  obtain ⟨hfin, hcode⟩ := head_bits opcode hop
  refine ⟨_, scWsParseHeader_frame h _, ?_, rfl, hcode, rfl, ?_⟩
  · exact decide_eq_true hfin
  · rw [headerBytes_eq, length_clientFrame_header]

end Builder

/-- A call does what it has to exactly if the buffer is too small to begin with, or has space
for the header. -/
theorem ws_build_frame_iff (buf : Bytes) {opcode : ℕ} {payload : Bytes} (mask : Mask)
    (hop : opcode < 16) (h : payload.length ≤ maxFramePayload) :
    BuildsFrame buf opcode payload mask ↔
      buf.length < 6 ∨ clientHeaderLen payload.length ≤ buf.length := by
  constructor
  · rintro ⟨buf', n, hbuild, -⟩
    by_contra hshort
    rw [not_or, not_lt, not_le] at hshort
    rw [scWsBuildFrame_overrun h hshort.1 hshort.2] at hbuild
    exact absurd hbuild (Option.some_ne_none _).symm
  · rintro (hsmall | hsize)
    · exact ⟨buf, 0, by rw [scWsBuildFrame, if_pos (Or.inl hsmall)], Or.inl rfl⟩
    · rcases @scWsBuildFrame_fits buf opcode payload mask h hsize with
        ⟨buf', hbuild⟩ | ⟨buf', hbuild, hstarts⟩
      · exact ⟨buf', 0, hbuild, Or.inl rfl⟩
      · obtain ⟨hdr, hparse, hfin, hmasked, hopcode, hlen, hbytes⟩ :=
          @parse_clientFrame opcode payload mask h hop
        have hframe : buf'.take (clientHeaderLen payload.length + payload.length) =
            (clientFrame opcode payload mask h).encode := by
          have hencode := (clientFrame opcode payload mask h).length_encode
          rw [length_clientFrame_header] at hencode
          rw [List.prefix_iff_eq_take.mp hstarts, hencode]
          rfl
        refine ⟨buf', _, hbuild, Or.inr ⟨rfl, hdr, ?_, hfin, hmasked, hopcode, hlen, ?_, ?_⟩⟩
        · rw [hframe, hparse]
        · rw [hbytes, hlen]
        · rw [hframe, hbytes, Frame.encode, ← @length_clientFrame_header opcode payload mask h,
            List.drop_left]
          exact Mask.apply_apply mask payload

/-- A ping of two octets in a buffer that just holds it. -/
theorem ws_build_frame_ping : opPing < 16 ∧ (ascii "hi").length ≤ maxFramePayload ∧
    (BuildsFrame (List.replicate 8 0) opPing (ascii "hi") ⟨1, 2, 3, 4⟩ ↔
      (List.replicate 8 (0 : UInt8)).length < 6 ∨
        clientHeaderLen (ascii "hi").length ≤ (List.replicate 8 (0 : UInt8)).length) :=
  ⟨by decide, by decide, ws_build_frame_iff _ _ (by decide) (by decide)⟩

/-- A payload of 126 octets and a buffer of six: the header is written past the end. -/
theorem ws_build_frame_overruns :
    ¬ BuildsFrame (List.replicate 6 0) opText (List.replicate 126 0) ⟨0, 0, 0, 0⟩ := by
  rintro ⟨buf', n, hbuild, -⟩
  have hnone : scWsBuildFrame (List.replicate 6 0) opText (List.replicate 126 0) ⟨0, 0, 0, 0⟩ =
      none := by decide +kernel
  rw [hnone] at hbuild
  exact absurd hbuild (Option.some_ne_none _).symm

end SeaClaw.Websocket
