import SeaClaw.Websocket.Client

/-!
# Reassembly of messages

What a peer that follows the protocol sends, and that the client takes its messages out
of the frames again. The client holds the fragments received so far at the front of its
buffer, with space for one more octet.
-/

namespace SeaClaw.Websocket

open Lib

/-! ## The peer -/

/-- A text or binary frame. -/
def IsData (f : Frame) : Prop := f.opcode = opText ∨ f.opcode = opBinary

/-- Frames that a peer may send when `open` holds the fragments of the message that it is
sending, and the messages that they complete. The stream may end anywhere. -/
inductive Sends : Option Bytes → List Frame → List Bytes → Prop
  | stop (p) : Sends p [] []
  | control {p f fs ms} (hop : f.opcode = opPing ∨ f.opcode = opPong)
      (hlen : f.payload.length ≤ 125) (rest : Sends p fs ms) : Sends p (f :: fs) ms
  | close {p f} (hop : f.opcode = opClose) (hlen : f.payload.length ≤ 125) : Sends p [f] []
  | whole {f fs ms} (hop : IsData f) (hfin : f.fin = true) (hlen : f.payload.length ≤ maxMsg)
      (rest : Sends none fs ms) : Sends none (f :: fs) (f.payload :: ms)
  | first {f fs ms} (hop : IsData f) (hfin : f.fin = false) (hlen : f.payload.length ≤ maxMsg)
      (rest : Sends (some f.payload) fs ms) : Sends none (f :: fs) ms
  | middle {p f fs ms} (hop : f.opcode = opContinuation) (hfin : f.fin = false)
      (hlen : (p ++ f.payload).length ≤ maxMsg) (rest : Sends (some (p ++ f.payload)) fs ms) :
      Sends (some p) (f :: fs) ms
  | last {p f fs ms} (hop : f.opcode = opContinuation) (hfin : f.fin = true)
      (hlen : (p ++ f.payload).length ≤ maxMsg) (rest : Sends none fs ms) :
      Sends (some p) (f :: fs) ((p ++ f.payload) :: ms)

/-! ## One frame -/

/-- The octets of a frame up to its length are what the second octet says. -/
theorem headerNeed_second (f : Frame) : headerNeed f.second = f.header.length := by
  have hlow : ∀ b k : UInt8, (b &&& 0x7F = k) ↔ b.toNat % 128 = k.toNat := by
    intro b k
    rw [← UInt8.toNat_inj, UInt8.toNat_and]
    exact iff_of_eq (congrArg (· = k.toNat) (Nat.and_two_pow_sub_one_eq_mod _ 7))
  have hc := f.code_le
  have hfits := f.fits
  have hmask : (0x80 ≤ f.second) ↔ f.mask.isSome = true := by
    rw [UInt8.le_iff_toNat_le, f.toNat_second]
    change 128 ≤ _ ↔ _
    split_ifs with h <;> simp [h]
    omega
  have hcode : f.second.toNat % 128 = f.form.code f.payload.length := by
    rw [f.toNat_second]
    split_ifs <;> omega
  rw [headerNeed, f.length_header]
  simp only [hlow, high_bit, hmask, hcode]
  cases hform : f.form with
  | short =>
    rw [hform] at hfits
    simp only [LengthForm.Fits] at hfits
    have h6 : f.payload.length ≠ 126 := by omega
    have h7 : f.payload.length ≠ 127 := by omega
    simp [LengthForm.code, LengthForm.octets, h6, h7]
  | medium => simp [LengthForm.code, LengthForm.octets]
  | long => simp [LengthForm.code, LengthForm.octets]

/-- The header of a frame is read as a whole. -/
theorem readHeader_frame {f : Frame} {s : Socket} {D : Bytes} (h : Pending s (f.header ++ D)) :
    ∃ t, readHeader s = (some f.header, t) ∧ Pending t D := by
  obtain ⟨x, hx⟩ : ∃ x, f.header = [f.head, f.second] ++ x := ⟨_, rfl⟩
  rw [hx, List.append_assoc] at h
  obtain ⟨t, ht, hpend⟩ := readTo_append h (g := []) (n := 2) rfl
  obtain ⟨u, hu, hpend⟩ := readTo_append hpend (g := [f.head, f.second])
    (n := headerNeed f.second) (by rw [headerNeed_second, hx, List.length_append])
  refine ⟨u, ?_, hpend⟩
  rw [readHeader, ht, hx]
  exact hu

/-- The payload is unmasked with the mask of the header. -/
theorem unmaskPayload_frame (f : Frame) :
    unmaskPayload (headerOf f.preamble) f.header (applyMask f.mask f.payload) = f.payload := by
  rw [unmaskPayload, headerBytes_eq]
  cases hm : f.mask with
  | none => simp [headerOf, Frame.preamble, hm, applyMask]
  | some m =>
    have hheader : f.header = f.head :: f.second :: beOctets f.form.octets f.payload.length ++
        m.octets := by
      simp [Frame.header, hm, maskOctets]
    have hlen : f.header.length - 4 =
        (f.head :: f.second :: beOctets f.form.octets f.payload.length).length := by
      rw [hheader, List.length_append]
      simp [Mask.octets]
    have hkey : f.header.drop (f.header.length - 4) = m.octets := by
      rw [hlen]
      conv_lhs => rw [hheader]
      exact List.drop_left
    rw [hkey]
    by_cases h0 : f.payload = []
    · simp [headerOf, Frame.preamble, h0, applyMask, Mask.apply]
    · rw [if_pos ⟨List.length_pos_iff.mpr h0, by simp [headerOf, Frame.preamble, hm]⟩]
      exact Mask.apply_apply m f.payload

/-- A round reads the frame at the front of the stream and acts on it. -/
theorem recvFrame_frame {ws : WsClient} {f : Frame} {D : Bytes}
    (h : Pending ws.sock (f.encode ++ D)) (hlen : f.payload.length ≤ maxMsg) :
    ∃ t, Pending t D ∧
      recvFrame ws = handleFrame f.opcode f.fin f.payload { ws with sock := t } := by
  rw [Frame.encode, List.append_assoc] at h
  obtain ⟨s, hs, hpend⟩ := readHeader_frame h
  obtain ⟨t, ht, hpend⟩ := readTo_append hpend (g := []) (n := f.payload.length) (by simp)
  have hmax : f.payload.length ≤ maxFramePayload := by
    unfold maxMsg at hlen
    unfold maxFramePayload
    omega
  have hparse : scWsParseHeader f.header = some (headerOf f.preamble) := by
    simpa using scWsParseHeader_frame hmax []
  refine ⟨t, hpend, ?_⟩
  rw [recvFrame, hs]
  simp only [hparse]
  rw [show (headerOf f.preamble).payloadLen = f.payload.length from rfl,
    if_neg (Nat.not_lt.mpr hlen), ht, List.nil_append]
  simp only [unmaskPayload_frame]
  rfl

/-! ## The fragments -/

/-- The buffer begins with the fragments received so far and has space for one octet more. -/
def Collects (frag : Option Fragments) : Option Bytes → Prop
  | none => frag = none
  | some p => ∃ buf, frag = some ⟨buf, p.length⟩ ∧ p <+: buf ∧ p.length < buf.length

theorem doubleTo_spec {need fuel cap : ℕ} (h : need ≤ cap * 2 ^ fuel) :
    need ≤ doubleTo need fuel cap := by
  induction fuel generalizing cap with
  | zero => simpa [doubleTo] using h
  | succ fuel ih =>
    rw [doubleTo]
    split_ifs with hlt
    · refine ih ?_
      rw [Nat.pow_succ, Nat.mul_comm (2 ^ fuel)] at h
      rwa [Nat.mul_assoc]
    · omega

/-- Reallocation keeps the fragments and gives the space that is needed. -/
theorem growTo_spec {p buf : Bytes} (need : ℕ) (hp : p <+: buf) (hpos : 0 < buf.length) :
    p <+: growTo need buf ∧ need ≤ (growTo need buf).length := by
  rw [growTo]
  split_ifs with hlt
  · refine ⟨hp.trans (List.prefix_append _ _), ?_⟩
    have hpow : need < 2 ^ need := Nat.lt_two_pow_self
    have hdouble : need ≤ doubleTo need need (buf.length * 2) := by
      refine doubleTo_spec ?_
      calc need ≤ 1 * 2 ^ need := by omega
        _ ≤ buf.length * 2 * 2 ^ need := Nat.mul_le_mul_right _ (by omega)
    rw [List.length_append, List.length_replicate]
    omega
  · exact ⟨hp, by omega⟩

/-- A PING is answered or not; the rest of the client stays. -/
theorem pong_again (payload : Bytes) (ws : WsClient) :
    ∃ sent, pong payload ws = .again { ws with sent := sent } := by
  rw [pong]
  split_ifs with hlen
  · obtain ⟨⟨buf, n⟩, hbuild⟩ := scWsBuildFrame_isSome (b := List.replicate 128 0) (by simp)
      opPong payload ⟨0, 0, 0, 0⟩
    simp only [hbuild]
    by_cases hn : n > 0
    · exact ⟨_, by rw [if_pos hn]⟩
    · exact ⟨_, by rw [if_neg hn]⟩
  · exact ⟨_, rfl⟩

theorem firstFragment_collects (payload : Bytes) (ws : WsClient) :
    ∃ frag, firstFragment payload ws = .again { ws with frag := frag } ∧
      Collects frag (some payload) := by
  rw [firstFragment]
  set cap := if payload.length > 0 then payload.length + 1 else 64 with hcap
  have hlt : payload.length < cap := by
    rw [hcap]
    split_ifs <;> omega
  obtain ⟨buf, hbuf, hpre, hlen⟩ := poke_prefix (b := List.replicate cap 0) (p := [])
    (x := payload) List.nil_prefix (by simpa using hlt.le)
  rw [List.length_nil] at hbuf
  simp only [hbuf]
  exact ⟨_, rfl, buf, rfl, hpre, by rw [hlen, List.length_replicate]; exact hlt⟩

/-- The message is what the buffer begins with. -/
theorem finishMessage_collects {p : Bytes} {g : Fragments} (ws : WsClient)
    (h : Collects (some g) (some p)) :
    finishMessage g ws = .stop (.ok p) { ws with frag := none } := by
  obtain ⟨buf, hg, hpre, hlt⟩ := h
  cases hg
  obtain ⟨out, hout, hp, -⟩ := poke_prefix hpre (x := [0]) hlt
  simp only [finishMessage, hout]
  rw [← List.prefix_iff_eq_take.mp ((List.prefix_append _ _).trans hp)]

theorem continueMessage_collects {p payload : Bytes} {ws : WsClient} (fin : Bool)
    (h : Collects ws.frag (some p)) (hlen : (p ++ payload).length ≤ maxMsg) :
    ∃ g, Collects (some g) (some (p ++ payload)) ∧ continueMessage fin payload ws =
      if fin then finishMessage g ws else .again { ws with frag := some g } := by
  obtain ⟨buf, hfrag, hpre, hlt⟩ := h
  rw [List.length_append] at hlen
  rw [continueMessage, hfrag]
  by_cases h0 : payload.length > 0
  · obtain ⟨hpre, hneed⟩ := growTo_spec (p.length + payload.length + 1) hpre (by omega)
    obtain ⟨out, hout, hp, hout_len⟩ := poke_prefix hpre (x := payload) (by omega)
    refine ⟨⟨out, p.length + payload.length⟩, ⟨out, ?_, hp, ?_⟩, ?_⟩
    · rw [List.length_append]
    · rw [hout_len, List.length_append]
      omega
    · simp only [h0, ite_true, if_neg (Nat.not_lt.mpr hlen), hout]
  · have hnil : payload = [] := List.length_eq_zero_iff.mp (by omega)
    subst hnil
    rw [List.append_nil]
    refine ⟨⟨buf, p.length⟩, ⟨buf, rfl, hpre, hlt⟩, ?_⟩
    cases fin
    · simp [← hfrag]
    · simp

/-! The cases of the switch for the frames of a message. -/

theorem handleFrame_data {f : Frame} (hop : IsData f) (fin : Bool) (payload : Bytes)
    (ws : WsClient) : handleFrame f.opcode fin payload ws =
      if fin then .stop (.ok payload) { ws with frag := none }
      else firstFragment payload { ws with frag := none } := by
  rcases hop with hop | hop <;> rw [hop] <;> rfl

theorem handleFrame_continuation (fin : Bool) (payload : Bytes) (ws : WsClient) :
    handleFrame opContinuation fin payload ws = continueMessage fin payload ws := rfl

/-! ## One call -/

/-- The client before the peer sends frames that complete the messages `ms`. -/
structure Ready (ws : WsClient) (p : Option Bytes) (fs : List Frame) : Prop where
  connected : ws.connected = true
  collects : Collects ws.frag p
  pending : Pending ws.sock (fs.flatMap Frame.encode)

/-- The connection was closed, or the stream has ended. -/
def Finished (ws : WsClient) : Prop := ws.connected = false ∨ ws.sock = []

/-- What a call does: it returns the next message, or fails when there is none. -/
def Next : List Bytes → RecvResult × WsClient → Prop
  | [], r => r.1 = .error .io ∧ Finished r.2
  | m :: ms, r => r.1 = .ok m ∧ ∃ fs, Sends none fs ms ∧ Ready r.2 none fs

/-- The socket of a stream that has ended has nothing left. -/
theorem Pending.nil_of_end {s : Socket} (h : Pending s []) : s = [] := by
  obtain ⟨hflat, hsteady⟩ := h
  rw [List.flatten_eq_nil_iff] at hflat
  exact List.eq_nil_iff_forall_not_mem.mpr fun c hc => hsteady c hc (hflat c hc)

/-- A round on the next frame, which takes octets from the stream. -/
theorem Ready.round {ws : WsClient} {p : Option Bytes} {f : Frame} {fs : List Frame}
    (h : Ready ws p (f :: fs)) (hlen : f.payload.length ≤ maxMsg) :
    ∃ t, Ready { ws with sock := t } p fs ∧ t.flatten.length < ws.sock.flatten.length ∧
      recvFrame ws = handleFrame f.opcode f.fin f.payload { ws with sock := t } := by
  obtain ⟨hconn, hcol, hpend⟩ := h
  rw [List.flatMap_cons] at hpend
  obtain ⟨t, ht, hround⟩ := recvFrame_frame hpend hlen
  refine ⟨t, ⟨hconn, hcol, ht⟩, ?_, hround⟩
  have h2 := f.two_le_header
  rw [ht.flatten, hpend.flatten, List.length_append, f.length_encode]
  omega

/-- At the end of the stream a call fails. -/
theorem recvLoop_end {ws : WsClient} (h : ws.sock = []) (fuel : ℕ) :
    recvLoop (fuel + 1) ws = (.error .io, ws) := by
  have hround : recvFrame ws = .stop (.error .io) ws := by
    rw [recvFrame, readHeader, h, readTo_end (by decide)]
    simp only [← h]
  rw [recvLoop, hround]

/-- The loop goes on to the frame that completes the next message. -/
theorem recvLoop_next {p : Option Bytes} {fs : List Frame} {ms : List Bytes} (hs : Sends p fs ms)
    {ws : WsClient} (h : Ready ws p fs) {fuel : ℕ} (hfuel : ws.sock.flatten.length < fuel) :
    Next ms (recvLoop fuel ws) := by
  induction hs generalizing ws fuel with
  | stop p =>
    obtain ⟨n, rfl⟩ : ∃ n, fuel = n + 1 := ⟨fuel - 1, by omega⟩
    have hend := Pending.nil_of_end h.pending
    rw [recvLoop_end hend]
    exact ⟨rfl, Or.inr hend⟩
  | @control p f fs ms hop hlen rest ih =>
    obtain ⟨n, rfl⟩ : ∃ n, fuel = n + 1 := ⟨fuel - 1, by omega⟩
    obtain ⟨t, hready, hless, hround⟩ := h.round (hlen.trans (by decide))
    rw [recvLoop, hround]
    rcases hop with hop | hop
    · obtain ⟨sent, hpong⟩ := pong_again f.payload { ws with sock := t }
      have hsent : Ready { ws with sock := t, sent := sent } p fs :=
        ⟨hready.connected, hready.collects, hready.pending⟩
      rw [hop, handleFrame, if_pos rfl, hpong]
      exact ih hsent (by dsimp only; omega)
    · rw [hop]
      exact ih hready (by dsimp only; omega)
  | @close p f hop hlen =>
    obtain ⟨n, rfl⟩ : ∃ n, fuel = n + 1 := ⟨fuel - 1, by omega⟩
    obtain ⟨t, -, -, hround⟩ := h.round (hlen.trans (by decide))
    rw [recvLoop, hround, hop]
    exact ⟨rfl, Or.inl rfl⟩
  | @whole f fs ms hop hfin hlen rest ih =>
    obtain ⟨n, rfl⟩ : ∃ n, fuel = n + 1 := ⟨fuel - 1, by omega⟩
    obtain ⟨t, hready, -, hround⟩ := h.round hlen
    rw [recvLoop, hround, handleFrame_data hop, if_pos hfin]
    exact ⟨rfl, fs, rest, hready.connected, rfl, hready.pending⟩
  | @first f fs ms hop hfin hlen rest ih =>
    obtain ⟨n, rfl⟩ : ∃ n, fuel = n + 1 := ⟨fuel - 1, by omega⟩
    obtain ⟨t, hready, hless, hround⟩ := h.round hlen
    obtain ⟨frag, hfirst, hcol⟩ := firstFragment_collects f.payload { ws with sock := t, frag := none }
    have hfrag : Ready { ws with sock := t, frag := frag } (some f.payload) fs :=
      ⟨hready.connected, hcol, hready.pending⟩
    rw [recvLoop, hround, handleFrame_data hop, if_neg (by simp [hfin]), hfirst]
    exact ih hfrag (by dsimp only; omega)
  | @middle p f fs ms hop hfin hlen rest ih =>
    obtain ⟨n, rfl⟩ : ∃ n, fuel = n + 1 := ⟨fuel - 1, by omega⟩
    obtain ⟨t, hready, hless, hround⟩ := h.round (f := f) (by rw [List.length_append] at hlen; omega)
    obtain ⟨g, hcol, hcont⟩ := continueMessage_collects f.fin hready.collects hlen
    have hfrag : Ready { ws with sock := t, frag := some g } (some (p ++ f.payload)) fs :=
      ⟨hready.connected, hcol, hready.pending⟩
    rw [recvLoop, hround, hop, handleFrame_continuation, hcont, if_neg (by simp [hfin])]
    exact ih hfrag (by dsimp only; omega)
  | @last p f fs ms hop hfin hlen rest ih =>
    obtain ⟨n, rfl⟩ : ∃ n, fuel = n + 1 := ⟨fuel - 1, by omega⟩
    obtain ⟨t, hready, -, hround⟩ := h.round (f := f) (by rw [List.length_append] at hlen; omega)
    obtain ⟨g, hcol, hcont⟩ := continueMessage_collects f.fin hready.collects hlen
    rw [recvLoop, hround, hop, handleFrame_continuation, hcont, if_pos hfin,
      finishMessage_collects _ hcol]
    exact ⟨rfl, fs, rest, hready.connected, rfl, hready.pending⟩

/-! ## Runs -/

theorem scWsRecv_next {p : Option Bytes} {fs : List Frame} {ms : List Bytes} (hs : Sends p fs ms)
    {ws : WsClient} (h : Ready ws p fs) : Next ms (scWsRecv ws) := by
  rw [scWsRecv, if_pos h.connected]
  exact recvLoop_next hs h (Nat.lt_succ_self _)

theorem Finished.scWsRecv {ws : WsClient} (h : Finished ws) :
    scWsRecv ws = (.error .io, ws) := by
  rw [Websocket.scWsRecv]
  split_ifs with hconn
  · rcases h with h | h
    · simp [hconn] at h
    · exact recvLoop_end h _
  · rfl

theorem Finished.recvCalls {ws : WsClient} (h : Finished ws) (n : ℕ) :
    recvCalls n ws = List.replicate n (.error .io) := by
  induction n with
  | zero => rfl
  | succ n ih => rw [Websocket.recvCalls, h.scWsRecv, ih, List.replicate_succ]

/-- However the octets arrive, successive calls return the messages of the peer in their
order, and fail afterwards; in particular none writes past the end of a buffer. -/
theorem recvCalls_messages {fs : List Frame} {ms : List Bytes} (hs : Sends none fs ms)
    {ws : WsClient} (h : Ready ws none fs) (n : ℕ) :
    recvCalls (ms.length + n) ws = ms.map .ok ++ List.replicate n (.error .io) := by
  induction ms generalizing fs ws with
  | nil =>
    cases n with
    | zero => rfl
    | succ n =>
      obtain ⟨hio, hfin⟩ := scWsRecv_next hs h
      rw [List.length_nil, Nat.zero_add, recvCalls, hio, hfin.recvCalls, List.map_nil,
        List.nil_append, List.replicate_succ]
  | cons m ms ih =>
    obtain ⟨hok, fs', hs', hready⟩ := scWsRecv_next hs h
    rw [List.length_cons, Nat.add_right_comm, recvCalls, hok, ih hs' hready, List.map_cons,
      List.cons_append]

/-- A message in two fragments around a PING, and an empty message. -/
def someFrames : List Frame :=
  [⟨0x01, none, .short, ascii "h", by decide⟩, ⟨0x89, none, .short, [], by decide⟩,
    ⟨0x80, some ⟨1, 2, 3, 4⟩, .short, ascii "i", by decide⟩, ⟨0x82, none, .short, [], by decide⟩]

/-- Their octets arrive one by one. -/
theorem recvCalls_someFrames :
    recvCalls 3 ⟨true, (someFrames.flatMap Frame.encode).map fun b => [b], none, []⟩ =
      [.ok (ascii "hi"), .ok [], .error .io] := by
  have hs : Sends none someFrames [ascii "hi", []] :=
    .first (Or.inl rfl) rfl (by decide) <| .control (Or.inl rfl) (by decide) <|
      .last (p := ascii "h") rfl rfl (by decide) <| .whole (Or.inr rfl) rfl (by decide) (.stop none)
  have hready : Ready ⟨true, (someFrames.flatMap Frame.encode).map fun b => [b], none, []⟩ none
      someFrames := ⟨rfl, rfl, by decide, by decide⟩
  exact recvCalls_messages hs hready 1

end SeaClaw.Websocket
