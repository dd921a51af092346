import SeaClaw.Gateway.WsServer

/-!
# Runs of the receive loop

What one round does with the frame at the front of the buffer, and from it what a whole
call does. A callback that leaves the connection open leaves its buffer alone; one that
closes it sets the length to zero under the loop, which then wraps.
-/

namespace SeaClaw.Gateway

open Lib Websocket

/-! ## What a callback does to one connection -/

section Actions

variable {i : Fin maxConns}

/-- The action closes the connection `i`, if it is open. -/
def Action.Closes (i : Fin maxConns) : Action → Prop
  | .close j => j = i
  | .broadcast sent => sent i = false
  | _ => False

theorem closeConn_other (s : WsServer) {j : Fin maxConns} (h : i ≠ j) :
    (scWsServerCloseConn s j).conns i = s.conns i := by
  unfold scWsServerCloseConn
  dsimp only
  split_ifs
  · exact s.set_other h _
  · rfl

/-- A closed connection is inactive with nothing received. -/
theorem closeConn_same {s : WsServer} (h : (s.conns i).active = true) :
    ((scWsServerCloseConn s i).conns i).active = false ∧
      ((scWsServerCloseConn s i).conns i).recvLen = 0 := by
  unfold scWsServerCloseConn
  simp [h, WsServer.set]

theorem closeConn_recvLen {s : WsServer} (h : (s.conns i).recvLen = 0) (j : Fin maxConns) :
    ((scWsServerCloseConn s j).conns i).recvLen = 0 := by
  by_cases hij : i = j
  · subst hij
    by_cases ha : (s.conns i).active = true
    · exact (closeConn_same ha).2
    · simpa [scWsServerCloseConn, ha] using h
  · rw [closeConn_other s hij]
    exact h

/-- One step of a broadcast. -/
def broadcastStep (sent : Fin maxConns → Bool) (s : WsServer) (j : Fin maxConns) : WsServer :=
  if (s.conns j).active ∧ ¬ sent j then scWsServerCloseConn s j else s

theorem runAction_broadcast (s : WsServer) (sent : Fin maxConns → Bool) :
    runAction s (.broadcast sent) = (List.finRange maxConns).foldl (broadcastStep sent) s := rfl

theorem broadcast_keeps {sent : Fin maxConns → Bool} (hi : sent i = true)
    (js : List (Fin maxConns)) (s : WsServer) :
    (js.foldl (broadcastStep sent) s).conns i = s.conns i := by
  induction js generalizing s with
  | nil => rfl
  | cons j js ih =>
    rw [List.foldl_cons, ih]
    unfold broadcastStep
    split_ifs with h
    · refine closeConn_other s ?_
      rintro rfl
      exact h.2 hi
    · rfl

theorem broadcast_recvLen (sent : Fin maxConns → Bool) (js : List (Fin maxConns)) {s : WsServer}
    (h : (s.conns i).recvLen = 0) : ((js.foldl (broadcastStep sent) s).conns i).recvLen = 0 := by
  induction js generalizing s with
  | nil => exact h
  | cons j js ih =>
    rw [List.foldl_cons]
    refine ih ?_
    unfold broadcastStep
    split_ifs
    · exact closeConn_recvLen h j
    · exact h

theorem broadcast_closes {sent : Fin maxConns → Bool} (hi : sent i = false)
    {js : List (Fin maxConns)} (hmem : i ∈ js) {s : WsServer} (ha : (s.conns i).active = true) :
    ((js.foldl (broadcastStep sent) s).conns i).recvLen = 0 := by
  induction js generalizing s with
  | nil => simp at hmem
  | cons j js ih =>
    rw [List.foldl_cons]
    by_cases hij : i = j
    · subst hij
      have hstep : broadcastStep sent s i = scWsServerCloseConn s i :=
        if_pos ⟨ha, by simp [hi]⟩
      rw [hstep]
      exact broadcast_recvLen sent js (closeConn_same ha).2
    · refine ih (by simpa [hij] using hmem) ?_
      unfold broadcastStep
      split_ifs
      · rwa [closeConn_other s hij]
      · exact ha

theorem upgrade_keeps {s : WsServer} (ha : (s.conns i).active = true) :
    (scWsServerUpgrade s).conns i = s.conns i := by
  unfold scWsServerUpgrade
  split
  · rename_i j hj
    have hfree := List.find?_some hj
    refine s.set_other ?_ _
    rintro rfl
    simp [ha] at hfree
  · rfl

theorem upgrade_recvLen {s : WsServer} (h : (s.conns i).recvLen = 0) :
    ((scWsServerUpgrade s).conns i).recvLen = 0 := by
  unfold scWsServerUpgrade
  split
  · rename_i j hj
    by_cases hij : i = j
    · subst hij
      rw [show ({ s.set i freshConn with connCount := s.connCount + 1 } : WsServer).conns i =
        freshConn from s.set_same i _]
      rfl
    · rw [show ({ s.set j freshConn with connCount := s.connCount + 1 } : WsServer).conns i =
        s.conns i from s.set_other hij _]
      exact h
  · exact h

/-- An action that does not close an open connection changes at most its authentication. -/
theorem runAction_keeps {s : WsServer} {a : Action} (ha : (s.conns i).active = true)
    (hc : ¬ a.Closes i) : ∃ b, (runAction s a).conns i = { s.conns i with authenticated := b } := by
  cases a with
  | send j => exact ⟨_, rfl⟩
  | authenticate j b =>
    by_cases hij : i = j
    · subst hij
      exact ⟨b, s.set_same i _⟩
    · exact ⟨_, s.set_other hij _⟩
  | close j => exact ⟨_, closeConn_other s fun h => hc h.symm⟩
  | broadcast sent =>
    have hi : sent i = true := by simpa [Action.Closes] using hc
    rw [runAction_broadcast, broadcast_keeps hi]
    exact ⟨_, rfl⟩
  | upgrade => exact ⟨_, upgrade_keeps ha⟩

/-- Nothing is received while a callback runs. -/
theorem runAction_recvLen {s : WsServer} (a : Action) (h : (s.conns i).recvLen = 0) :
    ((runAction s a).conns i).recvLen = 0 := by
  cases a with
  | send j => exact h
  | authenticate j b =>
    by_cases hij : i = j
    · subst hij
      simpa [runAction] using h
    · simpa [runAction, s.set_other hij] using h
  | close j => exact closeConn_recvLen h j
  | broadcast sent =>
    rw [runAction_broadcast]
    exact broadcast_recvLen sent _ h
  | upgrade => exact upgrade_recvLen h

theorem runAction_closes {s : WsServer} {a : Action} (ha : (s.conns i).active = true)
    (hc : a.Closes i) : ((runAction s a).conns i).recvLen = 0 := by
  cases a with
  | close j =>
    cases hc
    exact (closeConn_same ha).2
  | broadcast sent =>
    rw [runAction_broadcast]
    exact broadcast_closes hc (List.mem_finRange i) ha
  | send j => exact hc.elim
  | authenticate j b => exact hc.elim
  | upgrade => exact hc.elim

theorem runActions_keeps {as : List Action} (hc : ∀ a ∈ as, ¬ a.Closes i) {s : WsServer}
    (ha : (s.conns i).active = true) :
    ∃ b, (runActions s as).conns i = { s.conns i with authenticated := b } := by
  induction as generalizing s with
  | nil => exact ⟨_, rfl⟩
  | cons a as ih =>
    rw [List.forall_mem_cons] at hc
    obtain ⟨b, hb⟩ := runAction_keeps ha hc.1
    obtain ⟨b', hb'⟩ := ih hc.2 (s := runAction s a) (by rw [hb]; exact ha)
    refine ⟨b', ?_⟩
    rw [runActions, List.foldl_cons]
    exact hb'.trans (by rw [hb])

theorem runActions_recvLen (as : List Action) {s : WsServer} (h : (s.conns i).recvLen = 0) :
    ((runActions s as).conns i).recvLen = 0 := by
  induction as generalizing s with
  | nil => exact h
  | cons a as ih => exact ih (runAction_recvLen a h)

theorem runActions_closes {as : List Action} (hc : ∃ a ∈ as, a.Closes i) {s : WsServer}
    (ha : (s.conns i).active = true) : ((runActions s as).conns i).recvLen = 0 := by
  induction as generalizing s with
  | nil => simp at hc
  | cons a as ih =>
    rw [runActions, List.foldl_cons]
    by_cases hca : a.Closes i
    · exact runActions_recvLen as (runAction_closes ha hca)
    · obtain ⟨b, hb⟩ := runAction_keeps ha hca
      refine ih ?_ (by rw [hb]; exact ha)
      obtain ⟨x, hx, hcx⟩ := hc
      rcases List.mem_cons.mp hx with rfl | hx
      · exact absurd hcx hca
      · exact ⟨x, hx, hcx⟩

end Actions

/-! ## One round -/

/-- What a frame makes visible. -/
def eventOf (f : Frame) : Option Event :=
  if f.opcode = opText ∨ f.opcode = opBinary then some (.message f.payload)
  else if f.opcode = opPing then some (.pong (f.payload.take 125))
  else none

/-- An open connection with the octets `D` left to process. -/
structure Holds (c : WsConn) (D : Bytes) : Prop where
  active : c.active = true
  bound : c.recvLen ≤ recvBufSize
  data : c.data = D

theorem Holds.length {c : WsConn} {D : Bytes} (h : Holds c D) : D.length = c.recvLen := by
  have hs := c.size
  have hb := h.bound
  rw [← h.data, WsConn.data, List.length_take]
  omega

/-- The octets of the frame and the rest stand at the front of the buffer. -/
theorem Holds.recvBuf {c : WsConn} {f : Frame} {t : Bytes} (h : Holds c (f.encode ++ t)) :
    c.recvBuf = f.header ++ (applyMask f.mask f.payload ++ (t ++ c.recvBuf.drop c.recvLen)) := by
  have hd := h.data
  rw [WsConn.data] at hd
  conv_lhs => rw [← List.take_append_drop c.recvLen c.recvBuf, hd, Frame.encode]
  simp

/-- The mask is the end of the header. -/
theorem maskAt_header {f : Frame} {m : Mask} (hm : f.mask = some m) (x : Bytes) :
    maskAt ((f.header ++ x).drop (f.header.length - 4)) = m := by
  have hheader : f.header = f.head :: f.second :: beOctets f.form.octets f.payload.length ++
      m.octets := by
    simp [Frame.header, hm, maskOctets]
  have hlen : f.header.length - 4 =
      (f.head :: f.second :: beOctets f.form.octets f.payload.length).length := by
    rw [hheader, List.length_append]
    simp [Mask.octets]
  rw [hlen, hheader, List.append_assoc, List.drop_left]
  rfl

/-- The loop unmasks the payload of the frame. -/
theorem unmasked_frame {c : WsConn} {f : Frame} {t : Bytes} (h : Holds c (f.encode ++ t)) :
    unmasked (headerOf f.preamble) c.recvBuf = f.payload := by
  have hbuf := h.recvBuf
  generalize t ++ c.recvBuf.drop c.recvLen = x at hbuf
  have hpayload : (c.recvBuf.drop f.header.length).take f.payload.length =
      applyMask f.mask f.payload := by
    rw [hbuf, List.drop_left, List.take_left' (length_applyMask _ _)]
  simp only [unmasked, headerBytes_eq]
  rw [show (headerOf f.preamble).payloadLen = f.payload.length from rfl,
    show (headerOf f.preamble).masked = f.mask.isSome from rfl, hpayload, length_applyMask]
  cases hm : f.mask with
  | none => simp [applyMask]
  | some m =>
    rw [hbuf, maskAt_header hm]
    by_cases h0 : 0 < f.payload.length
    · rw [if_pos ⟨rfl, h0⟩]
      exact Mask.apply_apply m f.payload
    · have hnil : f.payload = [] := List.length_eq_zero_iff.mp (by omega)
      simp [hnil, applyMask, Mask.apply]

/-- Unmasking touches nothing behind the frame. -/
theorem unmask_drop {c : WsConn} {hdr : ParsedHeader}
    (h : hdr.headerBytes + hdr.payloadLen ≤ c.recvBuf.length) :
    (c.unmask hdr h).recvBuf.drop (hdr.headerBytes + hdr.payloadLen) =
      c.recvBuf.drop (hdr.headerBytes + hdr.payloadLen) := by
  have hlen := length_unmasked h
  refine List.drop_left' ?_
  rw [List.length_append, List.length_take, hlen]
  omega

/-- A round without a whole frame in the buffer ends the loop. -/
theorem processFrame_wait {w : World} {i : Fin maxConns} {st : Loop} {D : Bytes}
    (h : Holds (st.server.conns i) D) (hD : takeFrame D = none) :
    processFrame w i st = .stop .ok st := by
  have hlen := h.length
  simp only [processFrame, h.data]
  by_cases h2 : (st.server.conns i).recvLen < 2
  · rw [if_pos h2]
  · rw [if_neg h2]
    rcases scWsParseHeader_of_none hD with hnone | ⟨hdr, hsome, hlt⟩
    · rw [hnone]
    · rw [hsome]
      simp only
      rw [if_pos (by omega)]

/-- A round with a whole frame in the buffer acts on the frame. -/
theorem processFrame_frame {w : World} {i : Fin maxConns} {st : Loop} {f : Frame} {t : Bytes}
    (h : Holds (st.server.conns i) (f.encode ++ t)) :
    ∃ c, Holds c (c.data) ∧ c.recvLen = (f.encode ++ t).length ∧
      c.data.drop f.encode.length = t ∧ processFrame w i st =
        dispatch w i f.opcode f.encode.length f.payload
          { st with server := st.server.set i c } := by
  have hlen := h.length
  have hsize := (st.server.conns i).size
  have hbound := h.bound
  have hpay := unmasked_frame h
  have henc := f.length_encode
  have h2 := f.two_le_header
  have htotal : (headerOf f.preamble).headerBytes + (headerOf f.preamble).payloadLen =
      f.encode.length := by
    rw [headerBytes_eq, henc]
    rfl
  rw [List.length_append] at hlen
  have hfit : (headerOf f.preamble).headerBytes + (headerOf f.preamble).payloadLen ≤
      (st.server.conns i).recvBuf.length := by omega
  have hmax : f.payload.length ≤ maxFramePayload := by
    unfold maxFramePayload
    unfold recvBufSize at hbound
    omega
  have hparse : scWsParseHeader (f.encode ++ t) = some (headerOf f.preamble) := by
    rw [Frame.encode, List.append_assoc]
    exact scWsParseHeader_frame hmax _
  refine ⟨(st.server.conns i).unmask (headerOf f.preamble) hfit, ⟨h.active, hbound, rfl⟩,
    by rw [List.length_append]; exact hlen.symm, ?_, ?_⟩
  · rw [WsConn.data, List.drop_take, ← htotal, unmask_drop hfit, ← List.drop_take, htotal]
    exact (congrArg (List.drop f.encode.length) h.data).trans List.drop_left
  · simp only [processFrame, h.data, hparse]
    rw [if_neg (by omega), if_neg (by omega), dif_pos hfit, htotal, hpay]
    rfl

/-- The end of a round drops the frame, if the record still holds it. -/
theorem dropFrame_again {i : Fin maxConns} {total : ℕ} {s : Loop} {c : WsConn}
    (hc : Holds c c.data) (b : Bool)
    (hst : s.server.conns i = { c with authenticated := b }) (hle : total ≤ c.recvLen) :
    ∃ st', dropFrame i total s = .again st' ∧ Holds (st'.server.conns i) (c.data.drop total) ∧
      st'.log = s.log := by
  have hsize := c.size
  have hbound := hc.bound
  have hlt : ¬ (s.server.conns i).recvLen < total := by
    rw [hst]
    exact Nat.not_lt.mpr hle
  refine ⟨_, if_neg hlt, ?_, rfl⟩
  have hmoved : ((c.recvBuf.drop total).take (c.recvLen - total)).length = c.recvLen - total := by
    rw [List.length_take, List.length_drop]
    omega
  simp only [WsServer.set_same, hst]
  refine ⟨hc.active, by simp only [WsConn.shift]; omega, ?_⟩
  rw [WsConn.data, WsConn.shift, List.take_left' hmoved, WsConn.data, List.drop_take]

/-- With nothing received any more, the end of the round wraps. -/
theorem dropFrame_wrapped {i : Fin maxConns} {total : ℕ} {st : Loop}
    (h : (st.server.conns i).recvLen = 0) (hpos : 0 < total) :
    dropFrame i total st = .stop .wrapped st := by
  have hlt : (st.server.conns i).recvLen < total := by omega
  exact if_pos hlt

/-! The cases of the switch, by what the frame shows. -/

section Dispatch

variable (w : World) (i : Fin maxConns) (st : Loop) {f : Frame} {p : Bytes} (total : ℕ)

theorem dispatch_message (he : eventOf f = some (.message p)) :
    dispatch w i f.opcode total f.payload st =
      dropFrame i total ⟨runActions st.server (w.onMessage (st.log ++ [.message p])),
        st.log ++ [.message p]⟩ := by
  unfold eventOf at he
  split_ifs at he with h1 h2
  · cases he
    exact if_pos h1
  · cases he

theorem dispatch_ping (he : eventOf f = some (.pong p)) :
    dispatch w i f.opcode total f.payload st =
      if w.pongSent (st.log ++ [.pong p]) then dropFrame i total ⟨st.server, st.log ++ [.pong p]⟩
      else .stop .io ⟨scWsServerCloseConn st.server i, st.log ++ [.pong p]⟩ := by
  unfold eventOf at he
  split_ifs at he with h1 h2
  · cases he
  · cases he
    rw [dispatch, if_neg h1, if_pos h2]

theorem dispatch_close (hop : f.opcode = opClose) :
    dispatch w i f.opcode total f.payload st =
      .stop .io { st with server := scWsServerCloseConn st.server i } := by
  have h1 : ¬ (f.opcode = opText ∨ f.opcode = opBinary) := by rw [hop]; decide
  have h2 : ¬ f.opcode = opPing := by rw [hop]; decide
  rw [dispatch, if_neg h1, if_neg h2, if_pos hop]

theorem dispatch_quiet (hop : f.opcode ≠ opClose) (he : eventOf f = none) :
    dispatch w i f.opcode total f.payload st = dropFrame i total st := by
  unfold eventOf at he
  split_ifs at he with h1 h2
  rw [dispatch, if_neg h1, if_neg h2, if_neg hop]

end Dispatch

section Rounds

variable {w : World} {i : Fin maxConns} {st : Loop} {f : Frame} {t : Bytes}

/-- A CLOSE frame closes the connection and ends the loop. -/
theorem processFrame_close (h : Holds (st.server.conns i) (f.encode ++ t))
    (hop : f.opcode = opClose) :
    ∃ st', processFrame w i st = .stop .io st' ∧ (st'.server.conns i).active = false ∧
      (st'.server.conns i).recvLen = 0 ∧ st'.log = st.log := by
  obtain ⟨c, hc, -, -, hturn⟩ := processFrame_frame (w := w) h
  have hclosed := closeConn_same (i := i) (s := st.server.set i c) (by
    rw [WsServer.set_same]
    exact hc.active)
  rw [hturn, dispatch_close w i _ _ hop]
  exact ⟨_, rfl, hclosed.1, hclosed.2, rfl⟩

/-- A frame that shows nothing is dropped. -/
theorem processFrame_quiet (h : Holds (st.server.conns i) (f.encode ++ t))
    (hop : f.opcode ≠ opClose) (he : eventOf f = none) :
    ∃ st', processFrame w i st = .again st' ∧ Holds (st'.server.conns i) t ∧
      st'.log = st.log := by
  obtain ⟨c, hc, hlen, hdrop, hturn⟩ := processFrame_frame (w := w) h
  rw [hturn, dispatch_quiet w i _ _ hop he]
  obtain ⟨st', hst', hholds, hlog⟩ := dropFrame_again
    (s := { st with server := st.server.set i c }) hc c.authenticated (WsServer.set_same ..)
    (by rw [hlen, List.length_append]; omega : f.encode.length ≤ c.recvLen)
  rw [hdrop] at hholds
  exact ⟨st', hst', hholds, hlog⟩

/-- A PING is answered and dropped if the answer can be sent. -/
theorem processFrame_ping {p : Bytes} (h : Holds (st.server.conns i) (f.encode ++ t))
    (he : eventOf f = some (.pong p)) (hsent : w.pongSent (st.log ++ [.pong p]) = true) :
    ∃ st', processFrame w i st = .again st' ∧ Holds (st'.server.conns i) t ∧
      st'.log = st.log ++ [.pong p] := by
  obtain ⟨c, hc, hlen, hdrop, hturn⟩ := processFrame_frame (w := w) h
  rw [hturn, dispatch_ping w i _ _ he, if_pos hsent]
  obtain ⟨st', hst', hholds, hlog⟩ := dropFrame_again
    (s := ⟨st.server.set i c, st.log ++ [.pong p]⟩) hc c.authenticated (WsServer.set_same ..)
    (by rw [hlen, List.length_append]; omega : f.encode.length ≤ c.recvLen)
  rw [hdrop] at hholds
  exact ⟨st', hst', hholds, hlog⟩

/-- Otherwise the connection is closed and the loop ends. -/
theorem processFrame_unsent {p : Bytes} (h : Holds (st.server.conns i) (f.encode ++ t))
    (he : eventOf f = some (.pong p)) (hsent : ¬ w.pongSent (st.log ++ [.pong p]) = true) :
    ∃ st', processFrame w i st = .stop .io st' ∧ (st'.server.conns i).active = false ∧
      (st'.server.conns i).recvLen = 0 ∧ st'.log = st.log ++ [.pong p] := by
  obtain ⟨c, hc, -, -, hturn⟩ := processFrame_frame (w := w) h
  have hclosed := closeConn_same (i := i) (s := st.server.set i c) (by
    rw [WsServer.set_same]
    exact hc.active)
  rw [hturn, dispatch_ping w i _ _ he, if_neg hsent]
  exact ⟨_, rfl, hclosed.1, hclosed.2, rfl⟩

/-- A message is delivered and dropped if the callback leaves the connection open. -/
theorem processFrame_message {p : Bytes} (h : Holds (st.server.conns i) (f.encode ++ t))
    (he : eventOf f = some (.message p))
    (hkeep : ∀ a ∈ w.onMessage (st.log ++ [.message p]), ¬ a.Closes i) :
    ∃ st', processFrame w i st = .again st' ∧ Holds (st'.server.conns i) t ∧
      st'.log = st.log ++ [.message p] := by
  obtain ⟨c, hc, hlen, hdrop, hturn⟩ := processFrame_frame (w := w) h
  rw [hturn, dispatch_message w i _ _ he]
  obtain ⟨b, hb⟩ := runActions_keeps hkeep (s := st.server.set i c) (by
    rw [WsServer.set_same]
    exact hc.active)
  rw [WsServer.set_same] at hb
  obtain ⟨st', hst', hholds, hlog⟩ := dropFrame_again
    (s := ⟨runActions (st.server.set i c) (w.onMessage (st.log ++ [.message p])),
      st.log ++ [.message p]⟩) hc b hb
    (by rw [hlen, List.length_append]; omega : f.encode.length ≤ c.recvLen)
  rw [hdrop] at hholds
  exact ⟨st', hst', hholds, hlog⟩

/-- A callback that closes the connection makes the round wrap. -/
theorem processFrame_wrapped {p : Bytes} (h : Holds (st.server.conns i) (f.encode ++ t))
    (he : eventOf f = some (.message p))
    (hclose : ∃ a ∈ w.onMessage (st.log ++ [.message p]), a.Closes i) :
    ∃ st', processFrame w i st = .stop .wrapped st' := by
  obtain ⟨c, hc, -, -, hturn⟩ := processFrame_frame (w := w) h
  have hzero := runActions_closes hclose (s := st.server.set i c) (by
    rw [WsServer.set_same]
    exact hc.active)
  have hpos : 0 < f.encode.length := by
    have h2 := f.two_le_header
    rw [f.length_encode]
    omega
  rw [hturn, dispatch_message w i _ _ he]
  exact ⟨_, dropFrame_wrapped hzero hpos⟩

end Rounds

end SeaClaw.Gateway
