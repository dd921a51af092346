import SeaClaw.Gateway.WsServerFraming

/-!
# Reads of a connection

A connection is read in chunks, and each read is followed by a call of the loop. The
octets in the buffer are the rest of the stream received so far after its frames, until
the connection is closed; from then on no frame can be added to those delivered.
-/

namespace SeaClaw.Gateway

open Lib Websocket

/-- Successive calls of `sc_ws_server_read_and_process`. -/
def feed (w : World) (i : Fin maxConns) : List Bytes → Loop → Loop
  | [], st => st
  | c :: cs, st => feed w i cs (scWsServerReadAndProcess w i c st).2

/-- The chunks are what `recv` can return: while there is space, at least one octet and at
most the free space. -/
def Reads (w : World) (i : Fin maxConns) : List Bytes → Loop → Prop
  | [], _ => True
  | c :: cs, st =>
    ((st.server.conns i).active = true → (st.server.conns i).recvLen < recvBufSize →
      c ≠ [] ∧ c.length ≤ recvBufSize - (st.server.conns i).recvLen) ∧
    Reads w i cs (scWsServerReadAndProcess w i c st).2

/-- The callbacks leave connection `i` open. -/
def Passive (w : World) (i : Fin maxConns) : Prop :=
  ∀ log, ∀ a ∈ w.onMessage log, ¬ a.Closes i

/-- No later octets give a frame that the server goes on with. -/
def Stuck (s : Bytes) : Prop := ∀ t, serverStep (s ++ t) = none

/-- The connection after the octets `S` were received: open with the rest of them in the
buffer, or closed with all shown that these octets and any later ones can show. -/
inductive Received (w : World) (i : Fin maxConns) (log : List Event) (S : Bytes) (st : Loop) : Prop
  | opened (holds : Holds (st.server.conns i) (restOf S))
      (shows : ∀ fs, shown w log (framesOf S ++ fs) = shown w st.log fs)
  | closed (inactive : (st.server.conns i).active = false)
      (final : ∀ t, shown w log (framesOf (S ++ t)) = st.log)

theorem Received.log_eq {w : World} {i : Fin maxConns} {log : List Event} {S : Bytes} {st : Loop}
    (h : Received w i log S st) : st.log = shown w log (framesOf S) := by
  cases h with
  | opened holds shows => simpa [shown] using (shows []).symm
  | closed inactive final => simpa using (final []).symm

theorem Passive.keepsOpen {w : World} {i : Fin maxConns} (hw : Passive w i) (log : List Event)
    (fs : List Frame) : KeepsOpen w i log fs := by
  induction fs generalizing log with
  | nil => trivial
  | cons f fs ih =>
    rw [KeepsOpen]
    cases eventOf f with
    | none => exact ih log
    | some e =>
      cases e with
      | message p => exact ⟨hw _, ih _⟩
      | pong p => exact fun _ => ih _

/-- If every PONG can be sent, all frames are shown. -/
theorem shown_eq {w : World} (hw : ∀ log, w.pongSent log = true) (log : List Event)
    (fs : List Frame) : shown w log fs = log ++ fs.filterMap eventOf := by
  induction fs generalizing log with
  | nil => simp [shown]
  | cons f fs ih =>
    rw [shown]
    cases he : eventOf f with
    | none => simp [he, ih]
    | some e =>
      cases e with
      | message p => simp [he, ih]
      | pong p => simp [he, ih, hw]

/-- What is shown depends on the frames and on which PONGs can be sent. -/
theorem shown_congr {w w' : World} (hw : w.pongSent = w'.pongSent) (log : List Event)
    (fs : List Frame) : shown w log fs = shown w' log fs := by
  induction fs generalizing log with
  | nil => rfl
  | cons f fs ih =>
    rw [shown, shown, hw]
    cases eventOf f with
    | none => exact ih log
    | some e =>
      cases e with
      | message p => exact ih _
      | pong p =>
        simp only
        split_ifs
        · exact ih _
        · rfl

theorem framesOf_append (s t : Bytes) : framesOf (s ++ t) = framesOf s ++ framesOf (restOf s ++ t) ∧
    restOf (s ++ t) = restOf (restOf s ++ t) := by
  unfold framesOf restOf
  rw [decodeAll_append serverStep_stream]
  exact ⟨rfl, rfl⟩

theorem serverStep_restOf (s : Bytes) : serverStep (restOf s) = none :=
  step_rest serverStep_stream s

/-- The stream begins with the frames `fs`, none a CLOSE and each fitting the buffer, and
the frame at the front of the rest, if it is there, is a CLOSE or oversized. -/
structure Carries (S : Bytes) (fs : List Frame) (rest : Bytes) : Prop where
  split : S = fs.flatMap Frame.encode ++ rest
  goesOn : ∀ f ∈ fs, f.opcode ≠ opClose ∧ f.encode.length ≤ recvBufSize
  ends : ∀ (f : Frame) (t : Bytes), rest = f.encode ++ t → f.opcode = opClose ∨ recvBufSize < f.encode.length

theorem carries_framesOf (S : Bytes) : Carries S (framesOf S) (restOf S) := by
  induction h : S.length using Nat.strong_induction_on generalizing S with
  | _ n ih =>
    cases hstep : serverStep S with
    | none =>
      obtain ⟨hframes, hrest⟩ := framesOf_none hstep
      rw [hframes, hrest]
      refine ⟨rfl, by simp, fun f t hS => ?_⟩
      by_contra hgo
      push Not at hgo
      rw [hS, serverStep_some.mpr ⟨takeFrame_encode f t, hgo⟩] at hstep
      cases hstep
    | some p =>
      obtain ⟨f, t⟩ := p
      obtain ⟨htake, hgo⟩ := serverStep_some.mp hstep
      obtain ⟨hframes, hrest⟩ := framesOf_cons hstep
      have hprog := serverStep_stream.progress hstep
      have ht := ih t.length (by omega) t rfl
      rw [hframes, hrest]
      refine ⟨?_, List.forall_mem_cons.mpr ⟨hgo, ht.goesOn⟩, ht.ends⟩
      rw [List.flatMap_cons, List.append_assoc, ← ht.split]
      exact encode_of_takeFrame htake

theorem restOf_length (S : Bytes) : (restOf S).length ≤ S.length := by
  conv_rhs => rw [(carries_framesOf S).split]
  rw [List.length_append]
  omega

/-- A CLOSE frame at the front stays there. -/
theorem stuck_of_close {s t : Bytes} {f : Frame} (h : takeFrame s = some (f, t))
    (hop : f.opcode = opClose) : Stuck s := by
  intro u
  rw [serverStep, takeFrame_append h]
  exact if_pos (Or.inl hop)

/-- In a full buffer no frame that fits can still be completed. -/
theorem stuck_of_full {s : Bytes} (hlen : recvBufSize ≤ s.length) (h : serverStep s = none) :
    Stuck s := by
  intro u
  by_contra hne
  obtain ⟨⟨f, t⟩, hstep⟩ := Option.ne_none_iff_exists'.mp hne
  obtain ⟨htake, hop, hsmall⟩ := serverStep_some.mp hstep
  obtain ⟨r, hr⟩ : f.encode <+: s :=
    List.prefix_of_prefix_length_le ⟨t, (encode_of_takeFrame htake).symm⟩ ⟨u, rfl⟩ (by omega)
  rw [← hr] at h
  rw [serverStep_some.mpr ⟨takeFrame_encode f r, hop, hsmall⟩] at h
  cases h

/-- Nothing is added to the frames of a stream that is stuck. -/
theorem Stuck.framesOf_append {S : Bytes} (h : Stuck (restOf S)) (t : Bytes) :
    framesOf (S ++ t) = framesOf S := by
  rw [(Gateway.framesOf_append S t).1, (framesOf_none (h t)).1, List.append_nil]

section Feeding

variable {w : World} {i : Fin maxConns} {log : List Event} {S : Bytes}

/-- A connection that is closed on a stuck stream has shown everything. -/
theorem Received.of_stuck {st t : Loop} (h : Received w i log S st) (hlog : t.log = st.log)
    (hact : (t.server.conns i).active = false) (hstuck : Stuck (restOf S)) :
    Received w i log S t := by
  refine .closed hact fun t => ?_
  rw [hstuck.framesOf_append, hlog, h.log_eq]

/-- What is read on a closed connection changes nothing. -/
theorem Received.ignores {st : Loop} (h : Received w i log S st)
    (hact : (st.server.conns i).active = false) (c : Bytes) : Received w i log (S ++ c) st := by
  cases h with
  | opened holds shows => exact absurd holds.active (by simp [hact])
  | closed inactive final => exact .closed inactive fun t => by rw [List.append_assoc, final]

/-- The read octets stand behind those in the buffer. -/
theorem Holds.receive {c : WsConn} {D chunk : Bytes} (h : Holds c D)
    (hle : c.recvLen + chunk.length ≤ recvBufSize) : Holds (c.receive chunk hle) (D ++ chunk) := by
  refine ⟨h.active, hle, ?_⟩
  have hlen := h.length
  have hbuf : (c.receive chunk hle).recvBuf =
      D ++ chunk ++ c.recvBuf.drop (c.recvLen + chunk.length) := by rw [← h.data]; rfl
  rw [WsConn.data, hbuf]
  exact List.take_left' (by rw [List.length_append, hlen]; rfl)

/-- A call of the loop keeps the relation between the connection and the stream. -/
theorem Received.process (hw : Passive w i) {st : Loop} {c : Bytes}
    (hholds : Holds (st.server.conns i) (restOf S ++ c))
    (hshows : ∀ fs, shown w log (framesOf S ++ fs) = shown w st.log fs) :
    Received w i log (S ++ c) (scWsServerProcess w i st).2 := by
  have hfs := framesOf_append S c
  rw [process_eq_loop hholds]
  obtain ⟨hlog, ⟨-, hrest, hnext⟩ | ⟨-, hact, -, hend⟩⟩ :=
    processLoop_delivers hholds (Nat.lt_succ_self _) (hw.keepsOpen _ _)
  · refine .opened (hfs.2 ▸ hrest) fun fs => ?_
    rw [hfs.1, List.append_assoc, hshows, hnext]
  · refine .closed hact fun t => ?_
    rcases hend with ⟨f, u, htake, hop⟩ | hend
    · rw [← hfs.2] at htake
      rw [(stuck_of_close htake hop).framesOf_append, hfs.1, hshows, hlog]
    · rw [(framesOf_append (S ++ c) t).1, hfs.1, List.append_assoc, hshows, hend, hlog]

/-- One read keeps the relation between the connection and the stream. -/
theorem Received.read (hw : Passive w i) {st : Loop} {c : Bytes} (h : Received w i log S st)
    (hc : (st.server.conns i).active = true → (st.server.conns i).recvLen < recvBufSize →
      c ≠ [] ∧ c.length ≤ recvBufSize - (st.server.conns i).recvLen) :
    Received w i log (S ++ c) (scWsServerReadAndProcess w i c st).2 := by
  by_cases hact : (st.server.conns i).active = true
  · cases h with
    | closed inactive final => exact absurd hact (by simp [inactive])
    | opened holds shows =>
      have hbound := holds.bound
      by_cases hfull : (st.server.conns i).recvLen < recvBufSize
      · obtain ⟨hne, hle⟩ := hc hact hfull
        have hspace : ¬ (recvBufSize - (st.server.conns i).recvLen = 0 ∨ c = []) := by
          rintro (h0 | h0)
          · omega
          · exact hne h0
        have htake : c.take (recvBufSize - (st.server.conns i).recvLen) = c :=
          List.take_of_length_le hle
        simp only [scWsServerReadAndProcess, hact, not_true_eq_false, ite_false,
          dif_neg hspace, htake]
        refine Received.process hw ?_ shows
        rw [WsServer.set_same]
        exact holds.receive _
      · have hstuck : Stuck (restOf S) :=
          stuck_of_full (by rw [holds.length]; omega) (serverStep_restOf S)
        have hread : scWsServerReadAndProcess w i c st =
            (.io, { st with server := scWsServerCloseConn st.server i }) := by
          simp only [scWsServerReadAndProcess, hact, not_true_eq_false, ite_false]
          exact dif_pos (Or.inl (by omega))
        rw [hread]
        have hclosed := (closeConn_same hact).1
        exact ((Received.opened holds shows).of_stuck (t := { st with
          server := scWsServerCloseConn st.server i }) rfl hclosed hstuck).ignores hclosed c
  · have hread : scWsServerReadAndProcess w i c st = (.invalidArgument, st) := by
      simp [scWsServerReadAndProcess, hact]
    rw [hread]
    exact h.ignores (by simpa using hact) c

theorem Received.feed (hw : Passive w i) {cs : List Bytes} {st : Loop}
    (h : Received w i log S st) (hcs : Reads w i cs st) :
    Received w i log (S ++ cs.flatten) (feed w i cs st) := by
  induction cs generalizing st S with
  | nil => simpa [Gateway.feed] using h
  | cons c cs ih =>
    rw [Gateway.feed, List.flatten_cons, ← List.append_assoc]
    exact ih (h.read hw hcs.1) hcs.2

/-- Chunks that fit the buffer together can always be read. -/
theorem Received.reads (hw : Passive w i) {cs : List Bytes} {st : Loop}
    (h : Received w i log S st) (hne : ∀ c ∈ cs, c ≠ [])
    (hlen : S.length + cs.flatten.length ≤ recvBufSize) : Reads w i cs st := by
  induction cs generalizing st S with
  | nil => trivial
  | cons c cs ih =>
    rw [List.forall_mem_cons] at hne
    rw [List.flatten_cons, List.length_append] at hlen
    have hc : (st.server.conns i).active = true → (st.server.conns i).recvLen < recvBufSize →
        c ≠ [] ∧ c.length ≤ recvBufSize - (st.server.conns i).recvLen := by
      intro hact _
      refine ⟨hne.1, ?_⟩
      cases h with
      | closed inactive final => exact absurd hact (by simp [inactive])
      | opened holds shows =>
        have hrest := restOf_length S
        rw [holds.length] at hrest
        omega
    exact ⟨hc, ih (h.read hw hc) hne.2 (by rw [List.length_append]; omega)⟩

end Feeding

/-! ## The stream decides -/

/-- A connection that has received nothing. -/
structure Fresh (st : Loop) (i : Fin maxConns) : Prop where
  active : (st.server.conns i).active = true
  empty : (st.server.conns i).recvLen = 0
  silent : st.log = []

theorem Fresh.received {st : Loop} {i : Fin maxConns} (h : Fresh st i) (w : World) :
    Received w i [] [] st := by
  have hnone : serverStep [] = none := by decide
  obtain ⟨hframes, hrest⟩ := framesOf_none hnone
  refine .opened ⟨h.active, by rw [h.empty]; exact Nat.zero_le _, ?_⟩ fun fs => ?_
  · rw [hrest, WsConn.data, h.empty, List.take_zero]
  · rw [hframes, h.silent, List.nil_append]

/-- However a stream is cut into reads, the connection shows the same messages and PONGs:
those of the frames up to the first that is a CLOSE, oversized or incomplete, or up to the
first PONG that cannot be sent. -/
theorem feed_cuts {w w' : World} {i i' : Fin maxConns} {st st' : Loop} {cs cs' : List Bytes}
    (hw : Passive w i) (hw' : Passive w' i') (hsent : w.pongSent = w'.pongSent)
    (hst : Fresh st i) (hst' : Fresh st' i') (hcs : Reads w i cs st) (hcs' : Reads w' i' cs' st')
    (hflat : cs.flatten = cs'.flatten) :
    (feed w i cs st).log = (feed w' i' cs' st').log ∧
      ∃ fs rest, Carries cs.flatten fs rest ∧ (feed w i cs st).log = shown w [] fs ∧
        ((∀ log, w.pongSent log = true) → (feed w i cs st).log = fs.filterMap eventOf) := by
  have hlog := ((hst.received w).feed hw hcs).log_eq
  have hlog' := ((hst'.received w').feed hw' hcs').log_eq
  rw [List.nil_append] at hlog hlog'
  refine ⟨?_, _, _, carries_framesOf cs.flatten, hlog, fun hall => ?_⟩
  · rw [hlog, hlog', hflat, shown_congr hsent]
  · rw [hlog, shown_eq hall, List.nil_append]

/-- A server all of whose connections were just accepted. -/
def freshServer : Loop := ⟨⟨fun _ => freshConn, maxConns⟩, []⟩

/-- One frame read at once and octet by octet, by callbacks that do nothing. -/
theorem feed_cuts_octets :
    (feed ⟨fun _ => [], fun _ => true⟩ 0 [hiFrame.encode] freshServer).log =
      (feed ⟨fun _ => [], fun _ => true⟩ 0 (hiFrame.encode.map fun b => [b]) freshServer).log := by
  have hw : Passive ⟨fun _ => [], fun _ => true⟩ 0 := by simp [Passive]
  have hst : Fresh freshServer 0 := ⟨rfl, rfl, rfl⟩
  exact (feed_cuts hw hw rfl hst hst
    ((hst.received _).reads hw (by decide) (by decide))
    ((hst.received _).reads hw (by decide) (by decide)) (by decide)).1

end SeaClaw.Gateway
