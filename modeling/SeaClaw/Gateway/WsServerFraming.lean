import SeaClaw.Gateway.WsServerRun

/-!
# What a connection delivers

The octets received on a connection are a stream of frames. As long as no callback
closes the connection, the loop delivers the frames of the stream up to the first that
is a CLOSE, does not fit the buffer or is not there yet, wherever the stream was cut;
and the loop is safe on a buffer exactly when no callback it runs closes the connection.
-/

namespace SeaClaw.Gateway

open Lib Websocket

/-- The next frame that the server processes and goes on. -/
def serverStep (s : Bytes) : Option (Frame × Bytes) :=
  match takeFrame s with
  | some (f, t) => if f.opcode = opClose ∨ recvBufSize < f.encode.length then none else some (f, t)
  | none => none

theorem serverStep_some {s t : Bytes} {f : Frame} : serverStep s = some (f, t) ↔
    takeFrame s = some (f, t) ∧ f.opcode ≠ opClose ∧ f.encode.length ≤ recvBufSize := by
  unfold serverStep
  cases h : takeFrame s with
  | none => simp
  | some p =>
    obtain ⟨g, u⟩ := p
    simp only
    split_ifs with hc
    · simp only [Option.some.injEq, Prod.mk.injEq, false_iff]
      rintro ⟨⟨rfl, rfl⟩, hop, hlen⟩
      rcases hc with hc | hc
      · exact hop hc
      · omega
    · simp only [not_or, Nat.not_lt] at hc
      simp only [Option.some.injEq, Prod.mk.injEq]
      constructor
      · rintro ⟨rfl, rfl⟩
        exact ⟨⟨rfl, rfl⟩, hc⟩
      · exact fun h => h.1

theorem serverStep_stream : StreamStep serverStep where
  append := by
    intro s f r h t
    obtain ⟨htake, hop, hlen⟩ := serverStep_some.mp h
    exact serverStep_some.mpr ⟨takeFrame_append htake t, hop, hlen⟩
  progress := by
    intro s f r h
    have hlen := takeFrame_length (serverStep_some.mp h).1
    have h2 := f.two_le_header
    rw [f.length_encode] at hlen
    omega

/-- The frames at the front of a stream that the server processes. -/
def framesOf (s : Bytes) : List Frame := (decodeAll serverStep s).1

/-- The octets after them. -/
def restOf (s : Bytes) : Bytes := (decodeAll serverStep s).2

/-- In a buffer, what stops the loop is a CLOSE frame or the lack of a whole frame. -/
theorem stop_cases {s : Bytes} (hlen : s.length ≤ recvBufSize) (h : serverStep s = none) :
    takeFrame s = none ∨ ∃ f t, takeFrame s = some (f, t) ∧ f.opcode = opClose := by
  cases ht : takeFrame s with
  | none => exact Or.inl rfl
  | some p =>
    obtain ⟨f, t⟩ := p
    refine Or.inr ⟨f, t, rfl, ?_⟩
    by_contra hop
    have hle := takeFrame_length ht
    rw [serverStep_some.mpr ⟨ht, hop, by omega⟩] at h
    cases h

/-! ## One call -/

/-- No callback that runs on these frames closes the connection. -/
def KeepsOpen (w : World) (i : Fin maxConns) : List Event → List Frame → Prop
  | _, [] => True
  | log, f :: fs =>
    match eventOf f with
    | some (.message p) =>
      (∀ a ∈ w.onMessage (log ++ [.message p]), ¬ a.Closes i) ∧
        KeepsOpen w i (log ++ [.message p]) fs
    | some (.pong p) =>
      w.pongSent (log ++ [.pong p]) = true → KeepsOpen w i (log ++ [.pong p]) fs
    | none => KeepsOpen w i log fs

/-- The log after these frames, which ends with the first PONG that could not be sent. -/
def shown (w : World) : List Event → List Frame → List Event
  | log, [] => log
  | log, f :: fs =>
    match eventOf f with
    | some (.message p) => shown w (log ++ [.message p]) fs
    | some (.pong p) =>
      if w.pongSent (log ++ [.pong p]) then shown w (log ++ [.pong p]) fs else log ++ [.pong p]
    | none => shown w log fs

/-- How a call may end with the connection closed: by a CLOSE frame, or by a PONG that
could not be sent, after which nothing more is shown. -/
def Ended (w : World) (log : List Event) (fs : List Frame) (rest : Bytes) : Prop :=
  (∃ f t, takeFrame rest = some (f, t) ∧ f.opcode = opClose) ∨
    ∀ gs, shown w log (fs ++ gs) = shown w log fs

/-- The result of a call on the frames `fs` and the octets `rest`: the connection holds the
rest and goes on with the next frames, or it was closed as the last thing that happened. -/
def Delivered (w : World) (i : Fin maxConns) (log : List Event) (fs : List Frame) (rest : Bytes)
    (r : Exit × Loop) : Prop :=
  r.2.log = shown w log fs ∧
    (r.1 = .ok ∧ Holds (r.2.server.conns i) rest ∧
        (∀ gs, shown w log (fs ++ gs) = shown w r.2.log gs) ∨
      r.1 = .io ∧ (r.2.server.conns i).active = false ∧ (r.2.server.conns i).recvLen = 0 ∧
        Ended w log fs rest)

/-- A frame that the loop goes on after can be put in front. -/
theorem Delivered.cons {w : World} {i : Fin maxConns} {log log' : List Event} {f : Frame}
    {fs : List Frame} {rest : Bytes} {r : Exit × Loop}
    (hshown : ∀ gs, shown w log (f :: gs) = shown w log' gs) (h : Delivered w i log' fs rest r) :
    Delivered w i log (f :: fs) rest r := by
  obtain ⟨hlog, ⟨hexit, hholds, hgs⟩ | ⟨hexit, hact, hzero, hend⟩⟩ := h
  · refine ⟨hlog.trans (hshown fs).symm, Or.inl ⟨hexit, hholds, fun gs => ?_⟩⟩
    rw [List.cons_append, hshown, hgs]
  · refine ⟨hlog.trans (hshown fs).symm, Or.inr ⟨hexit, hact, hzero, hend.imp id fun hgs gs => ?_⟩⟩
    rw [List.cons_append, hshown, hshown, hgs]

theorem framesOf_cons {s t : Bytes} {f : Frame} (h : serverStep s = some (f, t)) :
    framesOf s = f :: framesOf t ∧ restOf s = restOf t := by
  unfold framesOf restOf
  rw [decodeAll_of_some serverStep_stream h]
  exact ⟨rfl, rfl⟩

theorem framesOf_none {s : Bytes} (h : serverStep s = none) : framesOf s = [] ∧ restOf s = s := by
  unfold framesOf restOf
  rw [decodeAll_of_none h]
  exact ⟨rfl, rfl⟩

section Runs

variable {w : World} {i : Fin maxConns}

/-- The loop on a buffer without a frame to go on with. -/
theorem processLoop_stops {st : Loop} {D : Bytes} (fuel : ℕ) (h : Holds (st.server.conns i) D)
    (hD : serverStep D = none) :
    Delivered w i st.log (framesOf D) (restOf D) (processLoop w i (fuel + 1) st) := by
  obtain ⟨hframes, hrest⟩ := framesOf_none hD
  have hlen := h.length
  have hbound := h.bound
  rw [hframes, hrest, processLoop]
  rcases stop_cases (by omega) hD with hnone | ⟨f, t, htake, hop⟩
  · rw [processFrame_wait h hnone]
    exact ⟨rfl, Or.inl ⟨rfl, h, fun gs => rfl⟩⟩
  · rw [encode_of_takeFrame htake] at h
    obtain ⟨st', hturn, hact, hzero, hlog⟩ := processFrame_close (w := w) h hop
    rw [hturn]
    exact ⟨hlog, Or.inr ⟨rfl, hact, hzero, Or.inl ⟨f, t, htake, hop⟩⟩⟩

/-- A whole run of the loop delivers the frames in the buffer, if the callbacks leave the
connection open. -/
theorem processLoop_delivers {fuel : ℕ} {st : Loop} {D : Bytes} (h : Holds (st.server.conns i) D)
    (hfuel : D.length < fuel) (hkeep : KeepsOpen w i st.log (framesOf D)) :
    Delivered w i st.log (framesOf D) (restOf D) (processLoop w i fuel st) := by
  induction fuel generalizing st D with
  | zero => omega
  | succ fuel ih =>
    cases hstep : serverStep D with
    | none => exact processLoop_stops fuel h hstep
    | some p =>
      obtain ⟨f, t⟩ := p
      obtain ⟨htake, hop, hsmall⟩ := serverStep_some.mp hstep
      obtain ⟨hframes, hrest⟩ := framesOf_cons hstep
      have hprog := serverStep_stream.progress hstep
      rw [encode_of_takeFrame htake] at h
      rw [hframes, KeepsOpen] at hkeep
      rw [hframes, hrest, processLoop]
      cases he : eventOf f with
      | none =>
        obtain ⟨st', hturn, hholds, hlog⟩ := processFrame_quiet (w := w) h hop he
        simp only [he, ← hlog] at hkeep
        rw [hturn]
        exact (ih hholds (by omega) hkeep).cons fun gs => by simp [shown, he, hlog]
      | some e =>
        cases e with
        | message p =>
          simp only [he] at hkeep
          obtain ⟨st', hturn, hholds, hlog⟩ := processFrame_message h he hkeep.1
          rw [← hlog] at hkeep
          rw [hturn]
          exact (ih hholds (by omega) hkeep.2).cons fun gs => by simp [shown, he, hlog]
        | pong p =>
          simp only [he] at hkeep
          by_cases hsent : w.pongSent (st.log ++ [.pong p]) = true
          · obtain ⟨st', hturn, hholds, hlog⟩ := processFrame_ping h he hsent
            have hkeep' := hkeep hsent
            rw [← hlog] at hkeep'
            rw [hturn]
            exact (ih hholds (by omega) hkeep').cons fun gs => by simp [shown, he, hlog, hsent]
          · obtain ⟨st', hturn, hact, hzero, hlog⟩ := processFrame_unsent h he hsent
            have hshown : ∀ gs, shown w st.log (f :: gs) = st.log ++ [.pong p] :=
              fun gs => by simp [shown, he, hsent]
            rw [hturn]
            refine ⟨hlog.trans (hshown _).symm, Or.inr ⟨rfl, hact, hzero, Or.inr fun gs => ?_⟩⟩
            rw [List.cons_append, hshown, hshown]

/-- A callback that closes the connection makes the loop wrap. -/
theorem processLoop_wraps {fuel : ℕ} {st : Loop} {D : Bytes} (h : Holds (st.server.conns i) D)
    (hfuel : D.length < fuel) (hkeep : ¬ KeepsOpen w i st.log (framesOf D)) :
    (processLoop w i fuel st).1 = .wrapped := by
  induction fuel generalizing st D with
  | zero => omega
  | succ fuel ih =>
    cases hstep : serverStep D with
    | none =>
      rw [(framesOf_none hstep).1] at hkeep
      exact absurd trivial hkeep
    | some p =>
      obtain ⟨f, t⟩ := p
      obtain ⟨htake, hop, hsmall⟩ := serverStep_some.mp hstep
      have hprog := serverStep_stream.progress hstep
      rw [encode_of_takeFrame htake] at h
      rw [(framesOf_cons hstep).1, KeepsOpen] at hkeep
      rw [processLoop]
      cases he : eventOf f with
      | none =>
        obtain ⟨st', hturn, hholds, hlog⟩ := processFrame_quiet (w := w) h hop he
        simp only [he, ← hlog] at hkeep
        rw [hturn]
        exact ih hholds (by omega) hkeep
      | some e =>
        cases e with
        | message p =>
          simp only [he] at hkeep
          by_cases hopen : ∀ a ∈ w.onMessage (st.log ++ [.message p]), ¬ a.Closes i
          · obtain ⟨st', hturn, hholds, hlog⟩ := processFrame_message h he hopen
            rw [← hlog] at hkeep
            rw [hturn]
            exact ih hholds (by omega) fun hk => hkeep ⟨by rwa [hlog], hk⟩
          · push Not at hopen
            obtain ⟨st', hturn⟩ := processFrame_wrapped h he hopen
            rw [hturn]
        | pong p =>
          simp only [he] at hkeep
          push Not at hkeep
          obtain ⟨hsent, hkeep⟩ := hkeep
          obtain ⟨st', hturn, hholds, hlog⟩ := processFrame_ping h he hsent
          rw [← hlog] at hkeep
          rw [hturn]
          exact ih hholds (by omega) hkeep

/-- The call is safe: no length wraps, nothing is read or written outside the buffer, and
if the connection was closed, that was the last thing that happened. -/
structure Safe (w : World) (i : Fin maxConns) (log : List Event) (D : Bytes) (r : Exit × Loop) :
    Prop where
  noWrap : r.1 ≠ .wrapped
  returns : r.1 = .ok ∨ r.1 = .io
  bound : (r.2.server.conns i).recvLen ≤ recvBufSize
  /-- Just the frames before the end were delivered. -/
  delivered : r.2.log = shown w log (framesOf D)
  opened : r.1 = .ok → (r.2.server.conns i).active = true
  closed : r.1 = .io → (r.2.server.conns i).active = false ∧ (r.2.server.conns i).recvLen = 0

theorem Delivered.safe {log : List Event} {D : Bytes} {r : Exit × Loop}
    (h : Delivered w i log (framesOf D) (restOf D) r) : Safe w i log D r := by
  obtain ⟨hlog, ⟨hexit, hholds, -⟩ | ⟨hexit, hact, hzero, -⟩⟩ := h
  · exact ⟨by simp [hexit], Or.inl hexit, hholds.bound, hlog, fun _ => hholds.active,
      fun h => by simp [hexit] at h⟩
  · exact ⟨by simp [hexit], Or.inr hexit, by omega, hlog, fun h => by simp [hexit] at h,
      fun _ => ⟨hact, hzero⟩⟩

theorem process_eq_loop {st : Loop} {D : Bytes} (h : Holds (st.server.conns i) D) :
    scWsServerProcess w i st = processLoop w i (D.length + 1) st := by
  rw [scWsServerProcess, if_pos h.active, h.length]

end Runs

/-- On every buffer, the call is safe exactly when none of the callbacks it runs closes
the connection. -/
theorem scWsServerProcess_safe_iff (w : World) (i : Fin maxConns) (st : Loop)
    (hact : (st.server.conns i).active = true)
    (hbound : (st.server.conns i).recvLen ≤ recvBufSize) :
    Safe w i st.log (st.server.conns i).data (scWsServerProcess w i st) ↔
      KeepsOpen w i st.log (framesOf (st.server.conns i).data) := by
  have hholds : Holds (st.server.conns i) (st.server.conns i).data := ⟨hact, hbound, rfl⟩
  rw [process_eq_loop hholds]
  constructor
  · intro hsafe
    by_contra hkeep
    exact hsafe.noWrap (processLoop_wraps hholds (by omega) hkeep)
  · intro hkeep
    exact (processLoop_delivers hholds (by omega) hkeep).safe

/-- The text frame `hi`, without a mask. -/
def hiFrame : Frame := ⟨0x81, none, .short, ascii "hi", by decide⟩

/-- A server all of whose connections have received one text frame. -/
def hiServer : Loop where
  server := ⟨fun _ => ⟨true, true, hiFrame.encode ++ List.replicate (recvBufSize - 4) 0, 4, by
    rw [List.length_append, List.length_replicate]
    decide⟩, maxConns⟩
  log := []

theorem holds_hiServer (i : Fin maxConns) : Holds (hiServer.server.conns i) hiFrame.encode :=
  ⟨rfl, by decide +revert, List.take_left' rfl⟩

/-- A callback that leaves the connections alone. -/
theorem scWsServerProcess_passive :
    Safe ⟨fun _ => [], fun _ => true⟩ 0 [] hiFrame.encode
      (scWsServerProcess ⟨fun _ => [], fun _ => true⟩ 0 hiServer) := by
  have hdata := (holds_hiServer 0).data
  have hsafe := scWsServerProcess_safe_iff ⟨fun _ => [], fun _ => true⟩ 0 hiServer rfl
    (holds_hiServer 0).bound
  rw [hdata] at hsafe
  refine hsafe.mpr ?_
  have hstep : serverStep hiFrame.encode = some (hiFrame, []) :=
    serverStep_some.mpr ⟨by simpa using takeFrame_encode hiFrame [], by decide, by decide⟩
  rw [(framesOf_cons hstep).1, (framesOf_none (by decide)).1]
  exact ⟨by simp, trivial⟩

/-- A callback that closes the connection it was called for. -/
theorem scWsServerProcess_closing :
    ¬ Safe ⟨fun _ => [.close 0], fun _ => true⟩ 0 [] hiFrame.encode
      (scWsServerProcess ⟨fun _ => [.close 0], fun _ => true⟩ 0 hiServer) := by
  intro hsafe
  have hholds := holds_hiServer 0
  refine hsafe.noWrap ?_
  rw [process_eq_loop hholds]
  refine processLoop_wraps hholds (by omega) ?_
  have hstep : serverStep hiFrame.encode = some (hiFrame, []) :=
    serverStep_some.mpr ⟨by simpa using takeFrame_encode hiFrame [], by decide, by decide⟩
  rw [(framesOf_cons hstep).1]
  intro hkeep
  exact hkeep.1 (.close 0) (by simp) rfl

end SeaClaw.Gateway
