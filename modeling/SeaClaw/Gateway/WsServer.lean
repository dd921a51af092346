import SeaClaw.Websocket.Header

/-!
# The WebSocket server

The connection records of the server and the loop that takes frames out of a receive
buffer. The message callback is any sequence of calls on the server, chosen from what
happened so far; it runs in the middle of the loop, on the record the loop works on.
The close callback does nothing, as the one of the control protocol.
-/

namespace SeaClaw.Gateway

open Lib Websocket

/-- `SC_WS_SERVER_RECV_BUF` -/
def recvBufSize : ℕ := 8 * 1024

/-- `SC_WS_SERVER_MAX_CONNS` -/
def maxConns : ℕ := 32

instance : NeZero maxConns := ⟨by decide⟩

/-- `sc_ws_conn_t` -/
structure WsConn where
  active : Bool
  authenticated : Bool
  recvBuf : Bytes
  recvLen : ℕ
  size : recvBuf.length = recvBufSize

/-- The octets received and not yet processed. -/
def WsConn.data (c : WsConn) : Bytes := c.recvBuf.take c.recvLen

/-- The connections of `sc_ws_server_t`. -/
structure WsServer where
  conns : Fin maxConns → WsConn
  connCount : ℕ

/-- Replace the record of one connection. -/
def WsServer.set (s : WsServer) (i : Fin maxConns) (c : WsConn) : WsServer :=
  { s with conns := Function.update s.conns i c }

@[simp] theorem WsServer.set_same (s : WsServer) (i : Fin maxConns) (c : WsConn) :
    (s.set i c).conns i = c := Function.update_self ..

theorem WsServer.set_other (s : WsServer) {i j : Fin maxConns} (h : j ≠ i) (c : WsConn) :
    (s.set i c).conns j = s.conns j := Function.update_of_ne h ..

/-! ## Calls on the server -/

/-- `sc_ws_server_close_conn` -/
def scWsServerCloseConn (s : WsServer) (i : Fin maxConns) : WsServer :=
  let c := s.conns i
  if c.active then
    { s.set i { c with active := false, authenticated := false, recvLen := 0 } with
      connCount := s.connCount - 1 }
  else s

/-- `sc_ws_server_broadcast`, where `sent` tells to whom the text could be sent. -/
def scWsServerBroadcast (s : WsServer) (sent : Fin maxConns → Bool) : WsServer :=
  (List.finRange maxConns).foldl
    (fun s i => if (s.conns i).active ∧ ¬ sent i then scWsServerCloseConn s i else s) s

/-- The record of a connection that was just accepted. -/
def freshConn : WsConn where
  active := true
  authenticated := false
  recvBuf := List.replicate recvBufSize 0
  recvLen := 0
  size := List.length_replicate

/-- `sc_ws_server_upgrade` of a valid request: the first free record is used. -/
def scWsServerUpgrade (s : WsServer) : WsServer :=
  match (List.finRange maxConns).find? fun i => ¬ (s.conns i).active with
  | some i => { s.set i freshConn with connCount := s.connCount + 1 }
  | none => s

/-- What a callback may do with the server. -/
inductive Action where
  /-- `sc_ws_server_send` changes no record. -/
  | send (i : Fin maxConns)
  | authenticate (i : Fin maxConns) (b : Bool)
  | close (i : Fin maxConns)
  | broadcast (sent : Fin maxConns → Bool)
  | upgrade

def runAction (s : WsServer) : Action → WsServer
  | .send _ => s
  | .authenticate i b => s.set i { s.conns i with authenticated := b }
  | .close i => scWsServerCloseConn s i
  | .broadcast sent => scWsServerBroadcast s sent
  | .upgrade => scWsServerUpgrade s

def runActions (s : WsServer) (as : List Action) : WsServer := as.foldl runAction s

/-! ## The receive loop -/

/-- What the peer and the application see of a connection. -/
inductive Event where
  | message (payload : Bytes)
  | pong (payload : Bytes)
  deriving DecidableEq

/-- The world around the loop, by the events so far: what `on_message` does on the last
of them, and whether the last of them, a PONG, could be sent. -/
structure World where
  onMessage : List Event → List Action
  pongSent : List Event → Bool

structure Loop where
  server : WsServer
  log : List Event

inductive Exit where
  | ok
  | io
  | invalidArgument
  /-- `recv_len - total` went below zero, and `memmove` ran off the buffer. -/
  | wrapped
  /-- `recv_len` was past the end of the buffer. -/
  | outOfBounds
  /-- The bound on the rounds was too small: not a behaviour of the program. -/
  | outOfFuel
  deriving DecidableEq

/-- How a round of the loop ends. -/
inductive Turn where
  | again (st : Loop)
  | stop (e : Exit) (st : Loop)

/-- The four octets of a mask. -/
def maskAt (s : Bytes) : Mask := ⟨s.getD 0 0, s.getD 1 0, s.getD 2 0, s.getD 3 0⟩

/-- The payload in `buf`, without its mask. -/
def unmasked (hdr : ParsedHeader) (buf : Bytes) : Bytes :=
  let payload := (buf.drop hdr.headerBytes).take hdr.payloadLen
  if hdr.masked ∧ payload.length > 0 then
    scWsApplyMask payload (maskAt (buf.drop (hdr.headerBytes - 4)))
  else payload

theorem length_unmasked {hdr : ParsedHeader} {buf : Bytes}
    (h : hdr.headerBytes + hdr.payloadLen ≤ buf.length) :
    (unmasked hdr buf).length = hdr.payloadLen := by
  simp only [unmasked]
  split_ifs <;> simp [scWsApplyMask] <;> omega

/-- The payload is unmasked where it stands. -/
def WsConn.unmask (c : WsConn) (hdr : ParsedHeader)
    (h : hdr.headerBytes + hdr.payloadLen ≤ c.recvBuf.length) : WsConn :=
  { c with
    recvBuf := c.recvBuf.take hdr.headerBytes ++ unmasked hdr c.recvBuf ++
      c.recvBuf.drop (hdr.headerBytes + hdr.payloadLen)
    size := by
      have hs := c.size
      have hlen := length_unmasked h
      simp only [List.length_append, List.length_take, List.length_drop, hlen]
      omega }

/-- `memmove(recv_buf, recv_buf + total, remaining)` and the new length. -/
def WsConn.shift (c : WsConn) (total remaining : ℕ) : WsConn :=
  let moved := (c.recvBuf.drop total).take remaining
  { c with
    recvBuf := moved ++ c.recvBuf.drop moved.length
    recvLen := remaining
    size := by
      have hs := c.size
      have hlen : moved.length ≤ c.recvBuf.length := by
        simp only [moved, List.length_take, List.length_drop]
        omega
      simp only [List.length_append, List.length_drop]
      omega }

/-- The end of a round, which reads the record again. -/
def dropFrame (i : Fin maxConns) (total : ℕ) (st : Loop) : Turn :=
  let c := st.server.conns i
  if c.recvLen < total then .stop .wrapped st
  else .again { st with server := st.server.set i (c.shift total (c.recvLen - total)) }

/-- The switch over the opcode, with the payload already unmasked. -/
def dispatch (w : World) (i : Fin maxConns) (opcode total : ℕ) (payload : Bytes) (st : Loop) :
    Turn :=
  if opcode = opText ∨ opcode = opBinary then
    let log := st.log ++ [.message payload]
    dropFrame i total ⟨runActions st.server (w.onMessage log), log⟩
  else if opcode = opPing then
    let log := st.log ++ [.pong (payload.take 125)]
    if w.pongSent log then dropFrame i total ⟨st.server, log⟩
    else .stop .io ⟨scWsServerCloseConn st.server i, log⟩
  else if opcode = opClose then .stop .io { st with server := scWsServerCloseConn st.server i }
  else dropFrame i total st

/-- One round of `sc_ws_server_process`. -/
def processFrame (w : World) (i : Fin maxConns) (st : Loop) : Turn :=
  let c := st.server.conns i
  if c.recvLen < 2 then .stop .ok st
  else
    match scWsParseHeader c.data with
    | none => .stop .ok st
    | some hdr =>
      let total := hdr.headerBytes + hdr.payloadLen
      if total > c.recvLen then .stop .ok st
      else if h : total ≤ c.recvBuf.length then
        dispatch w i hdr.opcode total (unmasked hdr c.recvBuf)
          { st with server := st.server.set i (c.unmask hdr h) }
      else .stop .outOfBounds st

/-- The loop of `sc_ws_server_process`. -/
def processLoop (w : World) (i : Fin maxConns) : ℕ → Loop → Exit × Loop
  | 0, st => (.outOfFuel, st)
  | fuel + 1, st =>
    match processFrame w i st with
    | .again st => processLoop w i fuel st
    | .stop e st => (e, st)

/-- `sc_ws_server_process` -/
def scWsServerProcess (w : World) (i : Fin maxConns) (st : Loop) : Exit × Loop :=
  if (st.server.conns i).active then processLoop w i ((st.server.conns i).recvLen + 1) st
  else (.invalidArgument, st)

/-- `recv` of `chunk` behind the octets in the buffer. -/
def WsConn.receive (c : WsConn) (chunk : Bytes)
    (h : c.recvLen + chunk.length ≤ recvBufSize) : WsConn :=
  { c with
    recvBuf := c.data ++ chunk ++ c.recvBuf.drop (c.recvLen + chunk.length)
    recvLen := c.recvLen + chunk.length
    size := by
      have hs := c.size
      simp only [data, List.length_append, List.length_take, List.length_drop]
      omega }

/-- `sc_ws_server_read_and_process`, where `recv` delivers at most the front of `chunk`
that there is space for, and an empty chunk is a closed or failed socket. -/
def scWsServerReadAndProcess (w : World) (i : Fin maxConns) (chunk : Bytes) (st : Loop) :
    Exit × Loop :=
  let c := st.server.conns i
  if ¬ c.active then (.invalidArgument, st)
  else
    let space := recvBufSize - c.recvLen
    if h : space = 0 ∨ chunk = [] then
      (.io, { st with server := scWsServerCloseConn st.server i })
    else
      scWsServerProcess w i { st with
        server := st.server.set i (c.receive (chunk.take space) (by
          simp only [not_or] at h
          simp only [List.length_take]
          omega)) }

end SeaClaw.Gateway
