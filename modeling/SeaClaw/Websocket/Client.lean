import SeaClaw.Core.Error
import SeaClaw.Lib.Socket
import SeaClaw.Websocket.Header

/-!
# The WebSocket client

Receiving a message: frames are read from the socket one after the other, PINGs are
answered, and fragments are collected in a buffer that grows. Allocation succeeds.
-/

namespace SeaClaw.Websocket

open Lib

/-- `SC_WS_MAX_MSG` -/
def maxMsg : ℕ := 64 * 1024

/-- `frag_buf` and `frag_len`; `frag_cap` is the size of the buffer. -/
structure Fragments where
  buf : Bytes
  len : ℕ
  deriving DecidableEq

/-- `sc_ws_client_t` with what its socket will deliver, and the frames handed to `send`. -/
structure WsClient where
  connected : Bool
  sock : Socket
  frag : Option Fragments
  sent : List Bytes
  deriving DecidableEq

inductive RecvResult where
  | ok (data : Bytes)
  | error (e : ScError)
  /-- A write past the end of a buffer. -/
  | outOfBounds
  /-- The bound on the rounds was too small: not a behaviour of the program. -/
  | outOfFuel
  deriving DecidableEq

/-- How a round of the loop ends. -/
inductive RecvTurn where
  | again (ws : WsClient)
  | stop (r : RecvResult) (ws : WsClient)
  deriving DecidableEq

/-- The size of the header by its second octet. -/
def headerNeed (b1 : UInt8) : ℕ :=
  (if b1 &&& 0x7F = 126 then 4 else if b1 &&& 0x7F = 127 then 10 else 2) +
    if b1 &&& 0x80 ≠ 0 then 4 else 0

/-- The two reads of a header. -/
def readHeader (s : Socket) : Option Bytes × Socket :=
  match readTo 2 [] s with
  | (none, s) => (none, s)
  | (some hdr, s) => readTo (headerNeed (hdr.getD 1 0)) hdr s

/-- The payload is unmasked in its own buffer. -/
def unmaskPayload (hdr : ParsedHeader) (bytes payload : Bytes) : Bytes :=
  if hdr.payloadLen > 0 ∧ hdr.masked then
    let key := bytes.drop (hdr.headerBytes - 4)
    scWsApplyMask payload ⟨key.getD 0 0, key.getD 1 0, key.getD 2 0, key.getD 3 0⟩
  else payload

/-- The answer to a PING: a PONG is built in 128 octets, and sent if it could be built. -/
def pong (payload : Bytes) (ws : WsClient) : RecvTurn :=
  if payload.length ≤ 125 then
    match scWsBuildFrame (List.replicate 128 0) opPong payload ⟨0, 0, 0, 0⟩ with
    | none => .stop .outOfBounds ws
    | some (buf, n) => .again (if n > 0 then { ws with sent := ws.sent ++ [buf.take n] } else ws)
  else .again ws

/-- The first fragment of a message. -/
def firstFragment (payload : Bytes) (ws : WsClient) : RecvTurn :=
  let cap := if payload.length > 0 then payload.length + 1 else 64
  match poke (List.replicate cap 0) 0 payload with
  | none => .stop .outOfBounds ws
  | some buf => .again { ws with frag := some ⟨buf, payload.length⟩ }

/-- `while (new_cap < need) new_cap *= 2`, in at most `need` rounds. -/
def doubleTo (need : ℕ) : ℕ → ℕ → ℕ
  | 0, cap => cap
  | fuel + 1, cap => if cap < need then doubleTo need fuel (cap * 2) else cap

/-- The buffer, reallocated if it has no space for `need` octets. -/
def growTo (need : ℕ) (buf : Bytes) : Bytes :=
  if need > buf.length then
    buf ++ List.replicate (doubleTo need need (buf.length * 2) - buf.length) 0
  else buf

/-- The last octet of a message is written, and the buffer handed out. -/
def finishMessage (g : Fragments) (ws : WsClient) : RecvTurn :=
  match poke g.buf g.len [0] with
  | none => .stop .outOfBounds ws
  | some buf => .stop (.ok (buf.take g.len)) { ws with frag := none }

/-- A continuation frame. -/
def continueMessage (fin : Bool) (payload : Bytes) (ws : WsClient) : RecvTurn :=
  match ws.frag with
  | none => .again ws
  | some g =>
    if payload.length > 0 then
      let total := g.len + payload.length
      if total > maxMsg then .stop (.error .io) { ws with frag := none }
      else
        match poke (growTo (total + 1) g.buf) g.len payload with
        | none => .stop .outOfBounds ws
        | some buf =>
          if fin then finishMessage ⟨buf, total⟩ ws
          else .again { ws with frag := some ⟨buf, total⟩ }
    else if fin then finishMessage g ws
    else .again ws

/-- The switch over the opcode. -/
def handleFrame (opcode : ℕ) (fin : Bool) (payload : Bytes) (ws : WsClient) : RecvTurn :=
  if opcode = opPing then pong payload ws
  else if opcode = opPong then .again ws
  else if opcode = opClose then .stop (.error .io) { ws with connected := false, frag := none }
  else if opcode = opText ∨ opcode = opBinary then
    if fin then .stop (.ok payload) { ws with frag := none }
    else firstFragment payload { ws with frag := none }
  else if opcode = opContinuation then continueMessage fin payload ws
  else .again ws

/-- One round of `sc_ws_recv`. -/
def recvFrame (ws : WsClient) : RecvTurn :=
  match readHeader ws.sock with
  | (none, s) => .stop (.error .io) { ws with sock := s }
  | (some bytes, s) =>
    match scWsParseHeader bytes with
    | none => .stop (.error .parse) { ws with sock := s }
    | some hdr =>
      if hdr.payloadLen > maxMsg then .stop (.error .io) { ws with sock := s }
      else
        match readTo hdr.payloadLen [] s with
        | (none, s) => .stop (.error .io) { ws with sock := s }
        | (some payload, s) =>
          handleFrame hdr.opcode hdr.fin (unmaskPayload hdr bytes payload) { ws with sock := s }

def recvLoop : ℕ → WsClient → RecvResult × WsClient
  | 0, ws => (.outOfFuel, ws)
  | fuel + 1, ws =>
    match recvFrame ws with
    | .again ws => recvLoop fuel ws
    | .stop r ws => (r, ws)

/-- `sc_ws_recv`. Each round takes octets from the socket. -/
def scWsRecv (ws : WsClient) : RecvResult × WsClient :=
  if ws.connected then recvLoop (ws.sock.flatten.length + 1) ws else (.error .io, ws)

/-- The results of `n` calls, one after the other. -/
def recvCalls : ℕ → WsClient → List RecvResult
  | 0, _ => []
  | n + 1, ws => (scWsRecv ws).1 :: recvCalls n (scWsRecv ws).2

end SeaClaw.Websocket
