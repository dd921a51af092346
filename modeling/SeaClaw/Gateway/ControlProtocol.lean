import SeaClaw.Json.Parse
import SeaClaw.Lib.CBuffer

/-!
# The control protocol

One request of a WebSocket client: the call budget, the request members, the method
table and the response. A handler is what it reports, an error or the payload it made;
the table of handlers is a parameter. Only the allocation of the escaped id may fail.
-/

namespace SeaClaw.Gateway

open Lib Json

/-- `sc_rpc_handler_fn`: a handler succeeds with or without a payload. -/
abbrev Handler := Value → Except ScError (Option Bytes)

/-- The part of `sc_control_protocol_t` that a request reads or changes. -/
structure ControlProtocol where
  requirePairing : Bool
  rpcCount : UInt32
  rpcWindowMs : UInt64
  deriving DecidableEq, Repr

/-- What the connection gets. -/
inductive Reply where
  | silent
  | sent (text : Bytes)
  /-- An access outside a buffer. -/
  | corrupt
  deriving DecidableEq, Repr

/-- `is_public_method` -/
def isPublicMethod (method : Bytes) : Bool :=
  method = ascii "health" || method = ascii "status" || method = ascii "version" ||
    method = ascii "connect" || method = ascii "capabilities" ||
    method = ascii "auth.oauth.start" || method = ascii "auth.oauth.callback" ||
    method = ascii "auth.oauth.refresh"

/-- `build_method_response`: the first entry of the method, or no such method. -/
def buildMethodResponse (table : List (Bytes × Handler)) (method : Bytes) (root : Value) :
    Except ScError (Option Bytes) :=
  match table.find? fun e => e.1 = method with
  | some e => e.2 root
  | none => .error .notFound

/-- The payload of the response to what the handler reported. -/
def responsePayload : Except ScError (Option Bytes) → Bytes
  | .ok (some payload) => payload
  | .ok none => ascii "\x7b\x7d"
  | .error .notFound => ascii "\x7b\"error\":\"unknown method\"\x7d"
  | .error .gatewayAuth => ascii "\x7b\"error\":\"invalid_token\"\x7d"
  | .error _ => ascii "\x7b\"error\":\"internal\"\x7d"

/-- Whether the response says that the call succeeded. -/
def succeeded {α : Type} : Except ScError α → Bool
  | .ok _ => true
  | .error _ => false

/-! ## Building the response -/

/-- An octet of the id inside a string. -/
def escapeIdOctet (c : UInt8) : Bytes := if c = ch '"' ∨ c = ch '\\' then [ch '\\', c] else [c]

/-- The loop that fills `id_esc`, a buffer of `cap` octets. -/
def escapeLoop (cap : ℕ) : Bytes → Bytes → Bytes
  | [], out => out
  | c :: id, out => if out.length + 4 < cap then escapeLoop cap id (out ++ escapeIdOctet c) else out

/-- The same loop straight into a buffer, from `pos` on: the buffer and the new `pos`. -/
def writeId : Bytes → Bytes → ℕ → Option (Bytes × ℕ)
  | [], buf, pos => some (buf, pos)
  | c :: id, buf, pos =>
    if pos + 4 < buf.length then
      match poke buf pos (escapeIdOctet c) with
      | some buf => writeId id buf (pos + (escapeIdOctet c).length)
      | none => none
    else some (buf, pos)

/-- `{"type":"res","id":"` -/
def responseHead : Bytes := ascii "\x7b\"type\":\"res\",\"id\":\""

/-- `,"ok":%s,"payload":` -/
def responseMiddle (ok : Bool) : Bytes :=
  ascii ",\"ok\":" ++ ascii (if ok then "true" else "false") ++ ascii ",\"payload\":"

/-- The id and its closing quote, with or without memory for `id_esc`. -/
def placeId (escAlloc : Bool) (id buf : Bytes) (pos : ℕ) : Option (Bytes × ℕ) :=
  if escAlloc then do
    let (buf, n) ← snprintf buf pos (sizeSub buf.length pos)
      (escapeLoop (id.length * 2 + 16) id [] ++ [ch '"'])
    some (buf, pos + n)
  else do
    let (buf, pos) ← writeId id buf pos
    if pos < buf.length then do
      let buf ← poke buf pos [ch '"']
      some (buf, pos + 1)
    else some (buf, pos)

/-- The response of `sc_control_on_message`, in a buffer sized by the payload alone. The
id is the contents of a C string. -/
def buildResponse (escAlloc : Bool) (id payload : Bytes) (ok : Bool) : Option Bytes := do
  let resCap := 256 + payload.length
  let buf := List.replicate resCap 0
  let (buf, pos) ← snprintf buf 0 resCap responseHead
  let (buf, pos) ← placeId escAlloc id buf pos
  let (buf, n) ← snprintf buf pos (sizeSub resCap pos) (responseMiddle ok)
  let pos := pos + n
  let buf ← poke buf pos payload
  let pos := pos + payload.length
  let buf ← poke buf pos [ch '}']
  let pos := pos + 1
  let buf ← poke buf pos [0]
  some (buf.take pos)

/-- `sc_control_send_response`: its buffer is sized by the id too. -/
def scControlSendResponse (id : Bytes) (ok : Bool) (payload : Bytes) : Option Bytes := do
  let cap := 96 + id.length * 2 + payload.length
  let buf := List.replicate cap 0
  let (buf, pos) ← snprintf buf 0 cap responseHead
  let (buf, pos) ← writeId id buf pos
  let (buf, n) ← snprintf buf pos (sizeSub cap pos)
    ([ch '"'] ++ responseMiddle ok ++ payload ++ [ch '}'])
  some (buf.take (pos + n))

/-! ## One request -/

def Reply.ofText : Option Bytes → Reply
  | some text => .sent text
  | none => .corrupt

/-- The call budget after one more call: sixty for every second. -/
def countCall (p : ControlProtocol) (now : UInt64) : ControlProtocol :=
  let nowMs := now * 1000
  if nowMs - p.rpcWindowMs > 1000 then { p with rpcCount := 1, rpcWindowMs := nowMs }
  else { p with rpcCount := p.rpcCount + 1 }

/-- The response to a request whose members were read. -/
def answer (table : List (Bytes × Handler)) (p : ControlProtocol) (authenticated escAlloc : Bool)
    (root : Value) (id method : Bytes) : Reply :=
  if p.requirePairing ∧ ¬ authenticated ∧ ¬ isPublicMethod method ∧ method ≠ ascii "auth.token" then
    Reply.ofText (scControlSendResponse id false
      (ascii "\x7b\"error\":\"unauthorized\",\"message\":\"Authentication required\"\x7d"))
  else
    let r := buildMethodResponse table method root
    Reply.ofText (buildResponse escAlloc id (responsePayload r) (succeeded r))

/-- `sc_control_on_message` at time `now`, on the frame payload `data` with the memory
`beyond` after it. -/
def scControlOnMessage (table : List (Bytes × Handler)) (p : ControlProtocol)
    (authenticated escAlloc : Bool) (now : UInt64) (data beyond : Bytes) :
    ControlProtocol × Reply :=
  let p := countCall p now
  if p.rpcCount > 60 then
    (p, Reply.ofText (scControlSendResponse (ascii "0") false (ascii "\x7b\"error\":\"rate limited\"\x7d")))
  else
    match scJsonParse data beyond with
    | .ok (.object members) _ =>
      let root := Value.object members
      if scJsonGetString root (ascii "type") = some (ascii "req") then
        match scJsonGetString root (ascii "id"), scJsonGetString root (ascii "method") with
        | some id, some method => (p, answer table p authenticated escAlloc root id method)
        | _, _ => (p, .silent)
      else (p, .silent)
    | .overread _ => (p, .corrupt)
    | _ => (p, .silent)

end SeaClaw.Gateway
