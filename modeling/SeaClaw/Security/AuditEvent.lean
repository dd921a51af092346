import SeaClaw.Json.OctetTexts
import SeaClaw.Lib.CString
import SeaClaw.Lib.Printf

/-!
# Audit events

An event is written as one line of JSON into a buffer. Each piece is printed behind the last one
and counts if it fits, and each string is first escaped into a small buffer of its own.
-/

namespace SeaClaw.Security

open Lib Json

/-- `SC_AUDIT_JSON_BUF_SIZE` -/
def auditJsonBufSize : ℕ := 4096

/-- `sc_audit_event_type_t`, with the values that have no name. -/
inductive AuditEventType where
  | commandExecution | fileAccess | configChange | authSuccess | authFailure | policyViolation
  | securityEvent | other

/-- `sc_audit_event_t`. The confidence is a `float`, taken as the `double` that is printed. -/
structure AuditEvent where
  timestamp : Int64
  eventId : UInt64
  eventType : AuditEventType
  channel : Option CString
  userId : Option CString
  username : Option CString
  command : Option CString
  riskLevel : Option CString
  approved : Bool
  allowed : Bool
  success : Bool
  exitCode : Int32
  durationMs : UInt64
  errMsg : Option CString
  policyViolation : Bool
  rateLimitRemaining : UInt32
  sandboxBackend : Option CString
  agentId : UInt64
  modelVersion : Option CString
  authTokenHash : Option CString
  triggerType : Option CString
  triggerSource : Option CString
  promptHash : Option CString
  promptLength : UInt64
  decision : Option CString
  ruleName : Option CString
  confidence : Binary64
  contextTokens : UInt32

/-- `sc_audit_event_type_string` -/
def scAuditEventTypeString : AuditEventType → Bytes
  | .commandExecution => ascii "command_execution"
  | .fileAccess => ascii "file_access"
  | .configChange => ascii "config_change"
  | .authSuccess => ascii "auth_success"
  | .authFailure => ascii "auth_failure"
  | .policyViolation => ascii "policy_violation"
  | .securityEvent => ascii "security_event"
  | .other => ascii "unknown"

/-! ## Escaping -/

/-- `\u%04x` -/
def unicodeEscape (b : UInt8) : Bytes := ch '\\' :: ch 'u' :: fmtHex4 b

/-- The loop of `escape_json_string` in a buffer of `cap` octets: the string in the buffer and the
length that is counted. An escape that does not fit is cut, but counted whole. -/
def escapeLoop (cap : ℕ) : Bytes → Bytes → Bytes × ℕ
  | [], out => (out, out.length)
  | b :: s, out =>
    if out.length + 2 < cap then
      if b = ch '"' ∨ b = ch '\\' then escapeLoop cap s (out ++ [ch '\\', b])
      else if b < 32 then
        if out.length + 6 < cap then escapeLoop cap s (out ++ unicodeEscape b)
        else (out ++ (unicodeEscape b).take (cap - out.length - 1), out.length + 6)
      else escapeLoop cap s (out ++ [b])
    else (out, out.length)

/-- `escape_json_string` and the terminator behind the counted length, which is nothing if it is
written past the buffer. -/
def escapeField (cap : ℕ) (s : CString) : Option Bytes :=
  if (escapeLoop cap s.octets []).2 < cap then some (escapeLoop cap s.octets []).1 else none

/-- A field that may be missing. -/
def escapeOptional (cap : ℕ) : Option CString → Option (Option Bytes)
  | none => some none
  | some s => (escapeField cap s).map some

/-- The command, of which no more than 500 octets are escaped. Here the terminator is kept inside
the buffer. -/
def escapeCommand (s : CString) : Bytes := (escapeLoop 512 (s.octets.take 500) []).1

/-! ## Printing -/

/-- A piece is printed behind the text, and counts if it fits. -/
def appendPiece (size : ℕ) (text piece : Bytes) : Bytes :=
  if text.length + piece.length < size then text ++ piece else text

def appendPieces (size : ℕ) (text : Bytes) (pieces : List Bytes) : Bytes :=
  pieces.foldl (appendPiece size) text

/-- A member is printed with a comma in front of it if one was printed before: `need_comma`. -/
def appendMember (size : ℕ) (st : Bytes × Bool) (m : Bytes) : Bytes × Bool :=
  let piece := (if st.2 then ascii "," else []) ++ m
  if st.1.length + piece.length < size then (st.1 ++ piece, true) else st

/-- `"key":value` -/
def member (key : String) (value : Bytes) : Bytes := octetMember (quoted (ascii key), value)

/-- The member of a string that may be missing. -/
def stringMember (key : String) (value : Option Bytes) : List Bytes :=
  value.toList.map fun v => member key (quoted v)

/-- `,"key":{` -/
def openGroup (key : String) : Bytes := ch ',' :: member key [ch '{']

def boolText (b : Bool) : Bytes := if b then ascii "true" else ascii "false"

/-- `%.2f` of a number that is not negative. -/
def fmtFixed2 : Binary64 → Bytes
  | .finite neg mag _ =>
    let n := roundHalfEven (mag * 100)
    (if neg then [ch '-'] else []) ++ fmtNat (n / 100) ++ ch '.' :: fmtPad 2 (n % 100)
  | .inf neg => (if neg then [ch '-'] else []) ++ ascii "inf"
  | .nan neg => (if neg then [ch '-'] else []) ++ ascii "nan"

/-- `confidence >= 0.0f` -/
def notNegative : Binary64 → Bool
  | .finite neg mag _ => !neg || mag = 0
  | .inf neg => !neg
  | .nan _ => false

/-- `,"identity":{...}` -/
def writeIdentity (size : ℕ) (ev : AuditEvent) (text : Bytes) : Option Bytes :=
  if ev.agentId > 0 ∨ ev.modelVersion.isSome ∨ ev.authTokenHash.isSome then do
    let modelVersion ← escapeOptional 128 ev.modelVersion
    let authTokenHash ← escapeOptional 32 ev.authTokenHash
    some (appendPieces size text
      ((openGroup "identity" ++ member "agent_id" (fmtNat ev.agentId.toNat)) ::
        (stringMember "model_version" modelVersion ++
          stringMember "auth_token_hash" authTokenHash).map (ch ',' :: ·) ++ [[ch '}']]))
  else some text

/-- `,"input":{...}` -/
def writeInput (size : ℕ) (ev : AuditEvent) (text : Bytes) : Option Bytes :=
  if ev.triggerType.isSome ∨ ev.triggerSource.isSome ∨ ev.promptHash.isSome ∨
      ev.promptLength > 0 then do
    let triggerType ← escapeOptional 64 ev.triggerType
    let triggerSource ← escapeOptional 64 ev.triggerSource
    let promptHash ← escapeOptional 80 ev.promptHash
    let members := stringMember "trigger_type" triggerType ++
      stringMember "trigger_source" triggerSource ++ stringMember "prompt_hash" promptHash ++
      if ev.promptLength > 0 then [member "prompt_length" (fmtNat ev.promptLength.toNat)] else []
    let st := members.foldl (appendMember size) (appendPiece size text (openGroup "input"), false)
    some (appendPiece size st.1 [ch '}'])
  else some text

/-- `,"reasoning":{...}` -/
def writeReasoning (size : ℕ) (ev : AuditEvent) (text : Bytes) : Option Bytes :=
  if ev.decision.isSome ∨ ev.ruleName.isSome ∨ notNegative ev.confidence ∨
      ev.contextTokens > 0 then do
    let decision ← escapeOptional 64 ev.decision
    let ruleName ← escapeOptional 64 ev.ruleName
    let members := stringMember "decision" decision ++ stringMember "rule_name" ruleName ++
      (if notNegative ev.confidence then [member "confidence" (fmtFixed2 ev.confidence)] else []) ++
      if ev.contextTokens > 0 then [member "context_tokens" (fmtNat ev.contextTokens.toNat)] else []
    let st :=
      members.foldl (appendMember size) (appendPiece size text (openGroup "reasoning"), false)
    some (appendPiece size st.1 [ch '}'])
  else some text

/-- `,"actor":{...}`, and whether the function goes on behind it. -/
def writeActor (size : ℕ) (ev : AuditEvent) (text : Bytes) : Option (Bytes × Bool) :=
  match ev.channel with
  | none => some (text, true)
  | some channel => do
    let channel ← escapeField 256 channel
    let piece := openGroup "actor" ++ member "channel" (quoted channel)
    if text.length + piece.length ≥ size then some (text, false)
    else
      let userId ← escapeOptional 256 ev.userId
      let username ← escapeOptional 256 ev.username
      some (appendPieces size (text ++ piece)
        ((stringMember "user_id" userId ++ stringMember "username" username).map (ch ',' :: ·) ++
          [[ch '}']]), true)

/-- `,"action":{...}` -/
def writeAction (size : ℕ) (ev : AuditEvent) (text : Bytes) : Option Bytes :=
  if ev.command.isSome ∨ ev.riskLevel.isSome ∨ ev.approved ∨ ev.allowed then do
    let riskLevel ← escapeOptional 64 ev.riskLevel
    let members := stringMember "command" (ev.command.map escapeCommand) ++
      stringMember "risk_level" riskLevel
    let st := members.foldl (appendMember size) (appendPiece size text (openGroup "action"), false)
    some (appendPiece size st.1 ((if st.2 then ascii "," else []) ++
      (member "approved" (boolText ev.approved) ++
        ch ',' :: (member "allowed" (boolText ev.allowed) ++ [ch '}']))))
  else some text

/-- `,"result":{...}` -/
def writeResult (size : ℕ) (ev : AuditEvent) (text : Bytes) : Option Bytes :=
  if ev.durationMs > 0 ∨ ev.errMsg.isSome then do
    let errMsg ← escapeOptional 256 ev.errMsg
    some (appendPieces size text
      ((openGroup "result" ++ member "success" (boolText ev.success)) ::
        ((if ev.exitCode ≥ 0 then [member "exit_code" (fmtInt ev.exitCode.toInt)] else []) ++
          (if ev.durationMs > 0 then [member "duration_ms" (fmtNat ev.durationMs.toNat)] else []) ++
          stringMember "error" errMsg).map (ch ',' :: ·) ++ [[ch '}']]))
  else some text

/-- `,"security":{...}}` -/
def writeSecurity (size : ℕ) (ev : AuditEvent) (text : Bytes) : Option Bytes := do
  let sandboxBackend ← escapeOptional 64 ev.sandboxBackend
  some (appendPieces size text
    ((openGroup "security" ++ member "policy_violation" (boolText ev.policyViolation)) ::
      ((if ev.rateLimitRemaining > 0 then
          [member "rate_limit_remaining" (fmtNat ev.rateLimitRemaining.toNat)] else []) ++
        stringMember "sandbox_backend" sandboxBackend).map (ch ',' :: ·) ++
      [ascii "\x7d\x7d"]))

/-- `{"timestamp_s":%ld,"event_id":%lu,"event_type":"%s"` -/
def auditHead (ev : AuditEvent) : Bytes :=
  ch '{' :: (member "timestamp_s" (fmtInt ev.timestamp.toInt) ++
    ch ',' :: (member "event_id" (fmtNat ev.eventId.toNat) ++
      ch ',' :: member "event_type" (quoted (scAuditEventTypeString ev.eventType))))

/-- `sc_audit_event_write_json`: the text whose length is returned. It is nothing if an octet is
written past the buffer of an escaped string. -/
def scAuditEventWriteJson (ev : AuditEvent) (size : ℕ) : Option Bytes :=
  if size < 64 then some []
  else if (auditHead ev).length ≥ size then some []
  else do
    let text ← writeIdentity size ev (auditHead ev)
    let text ← writeInput size ev text
    let text ← writeReasoning size ev text
    let (text, more) ← writeActor size ev text
    if more then do
      let text ← writeAction size ev text
      let text ← writeResult size ev text
      writeSecurity size ev text
    else some text

end SeaClaw.Security
