import SeaClaw.Json.RoundTrip
import SeaClaw.Lib.CString
import SeaClaw.Lib.Printf

/-!
# The client of an MCP server

The client writes one request at a time to the input of the server and takes the next line of its
output for the answer. The server writes lines whenever it likes, so a call is two steps of a run,
and anything may happen between its request and its answer.
-/

namespace SeaClaw.Mcp

open Lib Json

/-- The fields of `sc_mcp_server` that its functions change. -/
structure McpServer where
  nextId : UInt32
  connected : Bool

/-- `sc_mcp_server_create` -/
def scMcpServerCreate : McpServer := ⟨1, false⟩

/-- What a function comes to. -/
inductive Return (α : Type) where
  | ok (a : α)
  | error (e : ScError)
  /-- A write through a null pointer. -/
  | nullWrite
  /-- A read behind the line. -/
  | overread

/-! ## Requests and answers -/

/-- The text of a request, or of a notification, which has no id. -/
def requestText (id : Option UInt32) (method params : Bytes) : Bytes :=
  (match id with
    | none => ascii "\x7b\"jsonrpc\":\"2.0\",\"method\":\""
    | some id => ascii "\x7b\"jsonrpc\":\"2.0\",\"id\":" ++ fmtNat id.toNat ++ ascii ",\"method\":\"") ++
    (method ++ (ascii "\",\"params\":" ++ (params ++ ascii "\x7d\n")))

/-- `read_line`: the line without carriage returns, and what is left behind it. -/
def readLine : Bytes → Bytes → Option (Bytes × Bytes)
  | [], _ => none
  | b :: s, line =>
    if b = ch '\n' then some (line, s)
    else if b = ch '\r' then readLine s line
    else readLine s (line ++ [b])

/-- The part of `send_request` behind its line: the message of the server, if it has a result and
no error. The id is not looked at. -/
def readAnswer (line : Bytes) : Return Value :=
  match scJsonParse line [0] with
  | .ok parsed _ =>
    if (scJsonObjectGet parsed (ascii "error")).isSome then .error .toolExecution
    else if (scJsonObjectGet parsed (ascii "result")).isSome then .ok parsed
    else .error .toolExecution
  | .err e _ => .error e
  | .overread _ => .overread
  | .outOfFuel => .overread

/-- `send_request` of a notification whose text was taken whole or not: the result is written
through `out_result`, whether it is there or not. -/
def sendNotification (taken outResult : Bool) : Return Unit :=
  if ¬ taken then .error .io
  else if outResult then .ok ()
  else .nullWrite

/-! ## Calls -/

/-- A call of one of the functions of the client. -/
inductive Call where
  | connect
  | listTools
  | callTool (name : CString) (args : Option CString)

def Call.method : Call → Bytes
  | connect => ascii "initialize"
  | listTools => ascii "tools/list"
  | callTool _ _ => ascii "tools/call"

/-- The check for `connected` in front. -/
def Call.needsConnection : Call → Bool
  | connect => false
  | listTools => true
  | callTool _ _ => true

def Call.params : Call → Bytes
  | connect => ascii "\x7b\"protocolVersion\":\"2024-11-05\",\"capabilities\":\x7b\x7d\x7d"
  | listTools => ascii "\x7b\x7d"
  | callTool name args => ascii "\x7b\"name\":" ++ stringifyString name.octets ++
      ascii ",\"arguments\":" ++ (args.elim (ascii "\x7b\x7d") CString.octets) ++ ascii "\x7d"

/-- A tool as it is listed. -/
structure ToolEntry where
  name : Bytes
  description : Bytes
  params : Bytes

/-- What a call gives. An item that is no object leaves a gap in the list of tools. -/
inductive Content where
  | connected
  | tools (entries : List (Option ToolEntry))
  | text (out : Bytes)

/-- The string of a member, or nothing. -/
def stringOr (v : Value) (key : String) : Bytes :=
  match scJsonObjectGet v (ascii key) with
  | some (.string s) => s
  | _ => []

def toolEntry (item : Value) : Option ToolEntry :=
  match item with
  | .object _ => some
    { name := stringOr item "name"
      description := stringOr item "description"
      params := match scJsonObjectGet item (ascii "inputSchema") with
        | some (.object ms) => scJsonStringify (.object ms)
        | _ => ascii "\x7b\x7d" }
  | _ => none

/-- `sc_mcp_server_list_tools` behind its request. -/
def readTools (resp : Value) : Return Content :=
  match scJsonObjectGet resp (ascii "result") with
  | some (.object result) =>
    match scJsonObjectGet (.object result) (ascii "tools") with
    | some (.array items) => .ok (.tools (items.map toolEntry))
    | _ => .error .toolExecution
  | _ => .error .toolExecution

/-- One item of a content array, whose texts stand on lines of their own. -/
def appendText (out : Bytes) (item : Value) : Bytes :=
  match item with
  | .object ms =>
    match scJsonObjectGet (.object ms) (ascii "text") with
    | some (.string text) => (if out.length > 0 then out ++ [ch '\n'] else out) ++ text
    | _ => out
  | _ => out

/-- `sc_mcp_server_call_tool` behind its request. -/
def readContent (resp : Value) : Return Content :=
  match scJsonObjectGet resp (ascii "result") with
  | some (.object result) =>
    match scJsonObjectGet (.object result) (ascii "content") with
    | some (.array items) => .ok (.text (items.foldl appendText []))
    | _ => .error .toolExecution
  | _ => .error .toolExecution

/-- `sc_mcp_server_connect` behind its request, with the notification taken whole or not. -/
def readInitialize (taken : Bool) (resp : Value) : Return Content :=
  match scJsonObjectGet resp (ascii "result") with
  | some (.object result) =>
    if (scJsonObjectGet (.object result) (ascii "protocolVersion")).isSome then
      match sendNotification taken false with
      | .ok () => .ok .connected
      | .error e => .error e
      | .nullWrite => .nullWrite
      | .overread => .overread
    else .error .io
  | _ => .error .io

/-- What the call makes of the message of the server. -/
def Call.read (taken : Bool) : Call → Value → Return Content
  | connect => readInitialize taken
  | listTools => readTools
  | callTool _ _ => readContent

/-- What the call makes of the line it reads. -/
def Call.answer (taken : Bool) (c : Call) (line : Bytes) : Return Content :=
  match readAnswer line with
  | .ok resp => c.read taken resp
  | .error e => .error e
  | .nullWrite => .nullWrite
  | .overread => .overread

/-! ## Runs -/

/-- A call that returned, with the id it sent, if it sent one. -/
structure Returned where
  call : Call
  id : Option UInt32
  result : Return Content

inductive Phase where
  | idle
  /-- The request with this id is written, its answer is not yet read. -/
  | waiting (id : UInt32) (call : Call)
  /-- The server is destroyed, or the process has crashed. -/
  | gone

/-- The client and the two pipes. -/
structure Session where
  server : McpServer
  phase : Phase
  /-- What the client has written. -/
  requests : Bytes
  /-- What the server has written and the client has not read. -/
  output : Bytes
  /-- Whether the server has closed its end. -/
  closed : Bool
  returns : List Returned

def Session.start : Session := ⟨scMcpServerCreate, .idle, [], [], false, []⟩

inductive Event where
  /-- A call, of whose request the pipe takes so many octets. -/
  | call (c : Call) (taken : ℕ)
  /-- The server writes. -/
  | serve (s : Bytes)
  /-- The server closes its end. -/
  | close
  /-- The pending call reads its line, and the pipe takes so much of its notification. -/
  | read (taken : ℕ)

/-- The state of the server object behind a call that returns. -/
def Session.ret (s : Session) (c : Call) (id : Option UInt32) (r : Return Content) : Session :=
  { s with
    returns := s.returns ++ [⟨c, id, r⟩]
    server := match c, r with
      | .connect, .ok _ => { s.server with connected := true }
      | _, _ => s.server
    phase := match c, r with
      | .connect, .error _ => .gone
      | _, .nullWrite => .gone
      | _, .overread => .gone
      | _, _ => .idle }

/-- The request of a call. -/
def Session.send (s : Session) (c : Call) (taken : ℕ) : Session :=
  let text := requestText (some s.server.nextId) c.method c.params
  let s' := { s with requests := s.requests ++ text.take taken }
  if taken < text.length then s'.ret c none (.error .io)
  else { s' with
    server := { s'.server with nextId := s'.server.nextId + 1 }
    phase := .waiting s.server.nextId c }

/-- The text of the notification behind `initialize`. -/
def initializedText : Bytes := requestText none (ascii "notifications/initialized") (ascii "\x7b\x7d")

/-- The notification is written if `initialize` was answered as expected. -/
def Session.notified (s : Session) (c : Call) (line : Bytes) (taken : ℕ) : Session :=
  match c.answer true line with
  | .nullWrite => { s with requests := s.requests ++ initializedText.take taken }
  | _ => s

/-- One step, if it can be taken. A read waits for a whole line. -/
def Session.step (s : Session) : Event → Option Session
  | .call c taken =>
    match s.phase with
    | .idle =>
      if c.needsConnection && !s.server.connected then
        some (s.ret c none (.error .invalidArgument))
      else some (s.send c taken)
    | _ => none
  | .serve text => if s.closed then none else some { s with output := s.output ++ text }
  | .close => some { s with closed := true }
  | .read taken =>
    match s.phase with
    | .waiting id c =>
      match readLine s.output [] with
      | some (line, rest) =>
        some ((({ s with output := rest }).notified c line taken).ret c (some id)
          (c.answer (initializedText.length ≤ taken) line))
      | none =>
        if s.closed then some ({ s with output := [] }.ret c (some id) (.error .io)) else none
    | _ => none

/-- The next state. What cannot happen changes nothing. -/
def Session.next (s : Session) (e : Event) : Session := (s.step e).getD s

/-- A run of any length. -/
def Session.run (s : Session) (events : List Event) : Session := events.foldl .next s

/-! ## What is promised -/

/-- A line that answers the request with this id. -/
def IsResponse (id : UInt32) (line : Bytes) : Prop :=
  ∃ ms c grid, scJsonParse line [0] = .ok (.object ms) c ∧
    scJsonObjectGet (.object ms) (ascii "id") = some (.number (.finite false id.toNat grid)) ∧
    scJsonObjectGet (.object ms) (ascii "method") = none

/-- A notification or a request of the server. -/
def Unsolicited (line : Bytes) : Prop :=
  ∃ ms c, scJsonParse line [0] = .ok (.object ms) c ∧
    (scJsonObjectGet (.object ms) (ascii "method")).isSome

/-- The server writes whole lines: one response for each id that was sent, in any order, and
anything of its own at any moment. The ids already answered are in `done`. -/
def Obeys : Session → List UInt32 → List Event → Prop
  | s, done, [] => ∀ id, 1 ≤ id → id < s.server.nextId → id ∈ done
  | s, done, e :: es =>
    match e with
    | .serve text => ∃ line, text = line ++ [ch '\n'] ∧ ch '\n' ∉ line ∧
        ((∃ id, 1 ≤ id ∧ id < s.server.nextId ∧ id ∉ done ∧ IsResponse id line ∧
            Obeys (s.next e) (id :: done) es) ∨
          (Unsolicited line ∧ Obeys (s.next e) done es))
    | .close => False
    | _ => Obeys (s.next e) done es

/-- The lines that the server wrote in a run. -/
def served (events : List Event) : List Bytes :=
  events.filterMap fun e =>
    match e with
    | .serve text => some text.dropLast
    | _ => none

/-- The call returned the content of the response with its id. -/
def Returned.Matches (lines : List Bytes) (r : Returned) : Prop :=
  ∀ content, r.result = .ok content → r.call ≠ .connect →
    ∃ id ∈ r.id, ∃ line ∈ lines, IsResponse id line ∧ r.call.answer true line = .ok content

/-- What a client that matches replies to requests has after a run. -/
structure Correct (lines : List Bytes) (s : Session) : Prop where
  connects : ∃ r ∈ s.returns, r.call = .connect ∧ r.result = .ok .connected
  noNullWrite : ∀ r ∈ s.returns, r.result ≠ .nullWrite
  matched : ∀ r ∈ s.returns, r.Matches lines

/-! ## Every run -/

/-- No call has succeeded, and only a connect is under way. -/
structure Unconnected (s : Session) : Prop where
  flag : s.server.connected = false
  pending : ∀ id c, s.phase = .waiting id c → c = .connect
  returns : ∀ r ∈ s.returns, ∀ content, r.result ≠ .ok content

theorem readInitialize_ne_ok (taken : Bool) (resp : Value) (content : Content) :
    readInitialize taken resp ≠ .ok content := by
  rw [readInitialize]
  split
  · split_ifs
    · cases taken <;> simp [sendNotification]
    · simp
  · simp

/-- A connect never succeeds, whatever it reads. -/
theorem answer_connect_ne_ok (taken : Bool) (line : Bytes) (content : Content) :
    Call.connect.answer taken line ≠ .ok content := by
  rw [Call.answer]
  cases readAnswer line with
  | ok resp => exact readInitialize_ne_ok taken resp content
  | error e => simp
  | nullWrite => simp
  | overread => simp

section Step

variable {s : Session}

theorem Unconnected.ret (h : Unconnected s) (c : Call) (id : Option UInt32) {r : Return Content}
    (hr : ∀ content, r ≠ .ok content) : Unconnected (s.ret c id r) := by
  constructor
  · rw [← h.flag]
    cases c <;> cases r <;> first | rfl | exact absurd rfl (hr _)
  · intro id' c' hphase
    simp only [Session.ret] at hphase
    split at hphase <;> cases hphase
  · intro r' hr'
    rcases List.mem_append.mp hr' with hmem | hmem
    · exact h.returns r' hmem
    · rw [List.mem_singleton.mp hmem]
      exact hr

theorem Unconnected.send (h : Unconnected s) (taken : ℕ) : Unconnected (s.send .connect taken) := by
  rw [Session.send]
  split_ifs
  · have hs : Unconnected { s with requests := s.requests ++
        (requestText (some s.server.nextId) Call.connect.method Call.connect.params).take taken } :=
      ⟨h.flag, h.pending, h.returns⟩
    exact hs.ret .connect none (by simp)
  · refine ⟨h.flag, ?_, h.returns⟩
    intro id c hphase
    cases hphase
    rfl

theorem Unconnected.notified (h : Unconnected s) (c : Call) (line : Bytes) (taken : ℕ) :
    Unconnected (s.notified c line taken) := by
  rw [Session.notified]
  split
  · exact ⟨h.flag, h.pending, h.returns⟩
  · exact h

/-- One step keeps the client unconnected. -/
theorem Unconnected.step (h : Unconnected s) {e : Event} {s' : Session} (hs : s.step e = some s') :
    Unconnected s' := by
  cases e with
  | call c taken =>
    rw [Session.step] at hs
    split at hs
    · split_ifs at hs with hneeds
      · obtain rfl := Option.some.inj hs
        exact h.ret c none (by simp)
      · obtain rfl := Option.some.inj hs
        have hc : c = .connect := by
          cases c <;> first | rfl | exact absurd (by rw [h.flag]; rfl) hneeds
        rw [hc]
        exact h.send taken
    · cases hs
  | serve text =>
    rw [Session.step] at hs
    split_ifs at hs
    obtain rfl := Option.some.inj hs
    exact ⟨h.flag, h.pending, h.returns⟩
  | close =>
    obtain rfl := Option.some.inj hs
    exact ⟨h.flag, h.pending, h.returns⟩
  | read taken =>
    rw [Session.step] at hs
    split at hs
    case h_2 => cases hs
    case h_1 id c hphase =>
      obtain rfl := h.pending id c hphase
      split at hs
      case h_1 line rest hline =>
        obtain rfl := Option.some.inj hs
        have hrest : Unconnected { s with output := rest } := ⟨h.flag, h.pending, h.returns⟩
        exact (hrest.notified .connect line taken).ret _ _ (answer_connect_ne_ok _ line)
      case h_2 =>
        split_ifs at hs
        obtain rfl := Option.some.inj hs
        have hrest : Unconnected { s with output := [] } := ⟨h.flag, h.pending, h.returns⟩
        exact hrest.ret _ _ (by simp)

end Step

theorem Unconnected.next {s : Session} (h : Unconnected s) (e : Event) : Unconnected (s.next e) := by
  rw [Session.next]
  cases hs : s.step e with
  | none => exact h
  | some s' => exact h.step hs

/-- No run connects the client. -/
theorem Unconnected.run {s : Session} (h : Unconnected s) (events : List Event) :
    Unconnected (s.run events) := by
  induction events generalizing s with
  | nil => exact h
  | cons e es ih => exact ih (h.next e)

theorem unconnected_start : Unconnected Session.start := by
  refine ⟨rfl, ?_, ?_⟩
  · intro id c hphase
    cases hphase
  · intro r hr
    cases hr

theorem Unconnected.not_correct {s : Session} (h : Unconnected s) (lines : List Bytes) :
    ¬ Correct lines s := by
  intro hcorrect
  obtain ⟨r, hr, -, hok⟩ := hcorrect.connects
  exact h.returns r hr _ hok

/-- A connect that is answered as expected, and whose notification is taken, ends in the write
through the pointer that it passes for the result. -/
theorem answer_connect_null {line : Bytes} {resp : Value} {result : List (Bytes × Value)}
    (hanswer : readAnswer line = .ok resp)
    (hresult : scJsonObjectGet resp (ascii "result") = some (.object result))
    (hversion : (scJsonObjectGet (.object result) (ascii "protocolVersion")).isSome) :
    Call.connect.answer true line = .nullWrite := by
  rw [Call.answer, hanswer]
  simp only [Call.read, readInitialize, hresult, hversion, if_true]
  rfl

/-- In no run of any server does the client keep its promise. -/
theorem never_correct (events : List Event) :
    ¬ Correct (served events) (Session.start.run events) :=
  (unconnected_start.run events).not_correct _

theorem natAbs_one_lt : (1 : ℤ).natAbs < 10 ^ 15 := by decide

/-- A response to the first request with all that is asked for. -/
def initializeResponse : Value := .object
  [(ascii "id", .number (.ofInt 1 (lt_two_pow_53 natAbs_one_lt))),
  (ascii "result", .object [(ascii "protocolVersion", .string (ascii "2024-11-05"))])]

def initializeLine : Bytes := scJsonStringify initializeResponse

theorem initializeLine_eq : initializeLine =
    ascii "\x7b\"id\":1,\"result\":\x7b\"protocolVersion\":\"2024-11-05\"\x7d\x7d" := by
  rw [initializeLine, scJsonStringify, initializeResponse]
  simp only [stringifyValue, stringifyPairs]
  decide

theorem parse_initializeLine : scJsonParse initializeLine [0] =
    .ok initializeResponse ⟨[], [0], 0, 0⟩ := by
  refine scJsonParse_of_follows ?_ ?_ (follows_cons (by decide) [])
  · refine ⟨by decide, ⟨1, natAbs_one_lt, rfl⟩, ⟨by decide, trivial, trivial⟩, trivial⟩
  · decide

/-- A server that answers, and a client whose requests are taken whole. -/
def initializeRun : List Event := [.call .connect 200, .serve (initializeLine ++ [ch '\n']),
  .read 200]

/-- The first request of every client. -/
def connectText : Bytes := requestText (some 1) Call.connect.method Call.connect.params

theorem next_connect : Session.start.next (.call .connect 200) =
    ⟨⟨2, false⟩, .waiting 1 .connect, connectText.take 200, [], false, []⟩ := by
  have hlen : ¬ 200 < connectText.length := by decide +kernel
  have hstep : Session.start.step (.call .connect 200) =
      some (Session.start.send .connect 200) := rfl
  rw [Session.next, hstep, Option.getD_some, Session.send]
  exact if_neg hlen

theorem next_serve : (Session.start.next (.call .connect 200)).next
    (.serve (initializeLine ++ [ch '\n'])) = ⟨⟨2, false⟩, .waiting 1 .connect,
      connectText.take 200, initializeLine ++ [ch '\n'], false, []⟩ := by
  rw [next_connect]
  rfl

theorem answer_initializeLine : Call.connect.answer true initializeLine = .nullWrite := by
  refine @answer_connect_null initializeLine initializeResponse _ ?_ rfl rfl
  rw [readAnswer, parse_initializeLine]
  rfl

theorem run_initializeRun : Session.start.run initializeRun =
    ⟨⟨2, false⟩, .gone, connectText.take 200 ++ initializedText.take 200, [], false,
      [⟨.connect, some 1, .nullWrite⟩]⟩ := by
  have hread : readLine (initializeLine ++ [ch '\n']) [] = some (initializeLine, []) := by
    rw [initializeLine_eq]
    decide
  have htaken : decide (initializedText.length ≤ 200) = true := by decide
  rw [initializeRun, Session.run, List.foldl_cons, List.foldl_cons, next_serve, List.foldl_cons,
    List.foldl_nil, Session.next, Session.step]
  simp only [hread, htaken, answer_initializeLine, Option.getD_some, Session.notified, Session.ret]
  rfl

theorem never_correct_initialize : Obeys Session.start [] initializeRun ∧
    (Session.start.run initializeRun).returns = [⟨.connect, some 1, .nullWrite⟩] ∧
    ¬ Correct (served initializeRun) (Session.start.run initializeRun) := by
  refine ⟨?_, by rw [run_initializeRun], (unconnected_start.run _).not_correct _⟩
  refine ⟨initializeLine, rfl, ?_, Or.inl ⟨1, by decide, ?_, by decide, ?_, ?_⟩⟩
  · rw [initializeLine_eq]
    decide
  · rw [next_connect]
    decide
  · exact ⟨_, _, _, parse_initializeLine, rfl, rfl⟩
  · -- the only id that was sent is the first
    intro id hlow hhigh
    have hlast : (((Session.start.next (.call .connect 200)).next
        (.serve (initializeLine ++ [ch '\n']))).next (.read 200)) =
          Session.start.run initializeRun := by
      rw [initializeRun, Session.run, List.foldl_cons, List.foldl_cons, List.foldl_cons,
        List.foldl_nil]
    rw [hlast, run_initializeRun, UInt32.lt_iff_toNat_lt] at hhigh
    rw [UInt32.le_iff_toNat_le] at hlow
    have hid : id = 1 := UInt32.toNat_inj.mp (Nat.le_antisymm (Nat.lt_succ_iff.mp hhigh) hlow)
    rw [hid]
    exact List.mem_singleton_self 1

end SeaClaw.Mcp
