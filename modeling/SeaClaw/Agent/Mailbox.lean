import SeaClaw.Core.Error
import SeaClaw.Lib.CString
import SeaClaw.Lib.Ring

/-!
# The mailbox

Each registered agent has an inbox, a ring of slots between a head and a tail. The calls are
those of one thread after the other; the lock of the mailbox is never taken.
-/

namespace SeaClaw.Agent

open SeaClaw.Lib

/-- `SC_INBOX_CAP` -/
def inboxCap : ℕ := 256

theorem inboxCap_pos : 0 < inboxCap := by decide

/-- `sc_msg_type_t` -/
inductive MsgType where
  | task | result | error | cancel | ping | pong
  deriving DecidableEq

/-- `sc_message_t`; the payload is the octets that were copied, without their terminator. -/
structure Message where
  type : MsgType
  fromAgent : ℕ
  toAgent : ℕ
  payload : Option Bytes
  payloadLen : ℕ
  timestamp : ℕ
  correlationId : ℕ
  deriving DecidableEq

/-- A message of zeros. -/
def Message.zero : Message := ⟨.task, 0, 0, none, 0, 0, 0⟩

/-- `sc_inbox_t` -/
structure Inbox where
  agentId : ℕ
  msgs : ℕ → Message
  head : ℕ
  tail : ℕ
  registered : Bool
  head_lt : head < inboxCap
  tail_lt : tail < inboxCap

/-- An inbox of zeros. -/
def Inbox.zero : Inbox := ⟨0, fun _ => .zero, 0, 0, false, inboxCap_pos, inboxCap_pos⟩

/-- `struct sc_mailbox` -/
structure Mailbox where
  inboxes : List Inbox

/-- `sc_mailbox_create` -/
def scMailboxCreate (maxAgents : ℕ) : Option Mailbox :=
  if maxAgents = 0 then none else some ⟨List.replicate maxAgents .zero⟩

/-- `find_inbox` -/
def findInbox (m : Mailbox) (agentId : ℕ) : Option ℕ :=
  m.inboxes.findIdx? fun ib => ib.registered ∧ ib.agentId = agentId

/-- `inbox_count`, in 32 bits. -/
def inboxCount (ib : Inbox) : ℕ := (ib.tail + 2 ^ 32 - ib.head + inboxCap) % 2 ^ 32 % inboxCap

/-- `inbox_full` -/
def inboxFull (ib : Inbox) : Bool := (ib.tail + 1) % inboxCap = ib.head

/-- One inbox changed. -/
def Mailbox.change (m : Mailbox) (i : ℕ) (f : Inbox → Inbox) : Mailbox := ⟨m.inboxes.modify i f⟩

/-- `sc_mailbox_register` -/
def scMailboxRegister (m : Mailbox) (agentId : ℕ) : Except ScError Unit × Mailbox :=
  match findInbox m agentId with
  | some _ => (.ok (), m)
  | none =>
    match m.inboxes.findIdx? fun ib => ¬ ib.registered with
    | some i => (.ok (), m.change i fun _ => { Inbox.zero with agentId, registered := true })
    | none => (.error .outOfMemory, m)

/-- An inbox that was emptied and given up. -/
def Inbox.release (ib : Inbox) : Inbox :=
  { ib with head := ib.tail, head_lt := ib.tail_lt, registered := false }

/-- `sc_mailbox_unregister`; its loop takes the head to the tail. -/
def scMailboxUnregister (m : Mailbox) (agentId : ℕ) : Except ScError Unit × Mailbox :=
  match findInbox m agentId with
  | none => (.error .notFound, m)
  | some i => (.ok (), m.change i .release)

/-- What a sender passes as payload: an address, or `NULL`, and a length. -/
structure Payload where
  octets : Option Bytes
  len : ℕ
  length_eq : ∀ s, octets = some s → s.length = len

/-- `sc_strndup` of a payload, by whether it finds memory. -/
def scStrndup (found : Bool) (s : Bytes) : Option Bytes :=
  if found then some (s.takeWhile (· ≠ 0)) else none

/-- A message written behind the tail. -/
def Inbox.push (ib : Inbox) (msg : Message) : Inbox :=
  { ib with
    msgs := Function.update ib.msgs ib.tail msg
    tail := (ib.tail + 1) % inboxCap
    tail_lt := Nat.mod_lt _ inboxCap_pos }

/-- `sc_mailbox_send` -/
def scMailboxSend (m : Mailbox) (fromAgent toAgent : ℕ) (type : MsgType) (p : Payload)
    (correlationId : ℕ) (found : Bool) (now : ℕ) : Except ScError Unit × Mailbox :=
  match findInbox m toAgent with
  | none => (.error .notFound, m)
  | some i =>
    match m.inboxes[i]? with
    | none => (.error .notFound, m)
    | some ib =>
      if inboxFull ib then (.error .outOfMemory, m)
      else
        (.ok (), m.change i fun ib => ib.push
          { type, fromAgent, toAgent, correlationId
            payload := p.octets.bind (scStrndup found)
            payloadLen := p.len
            timestamp := now })

/-- An inbox without the message at its head. -/
def Inbox.pop (ib : Inbox) : Inbox :=
  { ib with head := (ib.head + 1) % inboxCap, head_lt := Nat.mod_lt _ inboxCap_pos }

/-- `sc_mailbox_recv` -/
def scMailboxRecv (m : Mailbox) (agentId : ℕ) : Except ScError Message × Mailbox :=
  match findInbox m agentId with
  | none => (.error .notFound, m)
  | some i =>
    match m.inboxes[i]? with
    | none => (.error .notFound, m)
    | some ib =>
      if ib.head = ib.tail then (.error .notFound, m)
      else (.ok (ib.msgs ib.head), m.change i .pop)

/-- The loop of `sc_mailbox_broadcast` over the inboxes at some places; memory and time may
differ from one copy to the next. -/
def broadcastLoop (fromAgent : ℕ) (type : MsgType) (p : Payload) (found : ℕ → Bool)
    (now : ℕ → ℕ) : List ℕ → Mailbox → Mailbox
  | [], m => m
  | i :: is, m =>
    match m.inboxes[i]? with
    | none => broadcastLoop fromAgent type p found now is m
    | some ib =>
      if ¬ ib.registered ∨ ib.agentId = fromAgent then
        broadcastLoop fromAgent type p found now is m
      else
        broadcastLoop fromAgent type p found now is
          (scMailboxSend m fromAgent ib.agentId type p 0 (found i) (now i)).2

/-- `sc_mailbox_broadcast` -/
def scMailboxBroadcast (m : Mailbox) (fromAgent : ℕ) (type : MsgType) (p : Payload)
    (found : ℕ → Bool) (now : ℕ → ℕ) : Mailbox :=
  broadcastLoop fromAgent type p found now (List.range m.inboxes.length) m

/-! ## An inbox as a queue -/

/-- The messages that wait, in the order in which they will be received. -/
def Inbox.contents (ib : Inbox) : List Message :=
  Ring.window ib.msgs inboxCap ib.head (inboxCount ib)

section Queue

variable (ib : Inbox)

theorem inboxCount_eq : inboxCount ib = (ib.tail + inboxCap - ib.head) % inboxCap := by
  have hh := ib.head_lt
  have ht := ib.tail_lt
  simp only [inboxCount, inboxCap] at hh ht ⊢
  omega

theorem inboxCount_lt : inboxCount ib < inboxCap := Nat.mod_lt _ inboxCap_pos

/-- The tail is as far behind the head as there are messages. -/
theorem head_add_count : (ib.head + inboxCount ib) % inboxCap = ib.tail := by
  have hh := ib.head_lt
  have ht := ib.tail_lt
  rw [inboxCount_eq]
  simp only [inboxCap] at hh ht ⊢
  omega

theorem inboxFull_iff : inboxFull ib = true ↔ inboxCount ib = inboxCap - 1 := by
  have hh := ib.head_lt
  have ht := ib.tail_lt
  rw [inboxFull, inboxCount_eq, decide_eq_true_eq]
  simp only [inboxCap] at hh ht ⊢
  omega

theorem head_eq_tail_iff : ib.head = ib.tail ↔ inboxCount ib = 0 := by
  have hh := ib.head_lt
  have ht := ib.tail_lt
  rw [inboxCount_eq]
  simp only [inboxCap] at hh ht ⊢
  omega

@[simp] theorem length_contents : ib.contents.length = inboxCount ib := Ring.length_window _

variable {ib}

theorem count_push (h : inboxFull ib = false) (msg : Message) :
    inboxCount (ib.push msg) = inboxCount ib + 1 := by
  have hh := ib.head_lt
  have ht := ib.tail_lt
  rw [inboxFull, decide_eq_false_iff_not] at h
  rw [inboxCount_eq, inboxCount_eq]
  simp only [Inbox.push, inboxCap] at hh ht h ⊢
  omega

/-- A message that is pushed waits behind all the others. -/
theorem contents_push (h : inboxFull ib = false) (msg : Message) :
    (ib.push msg).contents = ib.contents ++ [msg] := by
  rw [Inbox.contents, count_push h, Inbox.contents, ← Ring.window_push msg (inboxCount_lt ib),
    head_add_count]
  rfl

theorem count_pop (h : ib.head ≠ ib.tail) : inboxCount ib = inboxCount ib.pop + 1 := by
  have hh := ib.head_lt
  have ht := ib.tail_lt
  rw [inboxCount_eq, inboxCount_eq]
  simp only [Inbox.pop, inboxCap] at hh ht ⊢
  omega

/-- The message at the head is the first one that waits. -/
theorem contents_pop (h : ib.head ≠ ib.tail) :
    ib.contents = ib.msgs ib.head :: ib.pop.contents := by
  rw [Inbox.contents, count_pop h, Ring.window_succ, Nat.mod_eq_of_lt ib.head_lt, Inbox.contents,
    ← Ring.window_mod]
  rfl

theorem contents_zero (ib : Inbox) (h : ib.head = ib.tail) : ib.contents = [] := by
  rw [Inbox.contents, (head_eq_tail_iff ib).mp h, Ring.window_zero]

end Queue

end SeaClaw.Agent
