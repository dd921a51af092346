import SeaClaw.Agent.Mailbox
import SeaClaw.Lib.Machine

/-!
# Delivery

What was accepted for an agent since it registered, against what it received and what waits
for it. Queues lose and repeat nothing; a message changes on its way when the copy of its
payload stops at a NUL or finds no memory.
-/

namespace SeaClaw.Agent

open SeaClaw.Lib

/-! ## Calls with a log -/

/-- The message as it was sent. -/
def asSent (fromAgent toAgent : ℕ) (type : MsgType) (p : Payload) (correlationId now : ℕ) :
    Message :=
  { type, fromAgent, toAgent, correlationId
    payload := p.octets
    payloadLen := p.len
    timestamp := now }

/-- What an agent was sent with success, and what it received, since it registered. -/
structure MailLog where
  accepted : List Message
  received : List Message

/-- A mailbox and the logs of the agents. -/
structure MailState where
  box : Mailbox
  log : ℕ → MailLog

/-- `sc_mailbox_send`, entered in the log when it is accepted. -/
def mailSend (s : MailState) (fromAgent toAgent : ℕ) (type : MsgType) (p : Payload)
    (correlationId : ℕ) (found : Bool) (now : ℕ) : MailState :=
  match scMailboxSend s.box fromAgent toAgent type p correlationId found now with
  | (.error _, m) => ⟨m, s.log⟩
  | (.ok (), m) => ⟨m, Function.update s.log toAgent
      ⟨(s.log toAgent).accepted ++ [asSent fromAgent toAgent type p correlationId now],
        (s.log toAgent).received⟩⟩

/-- The loop of `sc_mailbox_broadcast`, each of its sends entered in the log. -/
def mailBroadcast (fromAgent : ℕ) (type : MsgType) (p : Payload) (found : ℕ → Bool)
    (now : ℕ → ℕ) : List ℕ → MailState → MailState
  | [], s => s
  | i :: is, s =>
    match s.box.inboxes[i]? with
    | none => mailBroadcast fromAgent type p found now is s
    | some ib =>
      if ¬ ib.registered ∨ ib.agentId = fromAgent then
        mailBroadcast fromAgent type p found now is s
      else
        mailBroadcast fromAgent type p found now is
          (mailSend s fromAgent ib.agentId type p 0 (found i) (now i))

/-- A call by some agent. -/
inductive MailOp where
  | register (agentId : ℕ)
  | unregister (agentId : ℕ)
  | send (fromAgent toAgent : ℕ) (type : MsgType) (p : Payload) (correlationId : ℕ)
      (found : Bool) (now : ℕ)
  | broadcast (fromAgent : ℕ) (type : MsgType) (p : Payload) (found : ℕ → Bool) (now : ℕ → ℕ)
  | recv (agentId : ℕ)

/-- One call. The log of an agent starts anew when it is registered anew. -/
def mailStep (s : MailState) : MailOp → Option MailState
  | .register agentId =>
    match findInbox s.box agentId, scMailboxRegister s.box agentId with
    | none, (.ok (), m) => some ⟨m, Function.update s.log agentId ⟨[], []⟩⟩
    | _, (_, m) => some ⟨m, s.log⟩
  | .unregister agentId => some ⟨(scMailboxUnregister s.box agentId).2, s.log⟩
  | .send fromAgent toAgent type p correlationId found now =>
    some (mailSend s fromAgent toAgent type p correlationId found now)
  | .broadcast fromAgent type p found now =>
    some ⟨scMailboxBroadcast s.box fromAgent type p found now,
      (mailBroadcast fromAgent type p found now (List.range s.box.inboxes.length) s).log⟩
  | .recv agentId =>
    match scMailboxRecv s.box agentId with
    | (.ok msg, m) => some ⟨m, Function.update s.log agentId
        ⟨(s.log agentId).accepted, (s.log agentId).received ++ [msg]⟩⟩
    | (.error _, m) => some ⟨m, s.log⟩

/-- The inbox that `find_inbox` finds. -/
def inboxOf (m : Mailbox) (agentId : ℕ) : Option Inbox :=
  (findInbox m agentId).bind fun i => m.inboxes[i]?

/-- What a registered agent received, and then what waits for it, is what was accepted for it,
as it was sent. -/
def InOrder (s : MailState) : Prop := ∀ agentId ib, inboxOf s.box agentId = some ib →
  (s.log agentId).accepted = (s.log agentId).received ++ ib.contents

/-- Delivery: in order, each once and as sent; the first message that waits is the one that is
received next; and only a full inbox refuses a message. -/
structure Delivered (s : MailState) : Prop where
  inOrder : InOrder s
  next : ∀ agentId ib, inboxOf s.box agentId = some ib → (scMailboxRecv s.box agentId).1 =
    match ib.contents with
    | [] => .error .notFound
    | msg :: _ => .ok msg
  refused : ∀ fromAgent toAgent type p correlationId found now ib,
    inboxOf s.box toAgent = some ib →
    (scMailboxSend s.box fromAgent toAgent type p correlationId found now).1 ≠ .ok () →
    inboxCount ib = inboxCap - 1

/-- The copy of the payload is the payload: it finds memory, and no NUL cuts it. -/
def Intact (p : Payload) (found : Bool) : Prop :=
  ∀ s, p.octets = some s → found = true ∧ 0 ∉ s

/-- Each message that a call puts into an inbox is copied intact. -/
def Kept (s : MailState) : MailOp → Prop
  | .send _ toAgent _ p _ found _ =>
    ∀ ib, inboxOf s.box toAgent = some ib → inboxFull ib = false → Intact p found
  | .broadcast fromAgent _ p found _ => ∀ i ib, s.box.inboxes[i]? = some ib →
    ib.registered = true → ib.agentId ≠ fromAgent → inboxFull ib = false → Intact p (found i)
  | _ => True

/-! ## Registered agents -/

/-- An inbox of the agent stands at a place. -/
def HasInbox (m : Mailbox) (agentId i : ℕ) (ib : Inbox) : Prop :=
  m.inboxes[i]? = some ib ∧ ib.registered = true ∧ ib.agentId = agentId

/-- No agent has two inboxes. -/
def Mailbox.Distinct (m : Mailbox) : Prop :=
  ∀ agentId i j ib jb, HasInbox m agentId i ib → HasInbox m agentId j jb → i = j

section Inboxes

variable {m : Mailbox} {agentId i : ℕ} {ib : Inbox}

theorem findInbox_some (h : findInbox m agentId = some i) : ∃ ib, HasInbox m agentId i ib := by
  obtain ⟨hi, hib, -⟩ := List.findIdx?_eq_some_iff_getElem.mp h
  obtain ⟨hregistered, hagent⟩ := of_decide_eq_true hib
  exact ⟨m.inboxes[i], List.getElem?_eq_getElem hi, hregistered, hagent⟩

theorem findInbox_none : findInbox m agentId = none ↔ ∀ i ib, ¬ HasInbox m agentId i ib := by
  rw [findInbox, List.findIdx?_eq_none_iff]
  constructor
  · rintro h i ib ⟨hi, hregistered, hagent⟩
    have := h ib (List.mem_of_getElem? hi)
    simp [hregistered, hagent] at this
  · intro h ib hib
    obtain ⟨i, hi⟩ := List.mem_iff_getElem?.mp hib
    rw [decide_eq_false_iff_not]
    rintro ⟨hregistered, hagent⟩
    exact h i ib ⟨hi, hregistered, hagent⟩

theorem Mailbox.Distinct.find (hd : m.Distinct) (h : HasInbox m agentId i ib) :
    findInbox m agentId = some i := by
  cases hfind : findInbox m agentId with
  | none => exact absurd h (findInbox_none.mp hfind i ib)
  | some j =>
    obtain ⟨jb, hj⟩ := findInbox_some hfind
    rw [hd agentId i j ib jb h hj]

theorem Mailbox.Distinct.inboxOf (hd : m.Distinct) :
    inboxOf m agentId = some ib ↔ ∃ i, HasInbox m agentId i ib := by
  constructor
  · intro h
    obtain ⟨i, hi, hib⟩ := Option.bind_eq_some_iff.mp h
    obtain ⟨jb, hj, hregistered, hagent⟩ := findInbox_some hi
    rw [hib, Option.some.injEq] at hj
    subst hj
    exact ⟨i, hib, hregistered, hagent⟩
  · rintro ⟨i, h⟩
    rw [Agent.inboxOf, hd.find h, Option.bind_some, h.1]

theorem getElem?_change (f : Inbox → Inbox) (j : ℕ) : (m.change i f).inboxes[j]? =
    m.inboxes[j]?.map fun ib => if i = j then f ib else ib := by
  rw [Mailbox.change, List.getElem?_modify]
  cases m.inboxes[j]? with
  | none => rfl
  | some jb => by_cases hij : i = j <;> simp [hij]

/-- A change that keeps the agent of an inbox. -/
def KeepsAgent (f : Inbox → Inbox) : Prop :=
  ∀ ib, (f ib).registered = ib.registered ∧ (f ib).agentId = ib.agentId

theorem keepsAgent_push (msg : Message) : KeepsAgent fun ib => ib.push msg := fun _ => ⟨rfl, rfl⟩

theorem keepsAgent_pop : KeepsAgent .pop := fun _ => ⟨rfl, rfl⟩

theorem hasInbox_change {f : Inbox → Inbox} (hf : KeepsAgent f) {j : ℕ} {jb : Inbox} :
    HasInbox (m.change i f) agentId j jb ↔
      ∃ ib, HasInbox m agentId j ib ∧ jb = if i = j then f ib else ib := by
  rw [HasInbox, getElem?_change]
  have hsame : ∀ ib, (if i = j then f ib else ib).registered = ib.registered ∧
      (if i = j then f ib else ib).agentId = ib.agentId := by
    intro ib
    split_ifs
    · exact hf ib
    · exact ⟨rfl, rfl⟩
  constructor
  · rintro ⟨hj, hregistered, hagent⟩
    obtain ⟨ib, hib, rfl⟩ := Option.map_eq_some_iff.mp hj
    rw [(hsame ib).1] at hregistered
    rw [(hsame ib).2] at hagent
    exact ⟨ib, ⟨hib, hregistered, hagent⟩, rfl⟩
  · rintro ⟨ib, ⟨hib, hregistered, hagent⟩, rfl⟩
    rw [hib, (hsame ib).1, (hsame ib).2]
    exact ⟨rfl, hregistered, hagent⟩

theorem Mailbox.Distinct.change (hd : m.Distinct) {f : Inbox → Inbox} (hf : KeepsAgent f) (i : ℕ) :
    (m.change i f).Distinct := by
  intro a j k jb kb hj hk
  obtain ⟨jb', hj', -⟩ := (hasInbox_change hf).mp hj
  obtain ⟨kb', hk', -⟩ := (hasInbox_change hf).mp hk
  exact hd a j k jb' kb' hj' hk'

/-- A change of one agent's place leaves the inboxes of the other agents. -/
theorem inboxOf_change_of_ne {f : Inbox → Inbox} (hd : m.Distinct) (hd' : (m.change i f).Distinct)
    (hib : m.inboxes[i]? = some ib) (hbefore : ib.registered = true → ib.agentId = agentId)
    (hafter : (f ib).registered = true → (f ib).agentId = agentId) {a : ℕ} (ha : a ≠ agentId) :
    Agent.inboxOf (m.change i f) a = Agent.inboxOf m a := by
  have hsame : ∀ j jb, HasInbox (m.change i f) a j jb ↔ HasInbox m a j jb := by
    intro j jb
    rw [HasInbox, HasInbox, getElem?_change]
    by_cases hij : i = j
    · subst hij
      simp only [hib, if_true, Option.map_some, Option.some.injEq]
      constructor
      · rintro ⟨rfl, hregistered, hagent⟩
        exact absurd (hagent.symm.trans (hafter hregistered)) ha
      · rintro ⟨rfl, hregistered, hagent⟩
        exact absurd (hagent.symm.trans (hbefore hregistered)) ha
    · simp only [if_neg hij, Option.map_id']
  ext jb
  rw [hd'.inboxOf, hd.inboxOf]
  exact exists_congr fun j => hsame j jb

end Inboxes

/-- Messages stay in order when only one agent's inbox and log change, and its own stay so. -/
theorem InOrder.of_frame {s s' : MailState} (agentId : ℕ) (h : InOrder s)
    (hbox : ∀ a, a ≠ agentId → inboxOf s'.box a = inboxOf s.box a)
    (hlog : ∀ a, a ≠ agentId → s'.log a = s.log a)
    (hown : ∀ ib, inboxOf s'.box agentId = some ib →
      (s'.log agentId).accepted = (s'.log agentId).received ++ ib.contents) : InOrder s' := by
  intro a ib hib
  by_cases ha : a = agentId
  · subst ha
    exact hown ib hib
  · rw [hlog a ha]
    exact h a ib (hbox a ha ▸ hib)

/-! ## Sending -/

section Send

variable {m : Mailbox} {s : MailState}

/-- The message that a send puts into an inbox. -/
def asStored (fromAgent toAgent : ℕ) (type : MsgType) (p : Payload) (correlationId : ℕ)
    (found : Bool) (now : ℕ) : Message :=
  { asSent fromAgent toAgent type p correlationId now with
    payload := p.octets.bind (scStrndup found) }

/-- A stored message is the one that was sent exactly if its payload is intact. -/
theorem asStored_eq_iff {fromAgent toAgent : ℕ} {type : MsgType} {p : Payload}
    {correlationId : ℕ} {found : Bool} {now : ℕ} :
    asSent fromAgent toAgent type p correlationId now =
      asStored fromAgent toAgent type p correlationId found now ↔ Intact p found := by
  have hpayload : asSent fromAgent toAgent type p correlationId now =
      asStored fromAgent toAgent type p correlationId found now ↔
        p.octets = p.octets.bind (scStrndup found) := by
    simp [asStored, asSent]
  rw [hpayload, Intact]
  cases hoctets : p.octets with
  | none => simp
  | some b =>
    rw [Option.bind_some, scStrndup]
    cases found with
    | false => simp
    | true =>
      simp only [if_true, Option.some.injEq, forall_eq', true_and]
      rw [eq_comm]
      exact @CString.octets_ofBytes b

/-- A send is refused and changes nothing, or puts a message into the inbox of the agent. -/
theorem scMailboxSend_cases (hd : m.Distinct) (fromAgent toAgent : ℕ) (type : MsgType)
    (p : Payload) (correlationId : ℕ) (found : Bool) (now : ℕ) :
    (∃ e, scMailboxSend m fromAgent toAgent type p correlationId found now = (.error e, m) ∧
      ∀ i ib, HasInbox m toAgent i ib → inboxFull ib = true) ∨
    ∃ i ib, HasInbox m toAgent i ib ∧ inboxFull ib = false ∧
      scMailboxSend m fromAgent toAgent type p correlationId found now =
        (.ok (), m.change i fun ib =>
          ib.push (asStored fromAgent toAgent type p correlationId found now)) := by
  rw [scMailboxSend]
  cases hfind : findInbox m toAgent with
  | none => exact Or.inl ⟨_, rfl, fun i ib h => absurd h (findInbox_none.mp hfind i ib)⟩
  | some i =>
    obtain ⟨ib, hib⟩ := findInbox_some hfind
    simp only [hib.1]
    cases hfull : inboxFull ib with
    | true =>
      refine Or.inl ⟨_, rfl, fun j jb hj => ?_⟩
      obtain rfl := hd toAgent i j ib jb hib hj
      have hjb := hj.1
      rw [hib.1, Option.some.injEq] at hjb
      rw [← hjb, hfull]
    | false => exact Or.inr ⟨i, ib, hib, hfull, rfl⟩

/-- What a send leaves to the other inboxes: everything. -/
theorem mailSend_frame (hd : s.box.Distinct) (fromAgent toAgent : ℕ) (type : MsgType)
    (p : Payload) (correlationId : ℕ) (found : Bool) (now : ℕ) :
    (mailSend s fromAgent toAgent type p correlationId found now).box.Distinct ∧
    ∀ i ib, HasInbox s.box toAgent i ib → ∀ j, j ≠ i →
      (mailSend s fromAgent toAgent type p correlationId found now).box.inboxes[j]? =
        s.box.inboxes[j]? := by
  rw [mailSend]
  rcases scMailboxSend_cases hd fromAgent toAgent type p correlationId found now with
    ⟨e, hsend, -⟩ | ⟨i, ib, hib, -, hsend⟩
  · rw [hsend]
    exact ⟨hd, fun _ _ _ _ _ => rfl⟩
  · rw [hsend]
    refine ⟨hd.change (keepsAgent_push _) i, fun k kb hk j hj => ?_⟩
    obtain rfl := hd toAgent i k ib kb hib hk
    simp only [getElem?_change, if_neg (Ne.symm hj), Option.map_id']

/-- After a send the messages are in order exactly if they were, and what the send put into an
inbox is intact. -/
theorem inOrder_mailSend (hd : s.box.Distinct) {fromAgent toAgent : ℕ} {type : MsgType}
    {p : Payload} {correlationId : ℕ} {found : Bool} {now : ℕ} :
    InOrder (mailSend s fromAgent toAgent type p correlationId found now) ↔
      InOrder s ∧ ∀ i ib, HasInbox s.box toAgent i ib → inboxFull ib = false →
        Intact p found := by
  rw [mailSend]
  rcases scMailboxSend_cases hd fromAgent toAgent type p correlationId found now with
    ⟨e, hsend, hfull⟩ | ⟨i, ib, hib, hroom, hsend⟩
  · rw [hsend]
    refine ⟨fun h => ⟨h, fun i ib hib hroom => ?_⟩, fun h => h.1⟩
    rw [hfull i ib hib] at hroom
    exact absurd hroom (by simp)
  rw [hsend]
  have hkeeps := keepsAgent_push (asStored fromAgent toAgent type p correlationId found now)
  have hd' := hd.change hkeeps i
  have hpush : (s.log toAgent).accepted ++ [asSent fromAgent toAgent type p correlationId now] =
      (s.log toAgent).received ++
        (ib.push (asStored fromAgent toAgent type p correlationId found now)).contents ↔
      (s.log toAgent).accepted = (s.log toAgent).received ++ ib.contents ∧ Intact p found := by
    rw [contents_push hroom, ← List.append_assoc, ← asStored_eq_iff]
    constructor
    · intro h
      obtain ⟨hbefore, hlast⟩ := List.append_inj' h rfl
      exact ⟨hbefore, (List.cons.inj hlast).1⟩
    · rintro ⟨hbefore, hlast⟩
      rw [hbefore, hlast]
  have hold : ∀ a jb, inboxOf s.box a = some jb → a ≠ toAgent →
      inboxOf (s.box.change i fun ib =>
        ib.push (asStored fromAgent toAgent type p correlationId found now)) a = some jb := by
    intro a jb hjb hne
    obtain ⟨j, hj⟩ := hd.inboxOf.mp hjb
    have hij : i ≠ j := by
      rintro rfl
      have := hj.1
      rw [hib.1, Option.some.injEq] at this
      subst this
      exact hne (hj.2.2.symm.trans hib.2.2)
    exact hd'.inboxOf.mpr ⟨j, (hasInbox_change hkeeps).mpr ⟨jb, hj, by rw [if_neg hij]⟩⟩
  have hto : inboxOf (s.box.change i fun ib =>
      ib.push (asStored fromAgent toAgent type p correlationId found now)) toAgent =
        some (ib.push (asStored fromAgent toAgent type p correlationId found now)) :=
    hd'.inboxOf.mpr ⟨i, (hasInbox_change hkeeps).mpr ⟨ib, hib, by rw [if_pos rfl]⟩⟩
  constructor
  · intro h
    have hlast := h toAgent _ hto
    simp only [Function.update_self] at hlast
    obtain ⟨hbefore, hintact⟩ := hpush.mp hlast
    refine ⟨fun a jb hjb => ?_, fun _ _ _ _ => hintact⟩
    by_cases ha : a = toAgent
    · subst ha
      obtain rfl : ib = jb := by
        have := hd.inboxOf.mpr ⟨i, hib⟩
        rw [hjb, Option.some.injEq] at this
        exact this.symm
      exact hbefore
    · have := h a jb (hold a jb hjb ha)
      simpa only [Function.update_of_ne ha] using this
  · rintro ⟨h, hintact⟩ a jb hjb
    by_cases ha : a = toAgent
    · subst ha
      rw [hto, Option.some.injEq] at hjb
      subst hjb
      simp only [Function.update_self]
      exact hpush.mpr ⟨h a ib (hd.inboxOf.mpr ⟨i, hib⟩), hintact i ib hib hroom⟩
    · obtain ⟨j, hj⟩ := hd'.inboxOf.mp hjb
      obtain ⟨kb, hk, hjk⟩ := (hasInbox_change hkeeps).mp hj
      have hij : i ≠ j := by
        rintro rfl
        have := hk.1
        rw [hib.1, Option.some.injEq] at this
        subst this
        exact ha (hk.2.2.symm.trans hib.2.2)
      rw [if_neg hij] at hjk
      subst hjk
      simp only [Function.update_of_ne ha]
      exact h a jb (hd.inboxOf.mpr ⟨j, hk⟩)

theorem mailSend_box (s : MailState) (fromAgent toAgent : ℕ) (type : MsgType) (p : Payload)
    (correlationId : ℕ) (found : Bool) (now : ℕ) :
    (mailSend s fromAgent toAgent type p correlationId found now).box =
      (scMailboxSend s.box fromAgent toAgent type p correlationId found now).2 := by
  rw [mailSend]
  rcases scMailboxSend s.box fromAgent toAgent type p correlationId found now with ⟨_ | _, _⟩ <;>
    rfl

/-- The loop with a log works on the mailbox as the loop does. -/
theorem mailBroadcast_box (fromAgent : ℕ) (type : MsgType) (p : Payload) (found : ℕ → Bool)
    (now : ℕ → ℕ) (is : List ℕ) (s : MailState) :
    (mailBroadcast fromAgent type p found now is s).box =
      broadcastLoop fromAgent type p found now is s.box := by
  induction is generalizing s with
  | nil => rfl
  | cons i is ih =>
    rw [mailBroadcast, broadcastLoop]
    cases s.box.inboxes[i]? with
    | none => exact ih s
    | some ib =>
      simp only
      split_ifs
      · exact ih s
      · rw [ih, mailSend_box]

/-- The inboxes at some places that a broadcast puts its message into are given it intact. -/
def KeptAt (m : Mailbox) (fromAgent : ℕ) (p : Payload) (found : ℕ → Bool) (is : List ℕ) : Prop :=
  ∀ i ∈ is, ∀ ib, m.inboxes[i]? = some ib → ib.registered = true → ib.agentId ≠ fromAgent →
    inboxFull ib = false → Intact p (found i)

theorem keptAt_cons {fromAgent : ℕ} {p : Payload} {found : ℕ → Bool} {i : ℕ} {is : List ℕ} :
    KeptAt m fromAgent p found (i :: is) ↔
      (∀ ib, m.inboxes[i]? = some ib → ib.registered = true → ib.agentId ≠ fromAgent →
        inboxFull ib = false → Intact p (found i)) ∧ KeptAt m fromAgent p found is :=
  List.forall_mem_cons

/-- The loop of a broadcast keeps the order exactly if each of its messages is intact. -/
theorem inOrder_mailBroadcast (fromAgent : ℕ) (type : MsgType) (p : Payload) (found : ℕ → Bool)
    (now : ℕ → ℕ) {is : List ℕ} (his : is.Nodup) (hd : s.box.Distinct) :
    (mailBroadcast fromAgent type p found now is s).box.Distinct ∧
    (InOrder (mailBroadcast fromAgent type p found now is s) ↔
      InOrder s ∧ KeptAt s.box fromAgent p found is) := by
  induction is generalizing s with
  | nil => exact ⟨hd, fun h => ⟨h, by simp [KeptAt]⟩, fun h => h.1⟩
  | cons i is ih =>
    obtain ⟨hi, his⟩ := List.nodup_cons.mp his
    rw [mailBroadcast, keptAt_cons]
    cases hib : s.box.inboxes[i]? with
    | none =>
      simp only [reduceCtorEq, false_imp_iff, implies_true, true_and]
      exact ih his hd
    | some ib =>
      simp only [Option.some.injEq, forall_eq']
      split_ifs with hskip
      · have hnone : ib.registered = true → ib.agentId ≠ fromAgent → inboxFull ib = false →
            Intact p (found i) := by
          intro hregistered hagent
          rcases hskip with h | h
          · exact absurd hregistered h
          · exact absurd h hagent
        rw [and_iff_right hnone]
        exact ih his hd
      · push Not at hskip
        obtain ⟨hregistered, hagent⟩ := hskip
        have hhas : HasInbox s.box ib.agentId i ib := ⟨hib, hregistered, rfl⟩
        obtain ⟨hd', hframe⟩ :=
          mailSend_frame hd fromAgent ib.agentId type p 0 (found i) (now i)
        refine ⟨(ih his hd').1, ?_⟩
        rw [(ih his hd').2, inOrder_mailSend hd, and_assoc]
        refine and_congr_right fun _ => and_congr ?_ ?_
        · constructor
          · intro h _ _ hroom
            exact h i ib hhas hroom
          · intro h j jb hj hroom
            obtain rfl := hd ib.agentId i j ib jb hhas hj
            obtain rfl : ib = jb := by
              have := hj.1
              rwa [hib, Option.some.injEq] at this
            exact h hregistered hagent hroom
        · refine forall₂_congr fun j hj => ?_
          have hji : j ≠ i := by
            rintro rfl
            exact hi hj
          rw [hframe i ib hhas j hji]

end Send

/-! ## The other calls -/

section Steps

variable {s : MailState}

/-- An agent that registers anew gets an empty inbox at a place that was free. -/
theorem scMailboxRegister_cases (m : Mailbox) (agentId : ℕ) :
    (∃ i ib, m.inboxes[i]? = some ib ∧ ib.registered = false ∧ findInbox m agentId = none ∧
      scMailboxRegister m agentId =
        (.ok (), m.change i fun _ => { Inbox.zero with agentId, registered := true })) ∨
    ∃ r, scMailboxRegister m agentId = (r, m) ∧
      (findInbox m agentId = none → r = .error .outOfMemory) := by
  rw [scMailboxRegister]
  cases hfind : findInbox m agentId with
  | some i => exact Or.inr ⟨_, rfl, by simp⟩
  | none =>
    cases hfree : m.inboxes.findIdx? fun ib => ¬ ib.registered with
    | none => exact Or.inr ⟨_, rfl, by simp⟩
    | some i =>
      obtain ⟨hi, hib, -⟩ := List.findIdx?_eq_some_iff_getElem.mp hfree
      refine Or.inl ⟨i, _, List.getElem?_eq_getElem hi, ?_, rfl, rfl⟩
      simpa using hib

theorem mailStep_register (hd : s.box.Distinct) (agentId : ℕ) : ∃ s',
    mailStep s (.register agentId) = some s' ∧ s'.box.Distinct ∧ (InOrder s → InOrder s') := by
  rw [mailStep]
  rcases scMailboxRegister_cases s.box agentId with
    ⟨i, ib, hib, hfree, hnone, hregister⟩ | ⟨r, hregister, hr⟩
  · simp only [hregister, hnone]
    have hd' : (s.box.change i fun _ =>
        { Inbox.zero with agentId, registered := true }).Distinct := by
      have hnew : ∀ a j jb, HasInbox (s.box.change i fun _ =>
          { Inbox.zero with agentId, registered := true }) a j jb →
          (j = i ∧ a = agentId) ∨ (j ≠ i ∧ HasInbox s.box a j jb) := by
        rintro a j jb ⟨hj, hregistered, hagent⟩
        rw [getElem?_change] at hj
        by_cases hij : i = j
        · subst hij
          simp only [hib, if_true, Option.map_some, Option.some.injEq] at hj
          subst hj
          exact Or.inl ⟨rfl, hagent.symm⟩
        · simp only [if_neg hij, Option.map_id'] at hj
          exact Or.inr ⟨Ne.symm hij, hj, hregistered, hagent⟩
      intro a j k jb kb hj hk
      rcases hnew a j jb hj with ⟨rfl, rfl⟩ | ⟨-, hj'⟩
      · rcases hnew _ k kb hk with ⟨rfl, -⟩ | ⟨-, hk'⟩
        · rfl
        · exact absurd hk' (findInbox_none.mp hnone k kb)
      · rcases hnew a k kb hk with ⟨rfl, rfl⟩ | ⟨-, hk'⟩
        · exact absurd hj' (findInbox_none.mp hnone j jb)
        · exact hd a j k jb kb hj' hk'
    refine ⟨_, rfl, hd', fun h => h.of_frame agentId (fun a ha => ?_)
      (fun a ha => ?_) fun jb hjb => ?_⟩
    · exact inboxOf_change_of_ne hd hd' hib (by simp [hfree]) (fun _ => rfl) ha
    · simp only [Function.update_of_ne ha]
    · have hown : HasInbox (s.box.change i fun _ =>
          { Inbox.zero with agentId, registered := true }) agentId i
          { Inbox.zero with agentId, registered := true } := by
        refine ⟨?_, rfl, rfl⟩
        simp only [getElem?_change, hib, if_true, Option.map_some]
      rw [hd'.inboxOf.mpr ⟨i, hown⟩, Option.some.injEq] at hjb
      subst hjb
      simp only [Function.update_self, List.nil_append]
      exact (contents_zero _ rfl).symm
  · refine ⟨s, ?_, hd, id⟩
    rw [hregister]
    cases hfind : findInbox s.box agentId with
    | none => rw [hr hfind]
    | some i => rfl

theorem mailStep_unregister (hd : s.box.Distinct) (agentId : ℕ) : ∃ s',
    mailStep s (.unregister agentId) = some s' ∧ s'.box.Distinct ∧ (InOrder s → InOrder s') := by
  rw [mailStep, scMailboxUnregister]
  cases hfind : findInbox s.box agentId with
  | none => exact ⟨s, rfl, hd, id⟩
  | some i =>
    obtain ⟨ib, hib⟩ := findInbox_some hfind
    have hold : ∀ a j jb, HasInbox (s.box.change i .release) a j jb → HasInbox s.box a j jb := by
      rintro a j jb ⟨hj, hregistered, hagent⟩
      rw [getElem?_change] at hj
      by_cases hij : i = j
      · subst hij
        simp only [hib.1, if_true, Option.map_some, Option.some.injEq] at hj
        rw [← hj] at hregistered
        cases hregistered
      · simp only [if_neg hij, Option.map_id'] at hj
        exact ⟨hj, hregistered, hagent⟩
    have hd' : (s.box.change i .release).Distinct := fun a j k jb kb hj hk =>
      hd a j k jb kb (hold a j jb hj) (hold a k kb hk)
    refine ⟨_, rfl, hd', fun h => h.of_frame agentId (fun a ha => ?_)
      (fun _ _ => rfl) fun jb hjb => ?_⟩
    · exact inboxOf_change_of_ne hd hd' hib.1 (fun _ => hib.2.2) (fun hr => by cases hr) ha
    · obtain ⟨j, hj⟩ := hd'.inboxOf.mp hjb
      exact h agentId jb (hd.inboxOf.mpr ⟨j, hold agentId j jb hj⟩)

/-- A registered agent receives the first message that waits for it. -/
theorem scMailboxRecv_of_inbox {m : Mailbox} {agentId : ℕ} {ib : Inbox}
    (h : inboxOf m agentId = some ib) : ∃ i, HasInbox m agentId i ib ∧
      scMailboxRecv m agentId = if ib.head = ib.tail then (.error .notFound, m)
        else (.ok (ib.msgs ib.head), m.change i .pop) := by
  obtain ⟨i, hfind, hib⟩ := Option.bind_eq_some_iff.mp h
  obtain ⟨jb, hj⟩ := findInbox_some hfind
  obtain rfl : ib = jb := by
    have := hj.1
    rwa [hib, Option.some.injEq] at this
  refine ⟨i, hj, ?_⟩
  simp only [scMailboxRecv, hfind, hib]

theorem scMailboxRecv_of_none {m : Mailbox} {agentId : ℕ} (h : inboxOf m agentId = none) :
    scMailboxRecv m agentId = (.error .notFound, m) := by
  rw [scMailboxRecv]
  cases hfind : findInbox m agentId with
  | none => rfl
  | some i =>
    obtain ⟨ib, hib⟩ := findInbox_some hfind
    rw [inboxOf, hfind, Option.bind_some, hib.1] at h
    cases h

theorem mailStep_recv (hd : s.box.Distinct) (agentId : ℕ) : ∃ s',
    mailStep s (.recv agentId) = some s' ∧ s'.box.Distinct ∧ (InOrder s → InOrder s') := by
  rw [mailStep]
  cases hinbox : inboxOf s.box agentId with
  | none =>
    rw [scMailboxRecv_of_none hinbox]
    exact ⟨s, rfl, hd, id⟩
  | some ib =>
    obtain ⟨i, hown, hrecv⟩ := scMailboxRecv_of_inbox hinbox
    rw [hrecv]
    split_ifs with hempty
    · exact ⟨s, rfl, hd, id⟩
    · have hd' := hd.change keepsAgent_pop i
      refine ⟨_, rfl, hd', fun h => h.of_frame agentId (fun a ha => ?_)
        (fun a ha => ?_) fun jb hjb => ?_⟩
      · exact inboxOf_change_of_ne hd hd' hown.1 (fun _ => hown.2.2) (fun _ => hown.2.2) ha
      · simp only [Function.update_of_ne ha]
      · have hpop := hd'.inboxOf.mpr ⟨i, (hasInbox_change keepsAgent_pop).mpr ⟨ib, hown, rfl⟩⟩
        rw [if_pos rfl, hjb, Option.some.injEq] at hpop
        subst hpop
        have hbefore := h agentId ib hinbox
        rw [contents_pop hempty] at hbefore
        simp only [Function.update_self, List.append_assoc, List.singleton_append]
        exact hbefore

theorem mailStep_send (hd : s.box.Distinct) (fromAgent toAgent : ℕ) (type : MsgType)
    (p : Payload) (correlationId : ℕ) (found : Bool) (now : ℕ) :
    ∃ s', mailStep s (.send fromAgent toAgent type p correlationId found now) = some s' ∧
      s'.box.Distinct ∧ (InOrder s' ↔ InOrder s ∧
        Kept s (.send fromAgent toAgent type p correlationId found now)) := by
  refine ⟨_, rfl, (mailSend_frame hd fromAgent toAgent type p correlationId found now).1, ?_⟩
  rw [inOrder_mailSend hd, Kept]
  refine and_congr_right fun _ => ⟨fun h ib hib => ?_, fun h i ib hib => ?_⟩
  · obtain ⟨i, hi⟩ := hd.inboxOf.mp hib
    exact h i ib hi
  · exact h ib (hd.inboxOf.mpr ⟨i, hib⟩)

theorem mailStep_broadcast (hd : s.box.Distinct) (fromAgent : ℕ) (type : MsgType) (p : Payload)
    (found : ℕ → Bool) (now : ℕ → ℕ) :
    ∃ s', mailStep s (.broadcast fromAgent type p found now) = some s' ∧ s'.box.Distinct ∧
      (InOrder s' ↔ InOrder s ∧ Kept s (.broadcast fromAgent type p found now)) := by
  have hloop := inOrder_mailBroadcast fromAgent type p found now
    (List.nodup_range (n := s.box.inboxes.length)) hd
  rw [mailStep, scMailboxBroadcast, ← mailBroadcast_box]
  refine ⟨_, rfl, hloop.1, hloop.2.trans (and_congr_right fun _ => ?_)⟩
  constructor
  · intro h i ib hib
    exact h i (List.mem_range.mpr (List.getElem?_eq_some_iff.mp hib).1) ib hib
  · intro h i _ ib hib
    exact h i ib hib

/-- One call keeps the order exactly if each message it puts into an inbox is intact. -/
theorem mailStep_spec (hd : s.box.Distinct) (op : MailOp) : ∃ s', mailStep s op = some s' ∧
    s'.box.Distinct ∧ (InOrder s → (InOrder s' ↔ Kept s op)) := by
  cases op with
  | register agentId =>
    obtain ⟨s', hs', hd', h'⟩ := mailStep_register hd agentId
    exact ⟨s', hs', hd', fun h => iff_of_true (h' h) trivial⟩
  | unregister agentId =>
    obtain ⟨s', hs', hd', h'⟩ := mailStep_unregister hd agentId
    exact ⟨s', hs', hd', fun h => iff_of_true (h' h) trivial⟩
  | send fromAgent toAgent type p correlationId found now =>
    obtain ⟨s', hs', hd', h'⟩ := mailStep_send hd fromAgent toAgent type p correlationId found now
    exact ⟨s', hs', hd', fun h => h'.trans (and_iff_right h)⟩
  | broadcast fromAgent type p found now =>
    obtain ⟨s', hs', hd', h'⟩ := mailStep_broadcast hd fromAgent type p found now
    exact ⟨s', hs', hd', fun h => h'.trans (and_iff_right h)⟩
  | recv agentId =>
    obtain ⟨s', hs', hd', h'⟩ := mailStep_recv hd agentId
    exact ⟨s', hs', hd', fun h => iff_of_true (h' h) trivial⟩

end Steps

/-! ## Runs -/

/-- Whatever is in the inboxes, the head is received next, and only a full inbox refuses. -/
theorem delivered_iff {s : MailState} (hd : s.box.Distinct) : Delivered s ↔ InOrder s := by
  refine ⟨Delivered.inOrder, fun h => ⟨h, ?_, ?_⟩⟩
  · intro agentId ib hib
    obtain ⟨i, -, hrecv⟩ := scMailboxRecv_of_inbox hib
    rw [hrecv]
    split_ifs with hempty
    · rw [contents_zero ib hempty]
    · rw [contents_pop hempty]
  · intro fromAgent toAgent type p correlationId found now ib hib hrefused
    obtain ⟨i, hi⟩ := hd.inboxOf.mp hib
    rcases scMailboxSend_cases hd fromAgent toAgent type p correlationId found now with
      ⟨e, -, hfull⟩ | ⟨j, jb, -, -, hsend⟩
    · exact (inboxFull_iff ib).mp (hfull i ib hi)
    · rw [hsend] at hrefused
      exact absurd rfl hrefused

/-- A mailbox as it was created, with nothing sent or received. -/
def freshMail (m : Mailbox) : MailState := ⟨m, fun _ => ⟨[], []⟩⟩

theorem inboxOf_create {maxAgents : ℕ} {m : Mailbox} (h : scMailboxCreate maxAgents = some m)
    (agentId i : ℕ) (ib : Inbox) : ¬ HasInbox m agentId i ib := by
  rw [scMailboxCreate] at h
  split_ifs at h
  obtain rfl := Option.some.inj h
  rintro ⟨hi, hregistered, -⟩
  obtain rfl : ib = .zero := List.eq_of_mem_replicate (List.mem_of_getElem? hi)
  cases hregistered

/-- Whatever the agents call, in whatever order: messages are delivered throughout exactly if
the payload of each message that is put into an inbox is copied intact. -/
theorem mailbox_delivers_iff (maxAgents : ℕ) (m : Mailbox) (h : scMailboxCreate maxAgents = some m)
    (ops : List MailOp) : Machine.Throughout mailStep Delivered (freshMail m) ops ↔
      Machine.EveryStep mailStep Kept (freshMail m) ops := by
  have hd : (freshMail m).box.Distinct := fun a i _ ib _ hi _ =>
    absurd hi (inboxOf_create h a i ib)
  refine Machine.throughout_iff_everyStep (I := fun s => s.box.Distinct) ?_ ?_ hd ?_ ops
  · intro s op hd
    obtain ⟨s', hs', hd', -⟩ := mailStep_spec hd op
    exact ⟨s', hs', hd'⟩
  · intro s op s' hd hs hs'
    obtain ⟨t, ht, hd', hiff⟩ := mailStep_spec hd op
    obtain rfl : t = s' := Option.some.inj (ht.symm.trans hs')
    rw [delivered_iff hd', hiff hs.inOrder]
  · rw [delivered_iff hd]
    intro agentId ib hib
    obtain ⟨i, hi⟩ := hd.inboxOf.mp hib
    exact absurd hi (inboxOf_create h agentId i ib)

/-- The octets of a sender, with their number as length. -/
def Payload.ofBytes (b : Bytes) : Payload := ⟨some b, b.length, by
  intro s hs
  rw [Option.some.inj hs]⟩

/-- An agent that registers, is sent two octets and receives them. -/
def twoOctets : List MailOp :=
  [.register 1, .send 2 1 .task (.ofBytes [0x61, 0x62]) 7 true 0, .recv 1]

theorem mailbox_delivers_two :
    scMailboxCreate 1 = some ⟨[.zero]⟩ ∧
      Machine.Throughout mailStep Delivered (freshMail ⟨[.zero]⟩) twoOctets := by
  refine ⟨rfl, (mailbox_delivers_iff 1 ⟨[.zero]⟩ rfl twoOctets).mpr ?_⟩
  refine ⟨trivial, fun s' _ => ⟨?_, fun s'' _ => ⟨trivial, fun _ _ => trivial⟩⟩⟩
  intro ib _ _ s hs
  obtain rfl := Option.some.inj hs
  exact ⟨rfl, by decide⟩

/-- Of three octets with a NUL among them, the agent is sent the first, with a length of three. -/
def octetsWithNul : List MailOp :=
  [.register 1, .send 2 1 .task (.ofBytes [0x61, 0, 0x62]) 7 true 0]

theorem mailbox_cuts_payload :
    scMailboxCreate 1 = some ⟨[.zero]⟩ ∧
      ¬ Machine.Throughout mailStep Delivered (freshMail ⟨[.zero]⟩) octetsWithNul := by
  refine ⟨rfl, fun h => ?_⟩
  obtain ⟨-, s₁, h₁, -, s₂, h₂, h₃⟩ := h
  obtain rfl := Option.some.inj h₁
  obtain rfl := Option.some.inj h₂
  have hinOrder := h₃.inOrder 1 _ rfl
  revert hinOrder
  decide

end SeaClaw.Agent
