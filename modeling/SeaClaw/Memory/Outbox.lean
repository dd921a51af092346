import SeaClaw.Core.Error
import SeaClaw.Lib.CString
import SeaClaw.Lib.Machine
import SeaClaw.Memory.Entry

/-!
# The embedding outbox

Texts wait for their embeddings. A flush asks the provider for each of them, hands what it gets
to a callback, and clears the queue whatever the provider answered. What was accepted, and what
was delivered, is kept beside the queue.
-/

namespace SeaClaw.Memory

open SeaClaw.Lib

/-- `outbox_item_t` -/
structure OutboxItem where
  id : Option Bytes
  idLen : ℕ
  text : Option Bytes
  textLen : ℕ

/-- `struct sc_embedding_outbox` -/
structure Outbox where
  items : List OutboxItem
  capacity : ℕ
  count_le : items.length ≤ capacity

/-- `sc_embedding_outbox_create` -/
def scEmbeddingOutboxCreate : Outbox := ⟨[], 0, le_rfl⟩

/-- The arguments of an enqueue, with what of it finds memory. No identifier is an empty one. -/
structure EnqueueCall where
  id : Bytes
  text : Bytes
  growFound : Bool
  idFound : Bool
  textFound : Bool

/-- The copy of a text that is stored: none of an empty text, or without memory. -/
def outboxCopy (found : Bool) (s : Bytes) : Option Bytes :=
  if s ≠ [] ∧ found then some (scStrndup (.ofBytes s)).octets else none

/-- The item of a call. -/
def EnqueueCall.item (c : EnqueueCall) : OutboxItem :=
  ⟨outboxCopy c.idFound c.id, c.id.length, outboxCopy c.textFound c.text, c.text.length⟩

/-- The capacity after an item has been given room. -/
def grownCapacity (count capacity : ℕ) : ℕ :=
  if count < capacity then capacity else if capacity = 0 then 8 else capacity * 2

theorem length_concat_le_grown {items : List OutboxItem} {capacity : ℕ}
    (h : items.length ≤ capacity) (it : OutboxItem) :
    (items ++ [it]).length ≤ grownCapacity items.length capacity := by
  rw [grownCapacity, List.length_append, List.length_singleton]
  split_ifs <;> omega

/-- `sc_embedding_outbox_enqueue`. The copies may find no memory and the item is queued still. -/
def scEmbeddingOutboxEnqueue (ob : Outbox) (c : EnqueueCall) : Except ScError Unit × Outbox :=
  if ob.items.length < ob.capacity ∨ c.growFound then
    (.ok (), {
      items := ob.items ++ [c.item]
      capacity := grownCapacity ob.items.length ob.capacity
      count_le := length_concat_le_grown ob.count_le c.item })
  else (.error .outOfMemory, ob)

/-- What the provider answers to a text. -/
inductive EmbedAnswer where
  | failed (e : ScError)
  | noValues
  | values

/-- What a callback is given, with the text that was embedded. -/
structure Delivery (V : Type*) where
  id : Bytes
  text : Bytes
  values : V

section Flush

variable {V : Type*} (embedding : Bytes → V)

/-- So many octets read from a copy and its terminator, or from an empty literal; none when the
reading goes beyond. -/
def readCopy (s : Option Bytes) (len : ℕ) : Option Bytes :=
  let block := s.getD [] ++ [0]
  if len ≤ block.length then some (block.take len) else none

/-- One item of a flush. -/
def deliver (callback : Bool) (answer : EmbedAnswer) (it : OutboxItem) :
    Option (List (Delivery V)) :=
  (readCopy it.text it.textLen).bind fun text =>
    match answer with
    | .values =>
      if callback then
        (readCopy it.id it.idLen).map fun id => [⟨id, text, embedding text⟩]
      else some []
    | _ => some []

/-- The items of a flush, with the answers from some position on. -/
def deliverAll (callback : Bool) (answers : ℕ → EmbedAnswer) :
    ℕ → List OutboxItem → Option (List (Delivery V))
  | _, [] => some []
  | i, it :: items =>
    (deliver embedding callback (answers i) it).bind fun ds =>
      (deliverAll callback answers (i + 1) items).map (ds ++ ·)

/-- `sc_embedding_outbox_flush` -/
def scEmbeddingOutboxFlush (ob : Outbox) (callback : Bool) (answers : ℕ → EmbedAnswer) :
    Option (Outbox × List (Delivery V)) :=
  (deliverAll embedding callback answers 0 ob.items).map fun ds =>
    (⟨[], ob.capacity, Nat.zero_le _⟩, ds)

end Flush

/-- `sc_embedding_outbox_pending_count` -/
def scEmbeddingOutboxPendingCount (ob : Outbox) : ℕ := ob.items.length

/-! ## Runs -/

/-- The outbox, the calls whose enqueue succeeded, and what the callbacks were given. -/
structure OutboxRun (V : Type*) where
  ob : Outbox
  accepted : List EnqueueCall
  delivered : List (Delivery V)

/-- An enqueue, or a flush with or without a callback and what the provider answers in it. -/
inductive OutboxOp where
  | enqueue (c : EnqueueCall)
  | flush (callback : Bool) (answers : ℕ → EmbedAnswer)

variable {V : Type*} (embedding : Bytes → V)

/-- One call. -/
def outboxStep (s : OutboxRun V) : OutboxOp → Option (OutboxRun V)
  | .enqueue c =>
    match scEmbeddingOutboxEnqueue s.ob c with
    | (.ok _, ob) => some { s with ob, accepted := s.accepted ++ [c] }
    | (.error _, ob) => some { s with ob }
  | .flush callback answers =>
    (scEmbeddingOutboxFlush embedding s.ob callback answers).map fun r =>
      { s with ob := r.1, delivered := s.delivered ++ r.2 }

/-- The delivery of a call: its identifier and the embedding of its whole text. -/
def EnqueueCall.delivery (c : EnqueueCall) : Delivery V := ⟨c.id, c.text, embedding c.text⟩

/-- What was accepted has been delivered, once and as it is, or is pending. -/
def NothingLost (s : OutboxRun V) : Prop :=
  ∃ done pending, s.accepted = done ++ pending ∧
    s.delivered = done.map (·.delivery embedding) ∧
    scEmbeddingOutboxPendingCount s.ob = pending.length

/-- A text is stored so that it can be read again: memory was found for it, and a NUL can only
be its last octet. -/
def Whole (found : Bool) (s : Bytes) : Prop :=
  s = [] ∨ s = [0] ∨ (found = true ∧ 0 ∉ s.dropLast)

/-- The calls that are pending. -/
def OutboxRun.pending (s : OutboxRun V) : List EnqueueCall :=
  s.accepted.drop (s.accepted.length - scEmbeddingOutboxPendingCount s.ob)

/-- A flush of something has a callback, every text and identifier that waits is stored whole,
and the provider has values for each. -/
def OutboxRun.Flushes (s : OutboxRun V) : OutboxOp → Prop
  | .enqueue _ => True
  | .flush callback answers =>
    ∀ i c, s.pending[i]? = some c → callback = true ∧ answers i = .values ∧
      Whole c.idFound c.id ∧ Whole c.textFound c.text

/-!
# What the outbox loses

A flush delivers each waiting item exactly if all of them get values and are stored whole. The
queue is cleared in any case, so an item without values is neither pending nor delivered.
-/

/-! ## Reading a copy -/

theorem outboxCopy_found {s : Bytes} (hs : s ≠ []) :
    outboxCopy true s = some (s.takeWhile (· ≠ 0)) := by
  rw [outboxCopy, if_pos ⟨hs, rfl⟩, scStrndup, Text.ofBytes, List.take_length]

/-- A stored text is read as it was exactly if it is stored whole. -/
theorem readCopy_eq_some_iff (found : Bool) (s : Bytes) :
    readCopy (outboxCopy found s) s.length = some s ↔ Whole found s := by
  by_cases hs : s = []
  · subst hs
    exact iff_of_true rfl (Or.inl rfl)
  cases found with
  | false =>
    have hnone : outboxCopy false s = none := if_neg fun h => absurd h.2 nofun
    rw [hnone, readCopy, Whole]
    match s, hs with
    | [b], _ => simp [eq_comm]
    | a :: b :: s, _ => simp
  | true =>
    rw [outboxCopy_found hs, readCopy, Whole, Option.getD_some]
    by_cases hzero : 0 ∈ s
    · obtain ⟨t, r, rfl, ht⟩ := List.eq_append_cons_of_mem hzero
      have hcut : (t ++ 0 :: r).takeWhile (· ≠ 0) = t := by
        have hpos : ∀ b ∈ t, decide (b ≠ 0) = true := fun b hb =>
          decide_eq_true fun h => ht (h ▸ hb)
        rw [List.takeWhile_append_of_pos hpos]
        simp
      rw [hcut]
      cases r with
      | nil => simp [ht]
      | cons b r =>
        have hlong : t ++ 0 :: b :: r ≠ [0] := fun h => by
          have := congrArg List.length h
          rw [List.length_append, List.length_cons, List.length_cons, List.length_singleton] at this
          omega
        simp [hlong]
    · have hcut : s.takeWhile (· ≠ 0) = s := CString.octets_ofBytes.mpr hzero
      have hlast : 0 ∉ s.dropLast := fun h => hzero (List.dropLast_subset _ h)
      rw [hcut]
      simp [hlast]

/-! ## A flush -/

section Flush

variable {V : Type*} (embedding : Bytes → V)

/-- What one item of a flush gives is its delivery exactly under the condition on the item. -/
theorem deliver_eq_iff (callback : Bool) (answer : EmbedAnswer) (c : EnqueueCall) :
    deliver embedding callback answer c.item = some [c.delivery embedding] ↔
      callback = true ∧ answer = .values ∧ Whole c.idFound c.id ∧ Whole c.textFound c.text := by
  rw [← readCopy_eq_some_iff, ← readCopy_eq_some_iff, deliver, EnqueueCall.item]
  dsimp only
  cases htext : readCopy (outboxCopy c.textFound c.text) c.text.length with
  | none => simp
  | some text =>
    cases answer with
    | values =>
      cases callback with
      | false => simp
      | true =>
        cases hid : readCopy (outboxCopy c.idFound c.id) c.id.length with
        | none => simp
        | some id =>
          simp only [Option.bind_some, if_true, Option.map_some, Option.some.injEq, List.cons.injEq,
            and_true, true_and, EnqueueCall.delivery, Delivery.mk.injEq]
          refine and_congr_right fun _ => ⟨And.left, fun h => ⟨h, by rw [h]⟩⟩
    | failed e => simp
    | noValues => simp

theorem length_deliver {callback : Bool} {answer : EmbedAnswer} {it : OutboxItem}
    {ds : List (Delivery V)} (h : deliver embedding callback answer it = some ds) :
    ds.length ≤ 1 := by
  rw [deliver, Option.bind_eq_some_iff] at h
  obtain ⟨text, -, h⟩ := h
  split at h
  · split_ifs at h
    · obtain ⟨id, -, rfl⟩ := Option.map_eq_some_iff.mp h
      exact le_rfl
    · obtain rfl := Option.some.inj h
      exact Nat.zero_le _
  · obtain rfl := Option.some.inj h
    exact Nat.zero_le _

theorem length_deliverAll {callback : Bool} {answers : ℕ → EmbedAnswer} {i : ℕ}
    {items : List OutboxItem} {ds : List (Delivery V)}
    (h : deliverAll embedding callback answers i items = some ds) : ds.length ≤ items.length := by
  induction items generalizing i ds with
  | nil =>
    obtain rfl := Option.some.inj h
    exact le_rfl
  | cons it items ih =>
    rw [deliverAll, Option.bind_eq_some_iff] at h
    obtain ⟨d, hd, h⟩ := h
    obtain ⟨rest, hrest, rfl⟩ := Option.map_eq_some_iff.mp h
    have hfirst := length_deliver embedding hd
    have hlater := ih hrest
    rw [List.length_append, List.length_cons]
    omega

/-- A flush gives the deliveries of all items exactly if each item gives its own. -/
theorem deliverAll_eq_iff (callback : Bool) (answers : ℕ → EmbedAnswer) (i : ℕ)
    (cs : List EnqueueCall) :
    deliverAll embedding callback answers i (cs.map EnqueueCall.item) =
        some (cs.map (·.delivery embedding)) ↔
      ∀ j c, cs[j]? = some c → callback = true ∧ answers (i + j) = .values ∧
        Whole c.idFound c.id ∧ Whole c.textFound c.text := by
  induction cs generalizing i with
  | nil => simp [deliverAll]
  | cons c cs ih =>
    have hsplit : (∀ j d, (c :: cs)[j]? = some d → callback = true ∧ answers (i + j) = .values ∧
        Whole d.idFound d.id ∧ Whole d.textFound d.text) ↔
        (callback = true ∧ answers i = .values ∧ Whole c.idFound c.id ∧ Whole c.textFound c.text) ∧
        ∀ j d, cs[j]? = some d → callback = true ∧ answers (i + 1 + j) = .values ∧
          Whole d.idFound d.id ∧ Whole d.textFound d.text := by
      constructor
      · intro h
        refine ⟨h 0 c rfl, fun j d hd => ?_⟩
        rw [Nat.add_assoc, Nat.add_comm 1]
        exact h (j + 1) d hd
      · rintro ⟨hfirst, hlater⟩ j d hd
        cases j with
        | zero =>
          obtain rfl := Option.some.inj hd
          exact hfirst
        | succ j =>
          rw [← Nat.add_assoc, Nat.add_right_comm]
          exact hlater j d hd
    rw [hsplit, ← deliver_eq_iff embedding, ← ih (i + 1), List.map_cons, List.map_cons, deliverAll]
    constructor
    · intro h
      obtain ⟨d, hd, h⟩ := Option.bind_eq_some_iff.mp h
      obtain ⟨rest, hrest, h⟩ := Option.map_eq_some_iff.mp h
      have hlen := length_deliverAll embedding hrest
      rw [List.length_map] at hlen
      have hall := congrArg List.length h
      rw [List.length_append, List.length_cons, List.length_map] at hall
      have hone := length_deliver embedding hd
      obtain ⟨x, rfl⟩ := List.length_eq_one_iff.mp (show d.length = 1 by omega)
      obtain ⟨rfl, rfl⟩ := List.cons_eq_cons.mp h
      exact ⟨hd, hrest⟩
    · rintro ⟨hd, hrest⟩
      rw [hd, Option.bind_some, hrest]
      rfl

end Flush

/-! ## Runs -/

section Runs

variable {V : Type*} {embedding : Bytes → V} {s : OutboxRun V}

/-- The items that wait are those of the calls behind the delivered ones. -/
def OutboxRun.InOrder (embedding : Bytes → V) (s : OutboxRun V) : Prop :=
  ∃ done pending, s.accepted = done ++ pending ∧ s.delivered = done.map (·.delivery embedding) ∧
    s.ob.items = pending.map EnqueueCall.item

theorem OutboxRun.InOrder.nothingLost (h : s.InOrder embedding) : NothingLost embedding s := by
  obtain ⟨done, pending, haccepted, hdelivered, hitems⟩ := h
  refine ⟨done, pending, haccepted, hdelivered, ?_⟩
  rw [scEmbeddingOutboxPendingCount, hitems, List.length_map]

theorem OutboxRun.pending_eq {done pending : List EnqueueCall}
    (haccepted : s.accepted = done ++ pending) (hitems : s.ob.items = pending.map EnqueueCall.item) :
    s.pending = pending := by
  rw [OutboxRun.pending, scEmbeddingOutboxPendingCount, haccepted, hitems, List.length_append,
    List.length_map, Nat.add_sub_cancel, List.drop_left]

theorem OutboxRun.InOrder.enqueue (h : s.InOrder embedding) (c : EnqueueCall) :
    ∃ s', outboxStep embedding s (.enqueue c) = some s' ∧ s'.InOrder embedding := by
  obtain ⟨done, pending, haccepted, hdelivered, hitems⟩ := h
  rw [outboxStep, scEmbeddingOutboxEnqueue]
  split_ifs with hroom
  · refine ⟨_, rfl, done, pending ++ [c], ?_, hdelivered, ?_⟩
    · rw [haccepted, List.append_assoc]
    · rw [List.map_append, ← hitems]
      rfl
  · exact ⟨_, rfl, done, pending, haccepted, hdelivered, hitems⟩

/-- A flush keeps what waits from being lost exactly under its condition. -/
theorem OutboxRun.InOrder.flush (h : s.InOrder embedding) (callback : Bool)
    (answers : ℕ → EmbedAnswer) :
    (s.Flushes (.flush callback answers) →
      ∃ s', outboxStep embedding s (.flush callback answers) = some s' ∧ s'.InOrder embedding) ∧
    ∀ s', outboxStep embedding s (.flush callback answers) = some s' → NothingLost embedding s' →
      s.Flushes (.flush callback answers) := by
  obtain ⟨done, pending, haccepted, hdelivered, hitems⟩ := h
  have hflushes := deliverAll_eq_iff embedding callback answers 0 pending
  simp only [Nat.zero_add] at hflushes
  rw [OutboxRun.Flushes, OutboxRun.pending_eq haccepted hitems, ← hflushes, outboxStep,
    scEmbeddingOutboxFlush, hitems]
  constructor
  · intro hall
    rw [hall]
    refine ⟨_, rfl, done ++ pending, [], ?_, ?_, rfl⟩
    · rw [List.append_nil]
      exact haccepted
    · rw [List.map_append, ← hdelivered]
  · intro s' hs' hlost
    rw [Option.map_map, Option.map_eq_some_iff] at hs'
    obtain ⟨ds, hds, rfl⟩ := hs'
    obtain ⟨done', pending', haccepted', hdelivered', hcount⟩ := hlost
    obtain rfl := List.length_eq_zero_iff.mp hcount.symm
    rw [hds]
    rw [List.append_nil] at haccepted'
    rw [← haccepted'] at hdelivered'
    dsimp only [Function.comp] at hdelivered'
    rw [haccepted, hdelivered, List.map_append] at hdelivered'
    exact congrArg some (List.append_cancel_left hdelivered')

/-- From its creation on, an outbox loses nothing in any state exactly when every flush of
something has a callback and finds values for each text, which is stored whole. -/
theorem outbox_loses_nothing_iff (ops : List OutboxOp) :
    Machine.Throughout (outboxStep embedding) (NothingLost embedding)
        ⟨scEmbeddingOutboxCreate, [], []⟩ ops ↔
      Machine.EveryStep (outboxStep embedding) OutboxRun.Flushes
        ⟨scEmbeddingOutboxCreate, [], []⟩ ops := by
  refine Machine.throughout_iff_everyStep_of_keeps (I := OutboxRun.InOrder embedding)
    (fun _ h => h.nothingLost) ?_ ?_ ⟨[], [], rfl, rfl, rfl⟩ ops
  · intro s op h hop
    cases op with
    | enqueue c => exact h.enqueue c
    | flush callback answers => exact (h.flush callback answers).1 hop
  · intro s op s' h hstep hop hlost
    cases op with
    | enqueue c => exact hop trivial
    | flush callback answers => exact hop ((h.flush callback answers).2 s' hstep hlost)

/-- A text for which the provider fails is gone after the flush. -/
theorem outbox_loses_failed : ¬ Machine.Throughout (outboxStep List.length)
    (NothingLost List.length) ⟨scEmbeddingOutboxCreate, [], []⟩
    [.enqueue ⟨ascii "id1", ascii "text one", true, true, true⟩,
      .flush true fun _ => .failed .io] := by
  intro h
  obtain ⟨s, hrun, done, pending, haccepted, hdelivered, hcount⟩ := h.run
  obtain rfl := Option.some.inj hrun
  obtain rfl := List.length_eq_zero_iff.mp hcount.symm
  obtain rfl := List.map_eq_nil_iff.mp hdelivered.symm
  exact absurd haccepted nofun

end Runs

end SeaClaw.Memory
