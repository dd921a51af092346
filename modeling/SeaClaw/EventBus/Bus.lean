import Mathlib.Logic.Function.Basic
import SeaClaw.Core.Error
import Mathlib.Data.List.TakeWhile
import SeaClaw.Lib.Machine

/-!
# The event bus

Threads subscribe, unsubscribe and publish, also from inside of callbacks. The table is only
touched under the lock; a publication goes through the copy that it took at its beginning. The
history of the calls and removals, and what each publication did, is kept beside the bus.
-/

namespace SeaClaw.EventBus

/-- `sc_bus_event_type_t` -/
inductive BusEventType where
  | messageReceived | messageSent | messageChunk | toolCall | error | healthChange
  | cronStarted | cronCompleted | eventCount
  deriving DecidableEq

/-- `SC_BUS_MAX_SUBSCRIBERS` -/
def busMaxSubscribers : ℕ := 16

/-- `sc_bus_subscriber_t`; functions and contexts are addresses. -/
structure BusSubscriber where
  fn : ℕ
  userCtx : ℕ
  filter : BusEventType
  deriving DecidableEq

/-- A place in the table, with the number of the call that filled it. -/
structure Subscription where
  serial : ℕ
  sub : BusSubscriber
  deriving DecidableEq

/-- `sc_bus_t`, with the number of subscriptions so far. -/
structure Bus where
  subscribers : List Subscription
  serials : ℕ
  deriving DecidableEq

/-- The comparison of function and context. -/
def Subscription.isFor (fn userCtx : ℕ) (s : Subscription) : Bool :=
  s.sub.fn = fn ∧ s.sub.userCtx = userCtx

/-- The filter lets an event through. -/
def Subscription.takes (type : BusEventType) (s : Subscription) : Bool :=
  s.sub.filter = .eventCount ∨ s.sub.filter = type

/-- `sc_bus_subscribe` -/
def scBusSubscribe (bus : Bus) (fn userCtx : ℕ) (filter : BusEventType) :
    Except ScError Unit × Bus :=
  if busMaxSubscribers ≤ bus.subscribers.length then (.error .alreadyExists, bus)
  else
    (.ok (), ⟨bus.subscribers ++ [⟨bus.serials, ⟨fn, userCtx, filter⟩⟩], bus.serials + 1⟩)

/-- `sc_bus_unsubscribe`: the first place with the function and the context goes. -/
def scBusUnsubscribe (bus : Bus) (fn userCtx : ℕ) : Bus :=
  { bus with subscribers := bus.subscribers.eraseP (Subscription.isFor fn userCtx) }

/-- Where the loop of a publication is: on its way to the next subscriber, in a callback, or
behind one that returned `false`. -/
inductive Phase where
  | scanning
  | calling (s : Subscription)
  | removing (s : Subscription)
  deriving DecidableEq

/-- A call of `sc_bus_publish`: the rest of its snapshot, with those it has called and those that
were in the table since it began. -/
structure Publish where
  type : BusEventType
  rest : List Subscription
  phase : Phase
  called : List Subscription
  throughout : List Subscription
  deriving DecidableEq

/-- A call of a subscriber, and whether the table had its function with its context then. -/
structure BusCall where
  sub : BusSubscriber
  subscribed : Bool
  deriving DecidableEq

/-- A removal for a callback that returned `false`, with the table before and after it. -/
structure Removal where
  own : BusSubscriber
  before : List BusSubscriber
  after : List BusSubscriber
  deriving DecidableEq

/-- The bus, the publications that each thread is in, the innermost first, and the history. -/
structure BusState where
  bus : Bus
  threads : ℕ → List Publish
  calls : List BusCall
  removals : List Removal
  finished : List Publish

/-- The bus after `sc_bus_init`. -/
def BusState.start : BusState := ⟨⟨[], 0⟩, fun _ => [], [], [], []⟩

/-- The subscribers in the table. -/
def Bus.table (bus : Bus) : List BusSubscriber := bus.subscribers.map (·.sub)

/-- The subscriptions that are still in the table. -/
def Publish.remember (bus : Bus) (p : Publish) : Publish :=
  { p with throughout := p.throughout.filter (· ∈ bus.subscribers) }

/-- A new table, and what the publications then know to be there throughout. -/
def BusState.setBus (s : BusState) (bus : Bus) : BusState :=
  { s with bus := bus, threads := fun t => (s.threads t).map (Publish.remember bus) }

/-- The stack of a thread. -/
def BusState.setThread (s : BusState) (t : ℕ) (ps : List Publish) : BusState :=
  { s with threads := Function.update s.threads t ps }

/-- A thread that runs code of its own, or a callback. -/
def Publish.isCalling (p : Publish) : Bool :=
  match p.phase with
  | .calling _ => true
  | _ => false

/-- What may happen next. -/
inductive BusAct where
  | subscribe (fn userCtx : ℕ) (filter : BusEventType)
  | unsubscribe (fn userCtx : ℕ)
  | publish (t : ℕ) (type : BusEventType)
  | advance (t : ℕ)
  | return (t : ℕ) (result : Bool)
  | remove (t : ℕ)

/-- The snapshot of `sc_bus_publish`. -/
def Bus.snapshot (bus : Bus) : List Subscription := bus.subscribers.take busMaxSubscribers

/-- A thread enters `sc_bus_publish`. -/
def BusState.publish (s : BusState) (t : ℕ) (type : BusEventType) : BusState :=
  s.setThread t (⟨type, s.bus.snapshot, .scanning, [], s.bus.subscribers⟩ :: s.threads t)

/-- The innermost publication of a thread goes to its next subscriber, or returns. -/
def BusState.advance (s : BusState) (t : ℕ) (p : Publish) (ps : List Publish) : BusState :=
  match p.rest.dropWhile fun x => !x.takes p.type with
  | [] => { s.setThread t ps with finished := { p with rest := [] } :: s.finished }
  | x :: rest =>
    { s.setThread t ({ p with rest := rest, phase := .calling x, called := p.called ++ [x] } :: ps)
      with calls := ⟨x.sub, s.bus.subscribers.any (Subscription.isFor x.sub.fn x.sub.userCtx)⟩ ::
        s.calls }

/-- The removal after a callback that returned `false`. -/
def BusState.remove (s : BusState) (t : ℕ) (x : Subscription) (p : Publish) (ps : List Publish) :
    BusState :=
  let bus := scBusUnsubscribe s.bus x.sub.fn x.sub.userCtx
  { (s.setThread t ({ p with phase := .scanning } :: ps)).setBus bus with
    removals := ⟨x.sub, s.bus.table, bus.table⟩ :: s.removals }

/-- One step of some thread. A thread that is not where the step starts does nothing. -/
def busStep (s : BusState) : BusAct → BusState
  | .subscribe fn userCtx filter => s.setBus (scBusSubscribe s.bus fn userCtx filter).2
  | .unsubscribe fn userCtx => s.setBus (scBusUnsubscribe s.bus fn userCtx)
  | .publish t type =>
    match s.threads t with
    | [] => s.publish t type
    | p :: _ => if p.isCalling then s.publish t type else s
  | .advance t =>
    match s.threads t with
    | p :: ps => if p.phase = .scanning then s.advance t p ps else s
    | [] => s
  | .return t result =>
    match s.threads t with
    | p :: ps =>
      match p.phase with
      | .calling x =>
        s.setThread t ({ p with phase := if result then .scanning else .removing x } :: ps)
      | _ => s
    | [] => s
  | .remove t =>
    match s.threads t with
    | p :: ps =>
      match p.phase with
      | .removing x => s.remove t x p ps
      | _ => s
    | [] => s

/-!
# Runs of the event bus

Every interleaving of threads and callbacks. A publication calls each subscriber that stays once.
It also calls those that left the table after its beginning, and what it removes for a callback
is the first subscription with the same function and context.
-/

open SeaClaw.Lib

/-- Who is called is subscribed at that time, a subscription that was there throughout a
publication was called once if its filter matched, and a callback that returned `false` lost its
own subscription and no other. -/
structure Lawful (s : BusState) : Prop where
  calls : ∀ c ∈ s.calls, c.subscribed = true
  finished : ∀ p ∈ s.finished, ∀ x ∈ p.throughout, x.takes p.type = true → p.called.count x = 1
  removals : ∀ r ∈ s.removals, r.after.Perm (r.before.erase r.own)

/-- The next subscriber of a snapshot still has a subscription, and the first subscription with
the function and context of a callback that returned `false` has its filter. -/
def Current (s : BusState) : BusAct → Prop
  | .advance t => ∀ p ps, s.threads t = p :: ps → p.phase = .scanning →
      ∀ x rest, (p.rest.dropWhile fun x => !x.takes p.type) = x :: rest →
        ∃ y ∈ s.bus.subscribers, y.isFor x.sub.fn x.sub.userCtx = true
  | .remove t => ∀ p ps x, s.threads t = p :: ps → p.phase = .removing x →
      ∀ y, s.bus.subscribers.find? (Subscription.isFor x.sub.fn x.sub.userCtx) = some y →
        y.sub.filter = x.sub.filter
  | _ => True

/-! ## Publications -/

/-- A publication goes through a list of distinct subscriptions, calls those that take the event,
and what was there throughout is in the list. -/
def OnTrack (p : Publish) : Prop :=
  ∃ seen, (seen ++ p.rest).Nodup ∧ p.called = seen.filter (·.takes p.type) ∧
    p.throughout ⊆ seen ++ p.rest

theorem OnTrack.remember {p : Publish} (h : OnTrack p) (bus : Bus) : OnTrack (p.remember bus) := by
  obtain ⟨seen, hnodup, hcalled, hsub⟩ := h
  exact ⟨seen, hnodup, hcalled, fun x hx => hsub (List.filter_sublist.subset hx)⟩

theorem OnTrack.setPhase {p : Publish} (h : OnTrack p) (phase : Phase) :
    OnTrack { p with phase := phase } := h

/-- The subscriptions that are passed over do not take the event. -/
theorem filter_skipped (p : Publish) :
    ((p.rest.takeWhile fun x => !x.takes p.type).filter (·.takes p.type)) = [] := by
  rw [List.filter_eq_nil_iff]
  intro x hx
  have := List.mem_takeWhile_imp hx
  simpa using this

theorem OnTrack.call {p : Publish} (h : OnTrack p) {x : Subscription} {rest : List Subscription}
    (hrest : (p.rest.dropWhile fun x => !x.takes p.type) = x :: rest) :
    OnTrack { p with rest := rest, phase := .calling x, called := p.called ++ [x] } := by
  obtain ⟨seen, hnodup, hcalled, hsub⟩ := h
  have hsplit : seen ++ p.rest =
      (seen ++ p.rest.takeWhile (fun x => !x.takes p.type) ++ [x]) ++ rest := by
    rw [List.append_assoc, List.singleton_append, ← hrest, List.append_assoc,
      List.takeWhile_append_dropWhile]
  have hx : x.takes p.type = true := by
    have := List.head?_dropWhile_not (fun x => !x.takes p.type) p.rest
    rw [hrest] at this
    simpa using this
  refine ⟨seen ++ p.rest.takeWhile (fun x => !x.takes p.type) ++ [x], ?_, ?_, ?_⟩
  · rw [← hsplit]
    exact hnodup
  · dsimp only
    rw [List.filter_append, List.filter_append, filter_skipped, List.append_nil, hcalled]
    simp [hx]
  · rw [← hsplit]
    exact hsub

theorem OnTrack.finish {p : Publish} (h : OnTrack p)
    (hrest : (p.rest.dropWhile fun x => !x.takes p.type) = []) :
    OnTrack { p with rest := [] } := by
  obtain ⟨seen, hnodup, hcalled, hsub⟩ := h
  have hall : p.rest.takeWhile (fun x => !x.takes p.type) = p.rest := by
    have := List.takeWhile_append_dropWhile (p := fun x => !x.takes p.type) (l := p.rest)
    rwa [hrest, List.append_nil] at this
  refine ⟨seen ++ p.rest, ?_, ?_, ?_⟩
  · rw [List.append_nil]
    exact hnodup
  · have := filter_skipped p
    rw [hall] at this
    rw [List.filter_append, this, List.append_nil]
    exact hcalled
  · rw [List.append_nil]
    exact hsub

/-- A publication at its end has called each subscription that stayed and takes the event once. -/
theorem OnTrack.count_eq_one {p : Publish} (h : OnTrack p) (hrest : p.rest = []) {x : Subscription}
    (hx : x ∈ p.throughout) (htakes : x.takes p.type = true) : p.called.count x = 1 := by
  obtain ⟨seen, hnodup, hcalled, hsub⟩ := h
  rw [hrest, List.append_nil] at hnodup hsub
  rw [hcalled]
  exact List.count_eq_one_of_mem (hnodup.filter _) (List.mem_filter.mpr ⟨hsub hx, htakes⟩)

/-! ## States -/

/-- The table has room for its subscriptions, which are distinct; the publications are on track. -/
structure Consistent (s : BusState) : Prop where
  room : s.bus.subscribers.length ≤ busMaxSubscribers
  nodup : s.bus.subscribers.Nodup
  serials : ∀ x ∈ s.bus.subscribers, x.serial < s.bus.serials
  threads : ∀ t, ∀ p ∈ s.threads t, OnTrack p
  finished : ∀ p ∈ s.finished, OnTrack p ∧ p.rest = []

theorem consistent_start : Consistent .start :=
  ⟨Nat.zero_le _, List.nodup_nil, nofun, nofun, nofun⟩

section Consistent

variable {s : BusState}

theorem Consistent.setBus (h : Consistent s) {bus : Bus}
    (hroom : bus.subscribers.length ≤ busMaxSubscribers) (hnodup : bus.subscribers.Nodup)
    (hserials : ∀ x ∈ bus.subscribers, x.serial < bus.serials) : Consistent (s.setBus bus) := by
  refine ⟨hroom, hnodup, hserials, fun t p hp => ?_, h.finished⟩
  obtain ⟨q, hq, rfl⟩ := List.mem_map.mp hp
  exact (h.threads t q hq).remember bus

theorem Consistent.setThread (h : Consistent s) (t : ℕ) {ps : List Publish}
    (hps : ∀ p ∈ ps, OnTrack p) : Consistent (s.setThread t ps) := by
  refine ⟨h.room, h.nodup, h.serials, fun u p hp => ?_, h.finished⟩
  simp only [BusState.setThread, Function.update_apply] at hp
  split_ifs at hp
  · exact hps p hp
  · exact h.threads u p hp

/-- The history of calls and removals does not matter to what the bus does. -/
theorem Consistent.setHistory (h : Consistent s) (calls : List BusCall)
    (removals : List Removal) :
    Consistent { s with calls := calls, removals := removals } :=
  ⟨h.room, h.nodup, h.serials, h.threads, h.finished⟩

theorem Consistent.subscribe (h : Consistent s) (fn userCtx : ℕ) (filter : BusEventType) :
    Consistent (s.setBus (scBusSubscribe s.bus fn userCtx filter).2) := by
  rw [scBusSubscribe]
  split_ifs with hfull
  · exact h.setBus h.room h.nodup h.serials
  · have hnew : ∀ x ∈ s.bus.subscribers,
        ∀ y ∈ [Subscription.mk s.bus.serials ⟨fn, userCtx, filter⟩], x ≠ y := by
      rintro x hx y hy rfl
      rw [List.mem_singleton] at hy
      have := h.serials x hx
      rw [hy] at this
      exact Nat.lt_irrefl _ this
    refine h.setBus ?_ ?_ ?_
    · rw [List.length_append, List.length_singleton]
      omega
    · exact List.nodup_append.mpr ⟨h.nodup, List.nodup_singleton _, hnew⟩
    · intro x hx
      rcases List.mem_append.mp hx with hx | hx
      · exact Nat.lt_succ_of_lt (h.serials x hx)
      · rw [List.mem_singleton.mp hx]
        exact Nat.lt_succ_self _

theorem Consistent.unsubscribe (h : Consistent s) (fn userCtx : ℕ) :
    Consistent (s.setBus (scBusUnsubscribe s.bus fn userCtx)) := by
  have hsub : (scBusUnsubscribe s.bus fn userCtx).subscribers.Sublist s.bus.subscribers :=
    List.eraseP_sublist
  exact h.setBus (hsub.length_le.trans h.room) (h.nodup.sublist hsub)
    fun x hx => h.serials x (hsub.subset hx)

theorem Consistent.publish (h : Consistent s) (t : ℕ) (type : BusEventType) :
    Consistent (s.publish t type) := by
  have hall : s.bus.snapshot = s.bus.subscribers := List.take_of_length_le h.room
  refine h.setThread t fun p hp => ?_
  rcases List.mem_cons.mp hp with rfl | hp
  · refine ⟨[], ?_, rfl, ?_⟩
    · rw [List.nil_append, hall]
      exact h.nodup
    · rw [List.nil_append, hall]
      exact List.Subset.refl _
  · exact h.threads t p hp

theorem Consistent.advance (h : Consistent s) {t : ℕ} {p : Publish} {ps : List Publish}
    (ht : s.threads t = p :: ps) : Consistent (s.advance t p ps) := by
  have hp : OnTrack p := h.threads t p (ht ▸ List.mem_cons_self)
  have hps : ∀ q ∈ ps, OnTrack q := fun q hq => h.threads t q (ht ▸ List.mem_cons_of_mem p hq)
  rw [BusState.advance]
  split
  · rename_i hrest
    have hset := h.setThread t hps
    refine ⟨hset.room, hset.nodup, hset.serials, hset.threads, fun q hq => ?_⟩
    rcases List.mem_cons.mp hq with rfl | hq
    · exact ⟨hp.finish hrest, rfl⟩
    · exact h.finished q hq
  · rename_i x rest hrest
    refine Consistent.setHistory (h.setThread t fun q hq => ?_) _ _
    rcases List.mem_cons.mp hq with rfl | hq
    · exact hp.call hrest
    · exact hps q hq

/-- The next phase of the innermost publication of a thread. -/
theorem Consistent.setPhase (h : Consistent s) {t : ℕ} {p : Publish} {ps : List Publish}
    (ht : s.threads t = p :: ps) (phase : Phase) :
    Consistent (s.setThread t ({ p with phase := phase } :: ps)) := by
  refine h.setThread t fun q hq => ?_
  rcases List.mem_cons.mp hq with rfl | hq
  · exact (h.threads t p (ht ▸ List.mem_cons_self)).setPhase phase
  · exact h.threads t q (ht ▸ List.mem_cons_of_mem p hq)

theorem Consistent.remove (h : Consistent s) {t : ℕ} {x : Subscription} {p : Publish}
    {ps : List Publish} (ht : s.threads t = p :: ps) : Consistent (s.remove t x p ps) :=
  ((h.setPhase ht .scanning).unsubscribe x.sub.fn x.sub.userCtx).setHistory _ _

theorem Consistent.step (h : Consistent s) (a : BusAct) : Consistent (busStep s a) := by
  cases a with
  | subscribe fn userCtx filter => exact h.subscribe fn userCtx filter
  | unsubscribe fn userCtx => exact h.unsubscribe fn userCtx
  | publish t type =>
    simp only [busStep]
    split
    · exact h.publish t type
    · split_ifs
      · exact h.publish t type
      · exact h
  | advance t =>
    simp only [busStep]
    split
    · rename_i p ps ht
      split_ifs
      · exact h.advance ht
      · exact h
    · exact h
  | «return» t result =>
    simp only [busStep]
    split
    · rename_i p ps ht
      split
      · exact h.setPhase ht _
      · exact h
    · exact h
  | remove t =>
    simp only [busStep]
    split
    · rename_i p ps ht
      split
      · exact h.remove ht
      · exact h
    · exact h

end Consistent

/-! ## What a step adds to the history -/

section Lawful

variable {s : BusState}

/-- What a publication has called when it returns is always right. -/
theorem Consistent.lawful_iff (h : Consistent s) :
    Lawful s ↔ (∀ c ∈ s.calls, c.subscribed = true) ∧
      ∀ r ∈ s.removals, r.after.Perm (r.before.erase r.own) := by
  refine ⟨fun hs => ⟨hs.calls, hs.removals⟩, fun hs => ⟨hs.1, fun p hp x hx htakes => ?_, hs.2⟩⟩
  obtain ⟨htrack, hrest⟩ := h.finished p hp
  exact htrack.count_eq_one hrest hx htakes

/-- A step that adds nothing to the calls and removals. -/
theorem Consistent.lawful_of_same {s' : BusState} (h' : Consistent s') (hs : Lawful s)
    (hcalls : s'.calls = s.calls) (hremovals : s'.removals = s.removals) : Lawful s' := by
  rw [h'.lawful_iff, hcalls, hremovals]
  exact ⟨hs.calls, hs.removals⟩

/-- The first place for a function and a context is the callback's own exactly when its removal
is that of the callback's own subscription. -/
theorem table_unsubscribe_perm_iff (bus : Bus) (own : BusSubscriber) :
    (scBusUnsubscribe bus own.fn own.userCtx).table.Perm (bus.table.erase own) ↔
      ∀ y, bus.subscribers.find? (Subscription.isFor own.fn own.userCtx) = some y →
        y.sub.filter = own.filter := by
  rw [scBusUnsubscribe, Bus.table, Bus.table]
  dsimp only
  generalize bus.subscribers = table
  cases hfind : table.find? (Subscription.isFor own.fn own.userCtx) with
  | none =>
    have hnone := List.find?_eq_none.mp hfind
    have hown : own ∉ table.map (·.sub) := by
      intro hmem
      obtain ⟨y, hy, rfl⟩ := List.mem_map.mp hmem
      exact hnone y hy (by simp [Subscription.isFor])
    rw [List.eraseP_of_forall_not hnone, List.erase_of_not_mem hown]
    exact iff_of_true (List.Perm.refl _) nofun
  | some y =>
    obtain ⟨l₁, l₂, hnot, hy, rfl⟩ : ∃ l₁ l₂, (∀ x ∈ l₁, ¬ Subscription.isFor own.fn own.userCtx x) ∧
        Subscription.isFor own.fn own.userCtx y = true ∧ table = l₁ ++ y :: l₂ := by
      obtain ⟨hy, l₁, l₂, htable, hnot⟩ := List.find?_eq_some_iff_append.mp hfind
      exact ⟨l₁, l₂, fun x hx => by simpa using hnot x hx, hy, htable⟩
    have herase : (l₁ ++ y :: l₂).eraseP (Subscription.isFor own.fn own.userCtx) = l₁ ++ l₂ := by
      rw [List.eraseP_append_right _ hnot, List.eraseP_cons_of_pos hy]
    simp only [Subscription.isFor, decide_eq_true_eq] at hy
    have hown : own ∉ l₁.map (·.sub) := by
      intro hmem
      obtain ⟨x, hx, rfl⟩ := List.mem_map.mp hmem
      exact hnot x hx (by simp [Subscription.isFor])
    rw [herase, List.map_append, List.map_append, List.map_cons, List.erase_append_right _ hown]
    simp only [Option.some.injEq, forall_eq']
    by_cases hfilter : y.sub.filter = own.filter
    · obtain rfl : y.sub = own := by
        obtain ⟨_, fn, userCtx, filter⟩ := y
        obtain ⟨fn', userCtx', filter'⟩ := own
        simp_all
      rw [List.erase_cons_head]
      exact iff_of_true (List.Perm.refl _) rfl
    · refine iff_of_false (fun hperm => ?_) hfilter
      have hne : own ≠ y.sub := by
        rintro rfl
        exact hfilter rfl
      -- the place that goes is counted on one side alone
      have hcount := (List.perm_append_left_iff _).mp hperm |>.count_eq y.sub
      rw [List.count_erase_of_ne hne.symm, List.count_cons_self] at hcount
      omega

/-- A publication that goes on keeps to the law exactly when whom it calls is still there. -/
theorem Consistent.advance_iff (h : Consistent s) (hs : Lawful s) {t : ℕ} {p : Publish}
    {ps : List Publish} (ht : s.threads t = p :: ps) :
    Lawful (s.advance t p ps) ↔
      ∀ x rest, (p.rest.dropWhile fun x => !x.takes p.type) = x :: rest →
        ∃ y ∈ s.bus.subscribers, y.isFor x.sub.fn x.sub.userCtx = true := by
  have h' := h.advance ht
  rw [h'.lawful_iff]
  rw [BusState.advance] at *
  split
  · rename_i hrest
    refine iff_of_true ⟨hs.calls, hs.removals⟩ ?_
    intro x rest hx
    rw [hrest] at hx
    exact absurd hx nofun
  · rename_i x rest hrest
    simp only [hrest, List.cons.injEq, and_imp, List.forall_mem_cons, List.any_eq_true]
    constructor
    · rintro ⟨⟨hcall, -⟩, -⟩ x' rest' rfl -
      exact hcall
    · intro hcall
      exact ⟨⟨hcall x rest rfl rfl, hs.calls⟩, hs.removals⟩

/-- A removal keeps to the law exactly when the first place has the callback's filter. -/
theorem Consistent.remove_iff (h : Consistent s) (hs : Lawful s) {t : ℕ} {x : Subscription}
    {p : Publish} {ps : List Publish} (ht : s.threads t = p :: ps) :
    Lawful (s.remove t x p ps) ↔
      ∀ y, s.bus.subscribers.find? (Subscription.isFor x.sub.fn x.sub.userCtx) = some y →
        y.sub.filter = x.sub.filter := by
  rw [(h.remove ht).lawful_iff, ← table_unsubscribe_perm_iff]
  constructor
  · rintro ⟨-, hremovals⟩
    exact hremovals _ List.mem_cons_self
  · intro hperm
    exact ⟨hs.calls, List.forall_mem_cons.mpr ⟨hperm, hs.removals⟩⟩

/-- A step keeps to the law exactly when it meets the condition. -/
theorem Consistent.lawful_step_iff (h : Consistent s) (hs : Lawful s) (a : BusAct) :
    Lawful (busStep s a) ↔ Current s a := by
  have h' := h.step a
  cases a with
  | subscribe fn userCtx filter => exact iff_of_true (h'.lawful_of_same hs rfl rfl) trivial
  | unsubscribe fn userCtx => exact iff_of_true (h'.lawful_of_same hs rfl rfl) trivial
  | publish t type =>
    refine iff_of_true (h'.lawful_of_same hs ?_ ?_) trivial
    · simp only [busStep]
      split
      · rfl
      · split_ifs <;> rfl
    · simp only [busStep]
      split
      · rfl
      · split_ifs <;> rfl
  | advance t =>
    cases ht : s.threads t with
    | nil =>
      simp only [busStep, Current, ht]
      exact iff_of_true hs nofun
    | cons p ps =>
      simp only [busStep, Current, ht, List.cons.injEq, and_imp]
      by_cases hphase : p.phase = .scanning
      · rw [if_pos hphase, h.advance_iff hs ht]
        constructor
        · rintro hcall p' ps' rfl - -
          exact hcall
        · intro hcall
          exact hcall p ps rfl rfl hphase
      · rw [if_neg hphase]
        refine iff_of_true hs ?_
        rintro p' ps' rfl - hp
        exact absurd hp hphase
  | «return» t result =>
    refine iff_of_true (h'.lawful_of_same hs ?_ ?_) trivial
    · simp only [busStep]
      split
      · split <;> rfl
      · rfl
    · simp only [busStep]
      split
      · split <;> rfl
      · rfl
  | remove t =>
    cases ht : s.threads t with
    | nil =>
      simp only [busStep, Current, ht]
      exact iff_of_true hs nofun
    | cons p ps =>
      simp only [busStep, Current, ht, List.cons.injEq, and_imp]
      split
      · rename_i x hphase
        rw [h.remove_iff hs ht]
        constructor
        · rintro hfirst p' ps' x' rfl - hp
          rw [hphase] at hp
          obtain rfl := Phase.removing.inj hp
          exact hfirst
        · intro hfirst
          exact hfirst p ps x rfl rfl hphase
      · rename_i hphase
        refine iff_of_true hs ?_
        rintro p' ps' x' rfl - hp
        exact absurd hp (hphase x')

end Lawful

/-- A run of the bus keeps to the law in every state exactly when every call goes to someone who
is still subscribed, and every callback that returns `false` is the first of its function and
context, or has the filter of the first. -/
theorem bus_lawful_iff (acts : List BusAct) :
    Machine.Throughout (fun s a => some (busStep s a)) Lawful .start acts ↔
      Machine.EveryStep (fun s a => some (busStep s a)) Current .start acts := by
  refine Machine.throughout_iff_everyStep (I := Consistent) ?_ ?_ consistent_start ?_ acts
  · intro s a h
    exact ⟨_, rfl, h.step a⟩
  · intro s a s' h hs hstep
    obtain rfl := Option.some.inj hstep
    exact h.lawful_step_iff hs a
  · exact ⟨nofun, nofun, nofun⟩

/-- A callback that unsubscribes another one, whom the publication calls all the same. -/
def lateCall : List BusAct :=
  [.subscribe 1 7 .eventCount, .subscribe 2 8 .eventCount, .publish 0 .error, .advance 0,
    .unsubscribe 2 8, .return 0 true, .advance 0]

/-- A callback with two filters, whose `false` for the second removes the first. -/
def otherFilter : List BusAct :=
  [.subscribe 1 7 .error, .subscribe 1 7 .toolCall, .publish 0 .toolCall, .advance 0,
    .return 0 false, .remove 0]

/-- A call after the last subscription is gone, and a removal of the wrong one. -/
theorem bus_late_call_and_wrong_removal :
    ¬ Machine.Throughout (fun s a => some (busStep s a)) Lawful .start lateCall ∧
      ¬ Machine.Throughout (fun s a => some (busStep s a)) Lawful .start otherFilter := by
  constructor
  · intro h
    obtain ⟨s, hrun, hs⟩ := h.run
    have hcalls : (Machine.run (fun s a => some (busStep s a)) .start lateCall).map (·.calls) =
        some [⟨⟨2, 8, .eventCount⟩, false⟩, ⟨⟨1, 7, .eventCount⟩, true⟩] := by
      decide
    rw [hrun, Option.map_some, Option.some.injEq] at hcalls
    exact absurd (hs.calls _ (hcalls ▸ List.mem_cons_self)) Bool.false_ne_true
  · intro h
    obtain ⟨s, hrun, hs⟩ := h.run
    have hremovals : (Machine.run (fun s a => some (busStep s a)) .start otherFilter).map
        (·.removals) =
        some [⟨⟨1, 7, .toolCall⟩, [⟨1, 7, .error⟩, ⟨1, 7, .toolCall⟩], [⟨1, 7, .toolCall⟩]⟩] := by
      decide
    rw [hrun, Option.map_some, Option.some.injEq] at hremovals
    exact absurd (hs.removals _ (hremovals ▸ List.mem_cons_self)) (by decide)

end SeaClaw.EventBus
