import SeaClaw.Lib.Machine
import SeaClaw.Sessions.SessionRestore

/-!
# Runs of the sessions

Sessions are created, deleted, labelled, talked to and evicted in any order. Whatever was done, the
file gives every session back that has a key, with each of its messages counted once more.
-/

namespace SeaClaw.Sessions

open SeaClaw.Lib

/-- The seconds since the last use, as they are compared. -/
def idleSecs (now : ℤ) (s : Session) : ℕ := ((now - s.lastActive) % 2 ^ 64).toNat

/-- The entries of a chain that stay. -/
def keptEntries (mgr : SessionManager) (maxIdleSecs : ℕ) (now : ℤ) (i : ℕ) : List SessionEntry :=
  (mgr.buckets i).filter fun e => idleSecs now (mgr.sessions e.session) ≤ maxIdleSecs

/-- `sc_session_evict_idle`. When the clock was set back, every session has been idle for longer
than any limit. -/
def scSessionEvictIdle (mgr : SessionManager) (maxIdleSecs : ℕ) (now : ℤ) :
    ℕ × SessionManager :=
  let kept := keptEntries mgr maxIdleSecs now
  let evicted := mgr.entries.length - ((List.range sessionMapCap).flatMap kept).length
  (evicted, { mgr with buckets := kept, count := mgr.count - evicted })

/-- A use of the sessions, with the reading of the clock. -/
inductive SessionUse where
  | getOrCreate (key : CString) (now : ℤ)
  | delete (key : CString)
  | patch (key : CString) (label : Option CString)
  | append (key role content : CString) (now : ℤ)
  | evictIdle (maxIdleSecs : ℕ) (now : ℤ)

/-- One use. A message goes to the session that its key has, if it has one. -/
def useStep (mgr : SessionManager) : SessionUse → Option SessionManager
  | .getOrCreate key now => some (scSessionGetOrCreate mgr key now ⟨true, true⟩).2
  | .delete key => some (scSessionDelete mgr key).2
  | .patch key label => some (scSessionPatch mgr key label).2
  | .append key role content now =>
    match findSession mgr key with
    | none => some mgr
    | some a =>
      (appendMessage (mgr.sessions a) role content now).map fun s => mgr.change a fun _ => s
  | .evictIdle maxIdleSecs now => some (scSessionEvictIdle mgr maxIdleSecs now).2

/-- The key fits, the clock is in the range of what a double holds, and there is room for one more
message. -/
def Suits (mgr : SessionManager) : SessionUse → Prop
  | .getOrCreate key now => key.octets.length < sessionKeyLen ∧ now.natAbs < 2 ^ 53
  | .append key _ _ now => now.natAbs < 2 ^ 53 ∧
    ∀ a, findSession mgr key = some a → (mgr.sessions a).messages.length < sessionMsgCap
  | _ => True

/-- A session behind so many uses. -/
structure Session.Used (k : ℕ) (s : Session) : Prop where
  block : s.InBlock
  createdAt : s.createdAt.natAbs < 2 ^ 53
  lastActive : s.lastActive.natAbs < 2 ^ 53
  turnCount : s.turnCount ≤ k

/-- A manager behind so many uses. -/
structure Built (k : ℕ) (mgr : SessionManager) : Prop extends WellFormed mgr where
  used : mgr.Every (Session.Used k)

/-- Every message counted once more. -/
def SessionFacts.counted (f : SessionFacts) : SessionFacts :=
  { f with turnCount := f.turnCount + f.messages.length }

theorem Session.Used.mono {k : ℕ} {s : Session} (h : s.Used k) : s.Used (k + 1) :=
  ⟨h.block, h.createdAt, h.lastActive, h.turnCount.trans (Nat.le_succ k)⟩

section Uses

variable {k : ℕ} {mgr : SessionManager}

theorem Built.mono (h : Built k mgr) : Built (k + 1) mgr :=
  ⟨h.toWellFormed, fun i e he => (h.used i e he).mono⟩

theorem built_init : Built 0 scSessionManagerInit :=
  ⟨wellFormed_init, fun _ _ he => absurd he List.not_mem_nil⟩

theorem Built.change (h : Built k mgr) (a : ℕ) {f : Session → Session}
    (hkey : (f (mgr.sessions a)).sessionKey = (mgr.sessions a).sessionKey)
    (hfits : (mgr.sessions a).Fits → (f (mgr.sessions a)).Fits)
    (hused : (mgr.sessions a).Used (k + 1) → (f (mgr.sessions a)).Used (k + 1)) :
    Built (k + 1) (mgr.change a f) :=
  ⟨h.toWellFormed.change a hkey hfits, h.mono.used.change a hused⟩

/-- A session that a key finds is one of the table. -/
theorem exists_entry {key : CString} {a : ℕ} (h : findSession mgr key = some a) :
    ∃ i, ∃ e ∈ mgr.buckets i, e.session = a := by
  rw [findSession, Option.map_eq_some_iff] at h
  obtain ⟨e, he, ha⟩ := h
  exact ⟨_, e, List.mem_of_find?_eq_some he, ha⟩

theorem cut_cut (s : CString) (n : ℕ) : cut (cut s n) n = cut s n :=
  cut_eq_self _ (List.length_take_le _ _)

/-- What an append changes besides the messages. -/
theorem appendMessage_frame {s s' : Session} {role content : CString} {now : ℤ}
    (h : appendMessage s role content now = some s') :
    s'.sessionKey = s.sessionKey ∧ s'.lastActive = now := by
  rw [appendMessage, Option.ite_none_right_eq_some] at h
  obtain ⟨-, hs'⟩ := h
  rw [← Option.some.inj hs']
  exact ⟨rfl, rfl⟩

theorem Built.getOrCreate (h : Built k mgr) {key : CString}
    (hkey : key.octets.length < sessionKeyLen) {now : ℤ} (hnow : now.natAbs < 2 ^ 53) :
    Built (k + 1) (scSessionGetOrCreate mgr key now ⟨true, true⟩).2 := by
  have hrange : -2 ^ 63 ≤ now ∧ now < 2 ^ 63 := by omega
  rw [scSessionGetOrCreate]
  cases hfind : findSession mgr key with
  | some a =>
    refine h.change (f := fun s => { s with lastActive := now }) a rfl (fun hs => ?_) fun hs => ?_
    · exact ⟨hs.createdAt, hrange, hs.turnCount, hs.sessionKey, hs.label, hs.messages, hs.message⟩
    · exact ⟨hs.block, hs.createdAt, hnow, hs.turnCount⟩
  | none =>
    refine ⟨h.create hfind hkey hrange, h.every_create h.mono.used hkey ?_⟩
    exact ⟨le_rfl, hnow, hnow, Nat.zero_le _⟩

theorem Built.delete (h : Built k mgr) (key : CString) :
    Built (k + 1) (scSessionDelete mgr key).2 := by
  rw [scSessionDelete]
  cases HashTable.find findBucket SessionEntry.key mgr.buckets key with
  | none => exact h.mono
  | some e =>
    exact ⟨h.erase key _, fun i e he => h.mono.used i e (mem_of_mem_erase he)⟩

theorem Built.patch (h : Built k mgr) (key : CString) (label : Option CString) :
    Built (k + 1) (scSessionPatch mgr key label).2 := by
  cases label with
  | none => exact h.mono
  | some label =>
    simp only [scSessionPatch]
    cases findSession mgr key with
    | none => exact h.mono
    | some a =>
      refine h.change (f := fun s => { s with label := cut label (sessionLabelLen - 1) }) a rfl
        (fun hs => ?_) fun hs => ?_
      · have hlabel : (cut label (sessionLabelLen - 1)).octets.length < sessionLabelLen :=
          (List.length_take_le _ _).trans_lt (by decide)
        exact ⟨hs.createdAt, hs.lastActive, hs.turnCount, hs.sessionKey, hlabel, hs.messages,
          hs.message⟩
      · exact ⟨hs.block, hs.createdAt, hs.lastActive, hs.turnCount⟩

/-- A message finds its slot, and is counted. -/
theorem Built.append (h : Built k mgr) {key : CString} {a : ℕ} (ha : findSession mgr key = some a)
    (role content : CString) {now : ℤ} (hnow : now.natAbs < 2 ^ 53)
    (hroom : (mgr.sessions a).messages.length < sessionMsgCap) :
    ∃ s, appendMessage (mgr.sessions a) role content now = some s ∧
      Built (k + 1) (mgr.change a fun _ => s) := by
  obtain ⟨i, e, he, rfl⟩ := exists_entry ha
  have hfits := h.fits i e he
  have hused := h.used i e he
  have hrole : (cut role (sessionMsgRoleLen - 1)).octets.length < sessionMsgRoleLen :=
    (List.length_take_le _ _).trans_lt (by decide)
  have hcontent :
      (cut content (sessionMsgContentCap - 1)).octets.length < sessionMsgContentCap :=
    (List.length_take_le _ _).trans_lt (by decide)
  obtain ⟨s, hs, hblock, hfacts⟩ := appendMessage_room hused.block hroom
    (m := ⟨cut role (sessionMsgRoleLen - 1), cut content (sessionMsgContentCap - 1)⟩)
    hrole hcontent now
  have hsame : appendMessage (mgr.sessions e.session) role content now = some s := by
    rw [← hs]
    simp only [appendMessage, cut_cut]
  obtain ⟨hkey, hactive⟩ := appendMessage_frame hs
  simp only [Session.facts, SessionFacts.mk.injEq] at hfacts
  obtain ⟨hlabel, hcreated, hturns, hmessages⟩ := hfacts
  have hcount : s.turnCount ≤ (mgr.sessions e.session).turnCount + 1 := by
    rw [hturns]
    exact Nat.mod_le _ _
  have hlength : s.messages.length = (mgr.sessions e.session).messages.length + 1 := by
    rw [hmessages, List.length_append, List.length_singleton]
  refine ⟨s, hsame, h.change e.session hkey (fun _ => ?_) fun _ => ?_⟩
  · constructor
    · rw [hcreated]
      exact hfits.createdAt
    · rw [hactive]
      omega
    · rw [hturns]
      exact Nat.mod_lt _ (Nat.two_pow_pos 64)
    · rw [hkey]
      exact hfits.sessionKey
    · rw [hlabel]
      exact hfits.label
    · omega
    · intro m hm
      rw [hmessages, List.mem_append, List.mem_singleton] at hm
      rcases hm with hm | rfl
      · exact hfits.message m hm
      · exact ⟨hrole, hcontent⟩
  · have hturnCount := hused.turnCount
    refine ⟨hblock, ?_, ?_, by omega⟩
    · rw [hcreated]
      exact hused.createdAt
    · rw [hactive]
      exact hnow

/-- The sessions that were not idle stay as they were. -/
theorem Built.evictIdle (h : Built k mgr) (maxIdleSecs : ℕ) (now : ℤ) :
    Built (k + 1) (scSessionEvictIdle mgr maxIdleSecs now).2 := by
  have hsub : ∀ i, (keptEntries mgr maxIdleSecs now i).Sublist (mgr.buckets i) :=
    fun _ => List.filter_sublist
  exact {
    placed := fun i e he => h.placed i e ((hsub i).subset he)
    distinct := fun i => ((hsub i).map _).nodup (h.distinct i)
    named := fun i e he => h.named i e ((hsub i).subset he)
    key := fun i e he => h.key i e ((hsub i).subset he)
    fits := fun i e he => h.fits i e ((hsub i).subset he)
    used := fun i e he => h.mono.used i e ((hsub i).subset he) }

theorem Built.step (h : Built k mgr) {u : SessionUse} (hu : Suits mgr u) :
    ∃ mgr', useStep mgr u = some mgr' ∧ Built (k + 1) mgr' := by
  cases u with
  | getOrCreate key now => exact ⟨_, rfl, h.getOrCreate hu.1 hu.2⟩
  | delete key => exact ⟨_, rfl, h.delete key⟩
  | patch key label => exact ⟨_, rfl, h.patch key label⟩
  | append key role content now =>
    rw [useStep]
    cases hfind : findSession mgr key with
    | none => exact ⟨mgr, rfl, h.mono⟩
    | some a =>
      obtain ⟨s, hs, hbuilt⟩ := h.append hfind role content hu.1 (hu.2 a hfind)
      simp only [hs]
      exact ⟨_, rfl, hbuilt⟩
  | evictIdle maxIdleSecs now => exact ⟨_, rfl, h.evictIdle maxIdleSecs now⟩

theorem Built.run : ∀ (us : List SessionUse) {k : ℕ} {mgr : SessionManager}, Built k mgr →
    Machine.EveryStep useStep Suits mgr us →
    ∃ mgr', Machine.run useStep mgr us = some mgr' ∧ Built (k + us.length) mgr' := by
  intro us
  induction us with
  | nil =>
    intro k mgr h _
    exact ⟨mgr, rfl, h⟩
  | cons u us ih =>
    rintro k mgr h ⟨hu, hus⟩
    obtain ⟨mid, hmid, hbuilt⟩ := h.step hu
    obtain ⟨mgr', hrun, hlast⟩ := ih hbuilt (hus mid hmid)
    refine ⟨mgr', ?_, ?_⟩
    · rw [Machine.run, hmid, Option.bind_some, hrun]
    · rw [List.length_cons, Nat.add_comm us.length, ← Nat.add_assoc]
      exact hlast

/-- What is read of a session that was built is what was saved, counted once more. -/
theorem Built.readBack (h : Built k mgr) (hk : k < 2 ^ 53) {s : Session} (hs : s ∈ mgr.listed) :
    s.readBack = some s.facts.counted := by
  obtain ⟨i, e, he, rfl⟩ := h.mem_listed.mp hs
  have hused := h.used i e he
  exact readBack_of_small (h.fits i e he)
    ⟨hused.createdAt, hused.lastActive, hused.turnCount.trans_lt hk⟩

end Uses

/-- Whatever the sessions were used for, a file that is not too long gives back, for every key
but the empty one, label, time of creation and messages, and the turns with the messages counted
once more. -/
theorem session_uses_load {us : List SessionUse}
    (hus : Machine.EveryStep useStep Suits scSessionManagerInit us) (hfew : us.length < 2 ^ 53)
    (now : ℕ → ℕ → ℤ) : ∃ mgr, Machine.run useStep scSessionManagerInit us = some mgr ∧
      ((scSessionSave mgr).length ≤ sessionFileMax →
        ∃ mgr', scSessionLoad now (scSessionSave mgr) scSessionManagerInit =
            some (.ok (), mgr') ∧
          ∀ key, mgr'.factsAt key =
            if key.octets = [] then none else (mgr.factsAt key).map SessionFacts.counted) := by
  obtain ⟨mgr, hrun, hbuilt⟩ := built_init.run us hus
  rw [Nat.zero_add] at hbuilt
  refine ⟨mgr, hrun, fun hlength => ?_⟩
  rcases hbuilt.load hlength now with ⟨⟨s, hs, -, hnone⟩, -⟩ | ⟨mgr', hload, hread, hold⟩
  · rw [hbuilt.readBack hfew hs] at hnone
    cases hnone
  · refine ⟨mgr', hload, fun key => ?_⟩
    split_ifs with hkey
    · exact hold key fun s _ hs heq => hs (heq ▸ hkey)
    · by_cases hknown : mgr.factsAt key = none
      · rw [hknown]
        refine hold key fun s hs _ heq => ?_
        rw [heq, hbuilt.factsAt_of_mem hs] at hknown
        cases hknown
      · obtain ⟨s, hs, rfl⟩ := hbuilt.mem_of_factsAt hknown
        rw [(hread s hs hkey).2, hbuilt.readBack hfew hs, hbuilt.factsAt_of_mem hs]
        rfl

/-- A session with a message and a label. -/
def someUses : List SessionUse :=
  [.getOrCreate shortKey 1, .append shortKey (.ofBytes (ascii "user")) (.ofBytes (ascii "hi")) 2,
    .patch shortKey (some (.ofBytes (ascii "chat")))]

theorem suits_someUses : Machine.EveryStep useStep Suits scSessionManagerInit someUses := by
  refine ⟨⟨by decide, by decide⟩, fun s hs => ?_⟩
  obtain rfl := Option.some.inj hs
  refine ⟨⟨by decide, fun a ha => ?_⟩, fun s' hs' => ⟨trivial, fun _ _ => trivial⟩⟩
  obtain rfl : 0 = a := Option.some.inj ha
  exact show 0 < 4096 by decide

/-- The file of these sessions gives the session back, with its message counted twice. -/
theorem someUses_load : ∃ mgr mgr',
    Machine.run useStep scSessionManagerInit someUses = some mgr ∧
      scSessionLoad (fun _ _ => 3) (scSessionSave mgr) scSessionManagerInit =
        some (.ok (), mgr') ∧
      ∀ key, mgr'.factsAt key =
        if key.octets = [] then none else (mgr.factsAt key).map SessionFacts.counted := by
  have hlength : (Machine.run useStep scSessionManagerInit someUses).map
      (fun mgr => decide ((scSessionSave mgr).length ≤ sessionFileMax)) = some true := by
    decide +kernel
  obtain ⟨mgr, hrun, hload⟩ := session_uses_load suits_someUses (by decide) fun _ _ => 3
  rw [hrun, Option.map_some, Option.some.injEq, decide_eq_true_eq] at hlength
  obtain ⟨mgr', hread, hfacts⟩ := hload hlength
  exact ⟨mgr, mgr', hrun, hread, hfacts⟩

/-! ## The messages in their block -/

/-- The session with its block, where the messages are the slots at the front. -/
structure Session.Views (s : Session) (l : MessageList) : Prop where
  count : l.messageCount = s.messages.length
  cap : l.slots.length = s.messageCap
  messages : l.messages = s.messages.map fun m => ⟨m.role, some m.content⟩
  lastActive : l.lastActive = s.lastActive
  turnCount : l.turnCount % 2 ^ 64 = s.turnCount

theorem take_resize {slots : List MessageSlot} {n cap : ℕ} (hn : n ≤ slots.length)
    (hcap : n ≤ cap) (junk : MessageSlot) : (resize slots cap junk).take n = slots.take n := by
  have hlength : n ≤ (slots.take cap).length := by
    rw [List.length_take]
    omega
  rw [resize, List.take_append_of_le_length hlength, List.take_take, Nat.min_eq_left hcap]

theorem take_set_succ {slots : List MessageSlot} {n : ℕ} (hn : n < slots.length)
    (m : MessageSlot) : (slots.set n m).take (n + 1) = slots.take n ++ [m] := by
  rw [List.take_add_one, List.take_set_of_le le_rfl, List.getElem?_set_self hn, Option.toList_some]

/-- With memory there, the append to the block is the append to the session. -/
theorem Session.Views.append {s : Session} {l : MessageList} (h : s.Views l)
    (role content : CString) (now : ℤ) (junk : MessageSlot) :
    (appendMessage s role content now = none ∧
      scSessionAppendMessage l ⟨some role, some content, now, true, true, junk⟩ = none) ∨
    ∃ s' l', appendMessage s role content now = some s' ∧
      scSessionAppendMessage l ⟨some role, some content, now, true, true, junk⟩ =
        some (.ok (), l') ∧ s'.Views l' := by
  obtain ⟨slots, hgrow, hlength, htake⟩ : ∃ slots,
      growMessages l ⟨some role, some content, now, true, true, junk⟩ = some slots ∧
      slots.length = (if l.messageCount ≥ l.slots.length then newCap l.slots.length
        else l.slots.length) ∧
      (l.messageCount < slots.length →
        slots.take l.messageCount = l.slots.take l.messageCount) := by
    rw [growMessages]
    by_cases hfull : l.messageCount ≥ l.slots.length
    · rw [if_pos hfull, if_pos hfull, if_pos rfl]
      refine ⟨_, rfl, length_resize _ _ _, fun hlt => ?_⟩
      rw [length_resize] at hlt
      exact take_resize l.count_le hlt.le junk
    · rw [if_neg hfull, if_neg hfull]
      exact ⟨_, rfl, rfl, fun _ => rfl⟩
  by_cases hroom : l.messageCount < slots.length
  · let m : MessageSlot :=
      ⟨cut role (sessionMsgRoleLen - 1), some (cut content (sessionMsgContentCap - 1))⟩
    have hput : scSessionAppendMessage l ⟨some role, some content, now, true, true, junk⟩ =
        some (.ok (), { l.put slots m hroom with
          lastActive := now
          turnCount := l.turnCount + 1 }) := by
      simp only [scSessionAppendMessage, hgrow, dif_pos hroom, if_true]
      rfl
    refine Or.inr ⟨_, _, if_pos ?_, hput, ?_⟩
    · rw [← h.count, ← h.cap, ← hlength]
      exact hroom
    · constructor
      · rw [List.length_append, List.length_singleton, ← h.count]
        rfl
      · rw [← h.count, ← h.cap]
        exact List.length_set.trans hlength
      · have hmessages := h.messages
        rw [MessageList.messages] at hmessages
        rw [List.map_append, ← hmessages, ← htake hroom]
        exact take_set_succ hroom _
      · rfl
      · rw [← h.turnCount, Nat.mod_add_mod]
  · refine Or.inl ⟨if_neg ?_, ?_⟩
    · rw [← h.count, ← h.cap, ← hlength]
      exact hroom
    · simp only [scSessionAppendMessage, hgrow, dif_neg hroom]

/-- A session of zeros has no block. -/
theorem views_zero : Session.zero.Views newSession := ⟨rfl, rfl, rfl, rfl, rfl⟩

end SeaClaw.Sessions
