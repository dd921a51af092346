import SeaClaw.Lib.Machine
import SeaClaw.Sessions.Manager

/-!
# The messages of a session

The messages stand at the front of a block that doubles up to a limit. At the limit the block
is asked for again at its size and the next message goes behind it; and a message whose content
finds no memory is counted all the same.
-/

namespace SeaClaw.Sessions

open SeaClaw.Lib

/-- `sc_session_message_t`; no content stands for `NULL`. -/
structure MessageSlot where
  role : CString
  content : Option CString
  deriving DecidableEq

/-- The fields of `sc_session_t` that an append looks at: the block has `message_cap` slots. -/
structure MessageList where
  slots : List MessageSlot
  messageCount : ℕ
  count_le : messageCount ≤ slots.length
  lastActive : ℤ
  turnCount : ℕ

/-- The messages of the session. -/
def MessageList.messages (s : MessageList) : List MessageSlot := s.slots.take s.messageCount

/-- A call of `sc_session_append_message`: the arguments, what the clock says, which allocations
find memory, and what a new slot holds. -/
structure AppendCall where
  role : Option CString
  content : Option CString
  now : ℤ
  growMemory : Bool
  contentMemory : Bool
  junk : MessageSlot

/-- `realloc` of the block. -/
def resize (slots : List MessageSlot) (cap : ℕ) (junk : MessageSlot) : List MessageSlot :=
  slots.take cap ++ List.replicate (cap - slots.length) junk

/-- The size of the next block. -/
def newCap (cap : ℕ) : ℕ := min (if cap ≠ 0 then cap * 2 else 8) sessionMsgCap

/-- The block that the message goes to, if there is one. -/
def growMessages (s : MessageList) (c : AppendCall) : Option (List MessageSlot) :=
  if s.messageCount ≥ s.slots.length then
    if c.growMemory then some (resize s.slots (newCap s.slots.length) c.junk) else none
  else some s.slots

theorem room_of_set {slots : List MessageSlot} {n : ℕ} (h : n < slots.length) (m : MessageSlot) :
    n + 1 ≤ (slots.set n m).length := by
  rw [List.length_set]
  exact h

/-- The message in the slot behind the others. -/
def MessageList.put (s : MessageList) (slots : List MessageSlot) (m : MessageSlot)
    (h : s.messageCount < slots.length) : MessageList where
  slots := slots.set s.messageCount m
  messageCount := s.messageCount + 1
  count_le := room_of_set h m
  lastActive := s.lastActive
  turnCount := s.turnCount

/-- `sc_session_append_message`. No result stands for a slot outside of the block; the copies of
role and content are cut to the room they have. -/
def scSessionAppendMessage (s : MessageList) (c : AppendCall) :
    Option (Except ScError Unit × MessageList) :=
  match c.role, c.content with
  | some role, some content =>
    match growMessages s c with
    | none => some (.error .outOfMemory, s)
    | some slots =>
      if h : s.messageCount < slots.length then
        let role := cut role (sessionMsgRoleLen - 1)
        if c.contentMemory then
          let s := s.put slots ⟨role, some (cut content (sessionMsgContentCap - 1))⟩ h
          some (.ok (), { s with lastActive := c.now, turnCount := s.turnCount + 1 })
        else some (.error .outOfMemory, s.put slots ⟨role, none⟩ h)
      else none
  | _, _ => some (.error .invalidArgument, s)

/-! ## Runs -/

/-- The session behind a call. -/
def appendStep (s : MessageList) (c : AppendCall) : Option MessageList :=
  (scSessionAppendMessage s c).map (·.2)

/-- A call stays inside of the block, and one that fails leaves the messages as they were. -/
def KeepsBounds (s : MessageList) (c : AppendCall) : Prop :=
  ∃ r s', scSessionAppendMessage s c = some (r, s') ∧ s'.messageCount ≤ s'.slots.length ∧
    ∀ e, r = .error e → s'.messageCount = s.messageCount ∧ s'.messages = s.messages

/-- The call is refused or has a slot, and finds memory for the content. -/
def HasSlot (s : MessageList) (c : AppendCall) : Prop :=
  c.role = none ∨ c.content = none ∨
    (s.messageCount = s.slots.length ∧ c.growMemory = false) ∨
    (s.messageCount < max s.slots.length (newCap s.slots.length) ∧ c.contentMemory = true)

section Append

variable {s : MessageList} {c : AppendCall}

theorem length_resize (slots : List MessageSlot) (cap : ℕ) (junk : MessageSlot) :
    (resize slots cap junk).length = cap := by
  rw [resize, List.length_append, List.length_take, List.length_replicate]
  omega

/-- The block is at most the greater of the old size and the next one, and is that whenever a
message would not fit. -/
theorem growMessages_some {slots : List MessageSlot} (h : growMessages s c = some slots) :
    s.messageCount < slots.length ↔
      s.messageCount < max s.slots.length (newCap s.slots.length) := by
  have hle := s.count_le
  rw [growMessages] at h
  split_ifs at h with hfull hmemory
  · cases h
    rw [length_resize]
    omega
  · cases h
    omega

theorem growMessages_none : growMessages s c = none ↔
    s.messageCount = s.slots.length ∧ c.growMemory = false := by
  have hle := s.count_le
  rw [growMessages]
  split_ifs with hfull hmemory
  · simp only [hmemory, reduceCtorEq, and_false]
  · simp only [hmemory, and_true, true_iff]
    omega
  · simp only [false_iff, not_and]
    omega

/-- A call keeps the bounds exactly if it has a slot. -/
theorem keepsBounds_iff : KeepsBounds s c ↔ HasSlot s c := by
  rw [KeepsBounds, HasSlot]
  cases hrole : c.role with
  | none =>
    simp only [true_or, iff_true]
    exact ⟨_, s, by rw [scSessionAppendMessage, hrole], s.count_le, fun _ _ => ⟨rfl, rfl⟩⟩
  | some role =>
    cases hcontent : c.content with
    | none =>
      simp only [true_or, or_true, iff_true]
      exact ⟨_, s, by rw [scSessionAppendMessage, hrole, hcontent], s.count_le,
        fun _ _ => ⟨rfl, rfl⟩⟩
    | some content =>
      simp only [reduceCtorEq, false_or]
      rw [← growMessages_none]
      cases hgrow : growMessages s c with
      | none =>
        simp only [true_or, iff_true]
        refine ⟨.error .outOfMemory, s, ?_, s.count_le, fun _ _ => ⟨rfl, rfl⟩⟩
        simp only [scSessionAppendMessage, hrole, hcontent, hgrow]
      | some slots =>
        simp only [reduceCtorEq, false_or]
        rw [← growMessages_some hgrow]
        by_cases hroom : s.messageCount < slots.length
        · by_cases hmemory : c.contentMemory = true
          · simp only [hroom, hmemory, and_self, iff_true]
            obtain ⟨s', hs'⟩ : ∃ s', scSessionAppendMessage s c = some (.ok (), s') := by
              simp only [scSessionAppendMessage, hrole, hcontent, hgrow, dif_pos hroom, hmemory,
                if_true]
              exact ⟨_, rfl⟩
            refine ⟨.ok (), s', hs', s'.count_le, fun e he => ?_⟩
            cases he
          · refine iff_of_false ?_ fun h => hmemory h.2
            rintro ⟨r, s', happend, -, hkeeps⟩
            simp only [scSessionAppendMessage, hrole, hcontent, hgrow, dif_pos hroom, hmemory,
              if_false, Option.some.injEq, Prod.mk.injEq, Bool.false_eq_true] at happend
            obtain ⟨rfl, rfl⟩ := happend
            have hcount := (hkeeps _ rfl).1
            simp only [MessageList.put] at hcount
            omega
        · simp only [hroom, false_and, iff_false]
          rintro ⟨r, s', happend, -⟩
          simp only [scSessionAppendMessage, hrole, hcontent, hgrow, dif_neg hroom] at happend
          exact absurd happend (Option.some_ne_none _).symm

end Append

/-- Every call of a run keeps the bounds exactly if every call has a slot. -/
theorem session_append_bounds_iff (s : MessageList) (cs : List AppendCall) :
    Machine.EveryStep appendStep KeepsBounds s cs ↔ Machine.EveryStep appendStep HasSlot s cs := by
  have hany : ∀ (t t' : MessageList) (c : AppendCall), True → appendStep t c = some t' → True :=
    fun _ _ _ _ _ => trivial
  exact Machine.everyStep_congr (fun t c t' => hany t t' c) (fun _ _ _ => keepsBounds_iff)
    trivial cs

/-! ## The message behind the block -/

/-- A session without a block. -/
def newSession : MessageList := ⟨[], 0, le_rfl, 0, 0⟩

/-- A first message that finds a block, but no memory for its content. -/
def lostContent : AppendCall :=
  ⟨some (.ofBytes (ascii "user")), some (.ofBytes (ascii "hi")), 1, true, false, ⟨noText, none⟩⟩

/-- The call fails, and the session has a message more. -/
theorem session_append_counts_lost :
    ¬ Machine.EveryStep appendStep KeepsBounds newSession [lostContent] ∧
      ∃ s', scSessionAppendMessage newSession lostContent = some (.error .outOfMemory, s') ∧
        newSession.messageCount = 0 ∧ s'.messageCount = 1 := by
  have happend : (scSessionAppendMessage newSession lostContent).map
      (fun r => (r.1, r.2.messageCount)) = some (.error .outOfMemory, 1) := by decide
  obtain ⟨⟨r, s'⟩, hs', hr⟩ := Option.map_eq_some_iff.mp happend
  simp only [Prod.mk.injEq] at hr
  obtain ⟨rfl, hcount⟩ := hr
  refine ⟨?_, s', hs', rfl, hcount⟩
  rintro ⟨hkeeps, -⟩
  rw [keepsBounds_iff] at hkeeps
  rcases hkeeps with h | h | h | h
  · exact absurd h (by decide)
  · exact absurd h (by decide)
  · exact absurd h.2 (by decide)
  · exact absurd h.2 (by decide)

end SeaClaw.Sessions
