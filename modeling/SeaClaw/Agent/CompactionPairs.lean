import SeaClaw.Agent.Compaction

/-!
# Tool calls across a cut

A tool message answers a call of an earlier assistant message. A cut that falls between the
two keeps the answer without its call: what is left is paired exactly if the messages behind
the cut are paired among themselves.
-/

namespace SeaClaw.Agent

open SeaClaw.Lib

/-- One of the earlier messages makes the call that a message answers. -/
def Answered (earlier : List OwnedMessage) (m : OwnedMessage) : Prop :=
  ∃ a ∈ earlier, a.role = .assistant ∧ ∃ c ∈ a.toolCalls, c.id ≠ none ∧ c.id = m.toolCallId

instance (earlier : List OwnedMessage) (m : OwnedMessage) : Decidable (Answered earlier m) :=
  inferInstanceAs (Decidable (∃ a ∈ earlier, _))

/-- Each tool message answers a call of an earlier assistant message. -/
def Paired (history : List OwnedMessage) : Prop :=
  ∀ i m, history[i]? = some m → m.role = .tool → Answered (history.take i) m

/-- A message that neither calls nor answers. -/
def Idle (m : OwnedMessage) : Prop := m.role ≠ .tool ∧ (m.role = .assistant → m.toolCalls = [])

section Idle

variable {m : OwnedMessage} {history : List OwnedMessage}

theorem answered_cons (h : Idle m) (earlier : List OwnedMessage) (x : OwnedMessage) :
    Answered (m :: earlier) x ↔ Answered earlier x := by
  constructor
  · rintro ⟨a, ha, hrole, c, hc, hid⟩
    rcases List.mem_cons.mp ha with rfl | ha
    · rw [h.2 hrole] at hc
      cases hc
    · exact ⟨a, ha, hrole, c, hc, hid⟩
  · rintro ⟨a, ha, hcall⟩
    exact ⟨a, List.mem_cons_of_mem m ha, hcall⟩

/-- A message in front that neither calls nor answers does not matter. -/
theorem paired_cons (h : Idle m) : Paired (m :: history) ↔ Paired history := by
  constructor
  · intro hp i x hx htool
    have hanswered := hp (i + 1) x (by rwa [List.getElem?_cons_succ]) htool
    rwa [List.take_succ_cons, answered_cons h] at hanswered
  · intro hp i x hx htool
    cases i with
    | zero =>
      rw [List.getElem?_cons_zero, Option.some.injEq] at hx
      subst hx
      exact absurd htool h.1
    | succ i =>
      rw [List.getElem?_cons_succ] at hx
      rw [List.take_succ_cons, answered_cons h]
      exact hp i x hx htool

theorem idle_summaryMessage (content : Bytes) : Idle (summaryMessage content) :=
  ⟨by simp [summaryMessage], fun _ => rfl⟩

/-- What stands in front of the summary is the system prompt or nothing. -/
theorem take_compactStart (history : List OwnedMessage) :
    history.take (compactStart history) = [] ∨
      ∃ m, history.take (compactStart history) = [m] ∧ Idle m := by
  cases history with
  | nil => exact Or.inl rfl
  | cons m ms =>
    rw [compactStart, hasSystem]
    by_cases hrole : m.role = .system
    · simp only [hrole, decide_true, if_true, List.take_succ_cons, List.take_zero]
      exact Or.inr ⟨m, rfl, by simp [hrole], by simp [hrole]⟩
    · simp only [hrole, decide_false, Bool.false_eq_true, if_false, List.take_zero]
      exact Or.inl trivial

/-- Behind the summary, messages are paired exactly if they are so among themselves. -/
theorem paired_replaceMessages (history : List OwnedMessage) (compactEnd : ℕ) (content : Bytes) :
    Paired (replaceMessages history (compactStart history) compactEnd content) ↔
      Paired (history.drop compactEnd) := by
  rw [replaceMessages]
  rcases take_compactStart history with hnone | ⟨m, hone, hidle⟩
  · rw [hnone, List.nil_append, paired_cons (idle_summaryMessage content)]
  · rw [hone, List.singleton_append, paired_cons hidle, paired_cons (idle_summaryMessage content)]

end Idle

/-! ## The cuts -/

/-- The place behind the messages that `sc_compact_history` compacts, zero where it compacts
none. -/
def historyCut (history : List OwnedMessage) (config : CompactionConfig) : ℕ :=
  if scShouldCompact history config = true ∧ compactCount history config ≠ 0 then
    compactStart history + compactCount history config
  else 0

/-- The place behind the messages that `sc_context_compact_for_pressure` compacts, zero where
it compacts none. -/
def pressureCut (history : List OwnedMessage) (target : PressureTarget) : ℕ :=
  if target.below (scEstimateTokens history) = false ∧ pressureCount history target ≠ 0 then
    compactStart history + pressureCount history target
  else 0

section Compaction

variable {history history' : List OwnedMessage}

theorem paired_scCompactHistory {memory : CompactMemory} {config : CompactionConfig}
    (h : scCompactHistory memory history config = .ok history') :
    Paired history' ↔ Paired (history.drop (historyCut history config)) := by
  simp only [scCompactHistory] at h
  rw [historyCut]
  split_ifs at h with hempty hshould hcount hraw
  · obtain rfl := Except.ok.inj h
    obtain rfl := List.length_eq_zero_iff.mp hempty
    rw [List.drop_nil]
  · obtain rfl := Except.ok.inj h
    rw [if_neg (by simp [hshould]), List.drop_zero]
  · obtain rfl := Except.ok.inj h
    rw [if_neg (by simp [hcount]), List.drop_zero]
  · obtain rfl := Except.ok.inj h
    rw [Bool.not_eq_false] at hshould
    rw [if_pos ⟨hshould, hcount⟩]
    exact paired_replaceMessages history _ _

theorem pressureCount_eq_zero {target : PressureTarget}
    (h : history.length - compactStart history ≤ 1) : pressureCount history target = 0 := by
  have hnone : history.length - compactStart history - 1 = 0 := by omega
  rw [pressureCount]
  simp only [hnone]
  rfl

theorem paired_scContextCompactForPressure {memory : Bool} {maxTokens : ℕ}
    {target : PressureTarget}
    (h : scContextCompactForPressure memory history maxTokens target = .ok history') :
    Paired history' ↔ Paired (history.drop (pressureCut history target)) := by
  simp only [scContextCompactForPressure] at h
  rw [pressureCut]
  split_ifs at h with hmax hempty hbelow hfew hcount hmarker hmemory
  · obtain rfl := Except.ok.inj h
    obtain rfl := List.length_eq_zero_iff.mp hempty
    rw [List.drop_nil]
  · obtain rfl := Except.ok.inj h
    rw [if_neg (by simp [hbelow]), List.drop_zero]
  · obtain rfl := Except.ok.inj h
    rw [if_neg (by simp [pressureCount_eq_zero hfew]), List.drop_zero]
  · obtain rfl := Except.ok.inj h
    rw [if_neg (by simp [hcount]), List.drop_zero]
  · obtain rfl := Except.ok.inj h
    rw [Bool.not_eq_true] at hbelow
    rw [if_pos ⟨hbelow, hcount⟩]
    exact paired_replaceMessages history _ _

end Compaction

/-- Whatever the history and the limits: what a compaction leaves is paired exactly if the
messages behind the cut are paired among themselves. -/
theorem compaction_paired_iff (history : List OwnedMessage) :
    (∀ memory config history', scCompactHistory memory history config = .ok history' →
      (Paired history' ↔ Paired (history.drop (historyCut history config)))) ∧
    ∀ memory maxTokens target history',
      scContextCompactForPressure memory history maxTokens target = .ok history' →
        (Paired history' ↔ Paired (history.drop (pressureCut history target))) :=
  ⟨fun _ _ _ => paired_scCompactHistory, fun _ _ _ _ => paired_scContextCompactForPressure⟩

/-- A message with a text. -/
def textMessage (role : Role) (content : Bytes) (toolCallId : Option Bytes)
    (toolCalls : List ToolCall) : OwnedMessage where
  role := role
  content := some content
  contentLen := content.length
  name := none
  toolCallId := toolCallId
  toolCalls := toolCalls
  contentParts := []
  length_eq := length_content_of_eq content

/-- A question, a call and its answer. -/
def oneCall : List OwnedMessage :=
  [textMessage .user (ascii "hi") none [],
    textMessage .assistant [] none [⟨some (ascii "1"), some (ascii "ls"), some (ascii "\x7b\x7d")⟩],
    textMessage .tool (ascii "ok") (some (ascii "1")) []]

/-- Limits that allow one message behind the summary. -/
def keepOne (keepRecent : ℕ) : CompactionConfig :=
  { scCompactionConfigDefault with keepRecent, maxHistoryMessages := 1 }

theorem oneCall_paired : Paired oneCall := by
  intro i m hm htool
  match i, hm with
  | 0, hm =>
    obtain rfl := Option.some.inj hm
    cases htool
  | 1, hm =>
    obtain rfl := Option.some.inj hm
    cases htool
  | 2, hm =>
    obtain rfl := Option.some.inj hm
    decide

/-- A cut in front of the call keeps it together with its answer. -/
theorem compaction_paired_two :
    ∃ history', scCompactHistory ⟨true, true⟩ oneCall (keepOne 2) = .ok history' ∧
      Paired history' := by
  refine ⟨_, rfl, ((compaction_paired_iff oneCall).1 ⟨true, true⟩ (keepOne 2) _ rfl).mpr ?_⟩
  have hcut : historyCut oneCall (keepOne 2) = 1 := by decide
  have hidle : Idle (textMessage .user (ascii "hi") none []) := ⟨by decide, fun _ => rfl⟩
  rw [hcut]
  exact (paired_cons hidle).mp oneCall_paired

/-- A cut behind the call keeps the answer alone. -/
theorem compaction_orphans_answer :
    Paired oneCall ∧
      ∃ history', scCompactHistory ⟨true, true⟩ oneCall (keepOne 1) = .ok history' ∧
        ¬ Paired history' := by
  refine ⟨oneCall_paired, _, rfl, fun h => ?_⟩
  have hanswered := h 1 (textMessage .tool (ascii "ok") (some (ascii "1")) []) rfl rfl
  revert hanswered
  decide

end SeaClaw.Agent
