import SeaClaw.Agent.CompactionInPlace
import SeaClaw.Lib.CString

/-!
# Compacting twice

A compacted history has the recent messages and the summary, one more than are kept. So it is
compacted again unless neither limit is exceeded any more, and then it is the summary alone that
is summarised.
-/

namespace SeaClaw.Agent

open SeaClaw.Lib

/-- The history after a call, which a call that fails leaves as it was. -/
def afterCompaction (memory : CompactMemory) (history : List OwnedMessage)
    (config : CompactionConfig) : List OwnedMessage :=
  match scCompactHistory memory history config with
  | .ok history' => history'
  | .error _ => history

/-! ## The summary of a summary -/

/-- What is left of a summary that is summarised alone. -/
def summaryOfSummary (content : Bytes) (config : CompactionConfig) : Bytes :=
  let maxSrc := if config.maxSourceChars = 0 then 12000 else config.maxSourceChars
  let maxSum := if config.maxSummaryChars = 0 then 2000 else config.maxSummaryChars
  ascii "[Compaction summary]\n" ++
    (if maxSrc ≤ 11 then []
      else ascii "ASSISTANT: " ++ content.take (min 500 (maxSrc - 12)) ++ ascii "\n").take maxSum

/-- The text of one assistant message, cut to fit. -/
theorem buildSummary_summaryMessage (content : Bytes) (maxSrc : ℕ) :
    buildSummary [summaryMessage content] maxSrc =
      if maxSrc ≤ 11 then []
      else ascii "ASSISTANT: " ++ content.take (min 500 (maxSrc - 12)) ++ ascii "\n" := by
  have hrole : (roleStr .assistant).length = 9 := rfl
  have hlabel : roleStr .assistant ++ ascii ": " = ascii "ASSISTANT: " := rfl
  by_cases hnone : maxSrc ≤ 11
  · rw [if_pos hnone, buildSummary, writeSummary]
    by_cases hpos : 0 < maxSrc
    · have hfull : 0 + 9 + 2 ≥ min (summaryTotal maxSrc 0 [summaryMessage content]) maxSrc := by
        omega
      simp only [List.length_nil, summaryMessage, hrole, if_pos hpos] at hfull ⊢
      rw [if_pos hfull]
    · rw [List.length_nil, if_neg hpos]
  · have htotal : summaryTotal maxSrc 0 [summaryMessage content] =
        12 + min content.length 500 := by
      rw [summaryTotal, if_pos (by omega), summaryTotal]
      simp only [summaryMessage, hrole]
      omega
    obtain ⟨total, hmin⟩ : ∃ total, min (12 + min content.length 500) maxSrc = total := ⟨_, rfl⟩
    obtain ⟨n, hn⟩ : ∃ n, min (min content.length 500) (maxSrc - 12) = n := ⟨_, rfl⟩
    have hroom : ¬ 0 + 9 + 2 ≥ total := by omega
    have heleven : (ascii "ASSISTANT: ").length = 11 := rfl
    have hcut : (if total - 11 < min content.length 500 + 1 then
        (if total - 11 > 0 then total - 11 - 1 else 0) else min content.length 500) = n := by
      split_ifs <;> omega
    have htake : content.take (min 500 (maxSrc - 12)) = content.take n := by
      apply List.take_eq_take_iff.mpr
      omega
    have hcontent : (if n > 0 then ascii "ASSISTANT: " ++ content.take n
        else ascii "ASSISTANT: ") = ascii "ASSISTANT: " ++ content.take n := by
      split_ifs with hpos
      · rfl
      · rw [Nat.eq_zero_of_not_pos hpos, List.take_zero, List.append_nil]
    have hnewline : (ascii "ASSISTANT: " ++ content.take n).length < total := by
      rw [List.length_append, heleven, List.length_take]
      omega
    rw [if_neg hnone, buildSummary, htotal, writeSummary, List.length_nil, if_pos (by omega)]
    simp only [summaryMessage, hrole, hmin, if_neg hroom, List.nil_append, hlabel, heleven, hcut,
      hcontent, if_pos hnewline, writeSummary, htake]
    rfl

theorem notMem_zero_summaryContent (messages : List OwnedMessage) (config : CompactionConfig) :
    0 ∉ summaryContent messages config := by
  intro hzero
  rw [summaryContent] at hzero
  rcases List.mem_append.mp hzero with hzero | hzero
  · revert hzero
    decide
  · exact zero_notMem_takeWhile _ (List.mem_of_mem_take hzero)

/-- A summary that is summarised alone: its text has no terminator inside. -/
theorem summaryContent_summaryMessage {content : Bytes} (hzero : 0 ∉ content)
    (config : CompactionConfig) :
    summaryContent [summaryMessage content] config = summaryOfSummary content config := by
  have hwhole : ∀ maxSrc, (buildSummary [summaryMessage content] maxSrc).takeWhile (· ≠ 0) =
      buildSummary [summaryMessage content] maxSrc := by
    intro maxSrc
    apply CString.octets_ofBytes.mpr
    rw [buildSummary_summaryMessage]
    split_ifs
    · exact List.not_mem_nil
    · simp only [List.mem_append, not_or]
      exact ⟨⟨by decide, fun h => hzero (List.mem_of_mem_take h)⟩, by decide⟩
  simp only [summaryContent, summaryOfSummary, hwhole]
  rw [buildSummary_summaryMessage]

/-! ## The compacted history -/

section Second

variable {history history' : List OwnedMessage} {config : CompactionConfig}

/-- How many messages are left behind the summary. -/
def keptCount (history : List OwnedMessage) (config : CompactionConfig) : ℕ :=
  let nonSystem := history.length - compactStart history
  if config.keepRecent > nonSystem % 2 ^ 32 then nonSystem % 2 ^ 32 else config.keepRecent

/-- The summary in front of the recent messages, behind the system prompt. -/
def withSummary (history : List OwnedMessage) (kept : ℕ) (content : Bytes) :
    List OwnedMessage :=
  replaceMessages history (compactStart history) (history.length - kept) content

theorem compactStart_le (history : List OwnedMessage) : compactStart history ≤ history.length := by
  cases history with
  | nil => simp [compactStart, hasSystem]
  | cons m ms =>
    rw [compactStart]
    split_ifs <;> simp

/-- The system prompt stays where it is, and no other message takes its place. -/
theorem compactStart_replaceMessages (history : List OwnedMessage) (compactEnd : ℕ)
    (content : Bytes) :
    compactStart (replaceMessages history (compactStart history) compactEnd content) =
      compactStart history := by
  cases history with
  | nil => rfl
  | cons m ms =>
    by_cases hrole : m.role = .system
    · have hstart : compactStart (m :: ms) = 1 := by simp [compactStart, hasSystem, hrole]
      rw [hstart, replaceMessages]
      simp [compactStart, hasSystem, hrole]
    · have hstart : compactStart (m :: ms) = 0 := by simp [compactStart, hasSystem, hrole]
      rw [hstart, replaceMessages]
      simp [compactStart, hasSystem, summaryMessage]

theorem length_withSummary {kept : ℕ}
    (hle : kept + compactStart history ≤ history.length) (content : Bytes) :
    (withSummary history kept content).length = compactStart history + 1 + kept := by
  rw [withSummary, replaceMessages, List.length_append, List.length_take, List.length_cons,
    List.length_drop]
  omega

/-- The octets of the messages that have no parts. -/
def plainChars (messages : List OwnedMessage) : ℕ :=
  (messages.map fun m => if m.contentParts = [] then m.contentLen else 0).sum

/-- The tokens of the parts. -/
def partsTokens (messages : List OwnedMessage) : ℕ :=
  (messages.map fun m => estimateContentPartsTokens m.contentParts).sum

/-- What the system prompt and the kept messages are estimated to take, together with a text of
some length between them. -/
def tokensWithSummary (history : List OwnedMessage) (kept textLen : ℕ) : ℕ :=
  let rest := history.take (compactStart history) ++ history.drop (history.length - kept)
  (plainChars rest + textLen + 3 * (rest.length + 1)) / 4 + partsTokens rest

theorem scEstimateTokens_withSummary (history : List OwnedMessage) (kept : ℕ) (content : Bytes) :
    scEstimateTokens (withSummary history kept content) =
      tokensWithSummary history kept content.length := by
  simp only [scEstimateTokens, tokensWithSummary, withSummary, replaceMessages, plainChars,
    partsTokens, List.map_append, List.map_cons, List.sum_append, List.sum_cons,
    List.length_append, List.length_cons, summaryMessage, if_true, estimateContentPartsTokens,
    List.map_nil, List.sum_nil, zero_add]
  congr 2
  omega

theorem keptCount_le (history : List OwnedMessage) (config : CompactionConfig) :
    keptCount history config ≤ history.length - compactStart history := by
  have hmod := Nat.mod_le (history.length - compactStart history) (2 ^ 32)
  simp only [keptCount]
  split_ifs <;> omega

theorem keptCount_add_le (history : List OwnedMessage) (config : CompactionConfig) :
    keptCount history config + compactStart history ≤ history.length := by
  have hkept := keptCount_le history config
  have hstart := compactStart_le history
  omega

/-- A compaction that succeeds leaves the summary and the kept messages. -/
theorem scCompactHistory_eq_withSummary {memory : CompactMemory}
    (hshould : scShouldCompact history config = true)
    (h : scCompactHistory memory history config = .ok history') :
    history' = withSummary history (keptCount history config)
      (summaryContent (compacted history config) config) := by
  have hkept := keptCount_le history config
  have hmany := keepRecent_lt_of_shouldCompact hshould
  have hcut : compactStart history + compactCount history config =
      history.length - keptCount history config := by
    have hcount : compactCount history config =
        history.length - compactStart history - keptCount history config := rfl
    omega
  rw [scCompactHistory_ok hshould h, withSummary, hcut]

theorem scCompactHistory_idle (memory : CompactMemory)
    (h : scShouldCompact history config = false) :
    scCompactHistory memory history config = .ok history := by
  simp only [scCompactHistory, h, if_true]
  split_ifs <;> rfl

theorem exists_scCompactHistory (history : List OwnedMessage) (config : CompactionConfig) :
    ∃ history', scCompactHistory ⟨true, true⟩ history config = .ok history' := by
  simp only [scCompactHistory, Bool.true_eq_false, if_false]
  split_ifs <;> exact ⟨_, rfl⟩

/-- A call changes nothing exactly if it should not compact, or if what it leaves is the same. -/
theorem afterCompaction_eq_iff (history : List OwnedMessage) (config : CompactionConfig) :
    (∀ memory, afterCompaction memory history config = history) ↔
      scShouldCompact history config = false ∨
        withSummary history (keptCount history config)
          (summaryContent (compacted history config) config) = history := by
  cases hshould : scShouldCompact history config with
  | false =>
    refine iff_of_true (fun memory => ?_) (Or.inl rfl)
    rw [afterCompaction, scCompactHistory_idle memory hshould]
  | true =>
    rw [or_iff_right (by simp)]
    constructor
    · intro h
      obtain ⟨history', hrun⟩ := exists_scCompactHistory history config
      have hsame := h ⟨true, true⟩
      simp only [afterCompaction, hrun] at hsame
      rw [← scCompactHistory_eq_withSummary hshould hrun, hsame]
    · intro h memory
      rw [afterCompaction]
      cases hrun : scCompactHistory memory history config with
      | error e => rfl
      | ok history' =>
        simp only
        rw [scCompactHistory_eq_withSummary hshould hrun, h]

/-- A summary in the place of a summary. -/
theorem withSummary_withSummary {kept : ℕ}
    (hle : kept + compactStart history ≤ history.length) (content content' : Bytes) :
    withSummary (withSummary history kept content) kept content' =
      withSummary history kept content' := by
  have hlen := length_withSummary hle content
  have hstart : compactStart (withSummary history kept content) = compactStart history :=
    compactStart_replaceMessages history _ content
  have hbefore : (history.take (compactStart history)).length = compactStart history :=
    List.length_take_of_le (by omega)
  have hcut : compactStart history + 1 + kept - kept = compactStart history + 1 := by omega
  rw [withSummary, hlen, hstart, hcut, replaceMessages]
  conv_lhs => rw [withSummary, replaceMessages]
  rw [List.take_left' hbefore, ← List.drop_drop, List.drop_left' hbefore, List.drop_succ_cons,
    List.drop_zero]
  rfl

/-- The messages that a second compaction summarises are the summary alone, if as many are kept as
before. -/
theorem compacted_withSummary {kept : ℕ}
    (hle : kept + compactStart history ≤ history.length) (content : Bytes)
    (hkept : keptCount (withSummary history kept content) config = kept) :
    compacted (withSummary history kept content) config = [summaryMessage content] := by
  have hlen := length_withSummary hle content
  have hstart : compactStart (withSummary history kept content) = compactStart history :=
    compactStart_replaceMessages history _ content
  have hcount : compactCount (withSummary history kept content) config = 1 := by
    have hsub : compactCount (withSummary history kept content) config =
        (withSummary history kept content).length -
          compactStart (withSummary history kept content) -
            keptCount (withSummary history kept content) config := rfl
    rw [hsub, hkept, hlen, hstart]
    omega
  have hbefore : (history.take (compactStart history)).length = compactStart history :=
    List.length_take_of_le (by omega)
  rw [compacted, hcount, hstart, withSummary, replaceMessages, List.drop_take,
    List.drop_left' hbefore]
  have hone : compactStart history + 1 - compactStart history = 1 := by omega
  rw [hone, List.take_succ_cons, List.take_zero]

theorem withSummary_inj {kept : ℕ} {content content' : Bytes} :
    withSummary history kept content = withSummary history kept content' ↔ content = content' := by
  constructor
  · intro h
    have htail := List.append_cancel_left h
    have hmessage := congrArg OwnedMessage.content (List.cons.inj htail).1
    exact Option.some.inj hmessage
  · rintro rfl
    rfl

/-- Once the recent messages alone are kept, a second summary leaves the same exactly if it is the
same text; with `2 ^ 32` messages behind the prompt none of them is kept. -/
theorem second_eq_iff {content : Bytes} (hzero : 0 ∉ content)
    (hle : config.keepRecent + compactStart history ≤ history.length)
    (hkeep : config.keepRecent < 2 ^ 32) :
    withSummary (withSummary history config.keepRecent content)
        (keptCount (withSummary history config.keepRecent content) config)
        (summaryContent (compacted (withSummary history config.keepRecent content) config)
          config) = withSummary history config.keepRecent content ↔
      config.keepRecent + 1 < 2 ^ 32 ∧ summaryOfSummary content config = content := by
  have hlen := length_withSummary hle content
  have hstart : compactStart (withSummary history config.keepRecent content) =
      compactStart history := compactStart_replaceMessages history _ content
  have hmany : compactStart history + 1 + config.keepRecent - compactStart history =
      config.keepRecent + 1 := by omega
  have hcount : keptCount (withSummary history config.keepRecent content) config =
      if config.keepRecent > (config.keepRecent + 1) % 2 ^ 32 then
        (config.keepRecent + 1) % 2 ^ 32 else config.keepRecent := by
    simp only [keptCount, hlen, hstart, hmany]
  by_cases hsmall : config.keepRecent + 1 < 2 ^ 32
  · have hsame : keptCount (withSummary history config.keepRecent content) config =
        config.keepRecent := by
      rw [hcount, Nat.mod_eq_of_lt hsmall, if_neg (by omega)]
    rw [compacted_withSummary hle content hsame, hsame, summaryContent_summaryMessage hzero,
      withSummary_withSummary hle, withSummary_inj, and_iff_right hsmall]
  · have hfull : config.keepRecent + 1 = 2 ^ 32 := by omega
    have hnone : keptCount (withSummary history config.keepRecent content) config = 0 := by
      rw [hcount, hfull, Nat.mod_self, if_pos (by omega)]
    refine iff_of_false (fun h => ?_) (fun h => hsmall h.1)
    have hshort := congrArg List.length h
    rw [hnone, length_withSummary (by rw [hstart, hlen]; omega), hlen, hstart] at hshort
    omega

/-- The limits, or the words, that keep a history as its first compaction leaves it. -/
def Settled (history : List OwnedMessage) (config : CompactionConfig) : Prop :=
  let content := summaryContent (compacted history config) config
  scShouldCompact history config = false ∨
    (history.length - compactStart history) % 2 ^ 32 < config.keepRecent ∨
    (config.keepRecent + 1 ≤ config.maxHistoryMessages ∧
      (config.tokenLimit = 0 ∨ tokensWithSummary history config.keepRecent content.length ≤
        config.tokenLimit * 3 % 2 ^ 64 / 4)) ∨
    (config.keepRecent + 1 < 2 ^ 32 ∧ summaryOfSummary content config = content)

/-- What is left should not be compacted again if it is not more than is kept, or if it is within
the limits. -/
theorem scShouldCompact_withSummary {kept : ℕ}
    (hle : kept + compactStart history ≤ history.length) (content : Bytes) :
    scShouldCompact (withSummary history kept content) config = false ↔
      kept < config.keepRecent ∨ (kept + 1 ≤ config.maxHistoryMessages ∧
        (config.tokenLimit = 0 ∨ tokensWithSummary history kept content.length ≤
          config.tokenLimit * 3 % 2 ^ 64 / 4)) := by
  have hstart : compactStart (withSummary history kept content) = compactStart history :=
    compactStart_replaceMessages history _ content
  have hmany : compactStart history + 1 + kept - compactStart history = kept + 1 := by omega
  simp only [scShouldCompact, length_withSummary hle, hstart, hmany, scEstimateTokens_withSummary]
  split_ifs with hfew hcount htokens
  · exact iff_of_true rfl (Or.inl (by omega))
  · exact iff_of_false (by simp) (by omega)
  · rw [decide_eq_false_iff_not]
    omega
  · exact iff_of_true rfl (Or.inr ⟨by omega, Or.inl (by omega)⟩)

/-- A second compaction changes nothing exactly if there was no first one, if the history that it
left is within the limits, or if the summary of its summary is no other text. -/
theorem compaction_idempotent_iff {memory : CompactMemory}
    (h : scCompactHistory memory history config = .ok history') :
    (∀ memory', afterCompaction memory' history' config = history') ↔
      Settled history config := by
  cases hshould : scShouldCompact history config with
  | false =>
    rw [scCompactHistory_idle memory hshould] at h
    obtain rfl := Except.ok.inj h
    refine iff_of_true ((afterCompaction_eq_iff history config).mpr (Or.inl hshould)) ?_
    exact Or.inl hshould
  | true =>
    obtain ⟨content, hcontent⟩ :
      ∃ content, summaryContent (compacted history config) config = content := ⟨_, rfl⟩
    obtain ⟨kept, hkept⟩ : ∃ kept, keptCount history config = kept := ⟨_, rfl⟩
    have hle := keptCount_add_le history config
    have hsummary := scCompactHistory_eq_withSummary hshould h
    rw [hkept] at hle
    rw [hkept, hcontent] at hsummary
    subst hsummary
    rw [afterCompaction_eq_iff, scShouldCompact_withSummary hle]
    simp only [Settled, hshould, hcontent, Bool.true_eq_false, false_or]
    by_cases hwrap : (history.length - compactStart history) % 2 ^ 32 < config.keepRecent
    · have hfew : kept < config.keepRecent := by
        rw [← hkept]
        simp only [keptCount, if_pos hwrap]
        exact hwrap
      exact iff_of_true (Or.inl (Or.inl hfew)) (Or.inl hwrap)
    · have hall : kept = config.keepRecent := by
        rw [← hkept]
        simp only [keptCount, if_neg hwrap]
      have hkeep : config.keepRecent < 2 ^ 32 :=
        (Nat.le_of_not_lt hwrap).trans_lt (Nat.mod_lt _ (Nat.two_pow_pos 32))
      have hzero := notMem_zero_summaryContent (compacted history config) config
      rw [hcontent] at hzero
      subst hall
      rw [second_eq_iff hzero hle hkeep, or_iff_right (lt_irrefl _), or_iff_right hwrap]

end Second

/-- A limit of two messages: the summary and the recent one are within it. -/
theorem compaction_idempotent_two :
    ∃ history', scCompactHistory ⟨true, true⟩ oneCall { keepOne 1 with maxHistoryMessages := 2 } =
        .ok history' ∧
      ((∀ memory', afterCompaction memory' history' { keepOne 1 with maxHistoryMessages := 2 } =
        history') ↔ Settled oneCall { keepOne 1 with maxHistoryMessages := 2 }) :=
  ⟨_, rfl, @compaction_idempotent_iff _ _ _ ⟨true, true⟩ rfl⟩

/-- A limit of one message: the summary is summarised with the next call. -/
theorem compaction_summarises_summary :
    ∃ history', scCompactHistory ⟨true, true⟩ oneCall (keepOne 1) = .ok history' ∧
      ∃ memory', afterCompaction memory' history' (keepOne 1) ≠ history' := by
  refine ⟨_, rfl, ⟨true, true⟩, fun h => ?_⟩
  have hcontents := congrArg (List.map OwnedMessage.contentLen) h
  revert hcontents
  decide

end SeaClaw.Agent
