import SeaClaw.Agent.CompactionTwice

/-!
# The target of a pressure compaction

The loop adds up the tokens of the messages one by one and stops at the first number of messages
with which the sum falls below the target. The estimate that the target is meant for adds up
octets, three more for every message, and the tokens of the parts.
-/

namespace SeaClaw.Agent

open SeaClaw.Lib

section Loop

variable {history history' : List OwnedMessage}

/-- So many messages are the first ones that the loop takes to be enough. -/
structure FirstEnough (history : List OwnedMessage) (targetTokens k : ℕ) : Prop where
  pos : 1 ≤ k
  enough : tokensLeft history (compactStart history) k < targetTokens
  first : ∀ j, 1 ≤ j → j < k → targetTokens ≤ tokensLeft history (compactStart history) j

theorem FirstEnough.unique {targetTokens k k' : ℕ} (h : FirstEnough history targetTokens k)
    (h' : FirstEnough history targetTokens k') : k = k' := by
  rcases Nat.lt_trichotomy k k' with hlt | heq | hgt
  · exact absurd h.enough (h'.first k h.pos hlt).not_gt
  · exact heq
  · exact absurd h'.enough (h.first k' h'.pos hgt).not_gt

end Loop

/-- Behind the system prompt there are a marker and the last message. -/
def OnlyLast (history history' : List OwnedMessage) : Prop :=
  ∃ marker m, history.getLast? = some m ∧
    history' = history.take (compactStart history) ++ [summaryMessage marker, m]

section Target

variable {history history' : List OwnedMessage}

theorem OnlyLast.kept {marker : Bytes} {kept : ℕ}
    (hle : kept + compactStart history ≤ history.length)
    (h : OnlyLast history (withSummary history kept marker)) : kept = 1 := by
  obtain ⟨marker', m, -, heq⟩ := h
  have hlen := congrArg List.length heq
  have hstart := compactStart_le history
  rw [length_withSummary hle, List.length_append, List.length_take_of_le hstart, List.length_cons,
    List.length_singleton] at hlen
  omega

end Target

end SeaClaw.Agent
