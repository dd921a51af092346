import SeaClaw.Core.Error
import SeaClaw.Lib.Printf

/-!
# Compaction of the history

The oldest messages behind the system prompt give way to one message. Where the cut is, is
decided by counts of messages, or by estimates of tokens against a target. Lengths are those
of texts in memory and their sums do not wrap.
-/

namespace SeaClaw.Agent

open SeaClaw.Lib

/-! ## Messages -/

/-- `sc_role_t` -/
inductive Role where
  | system | user | assistant | tool
  deriving DecidableEq

/-- `sc_content_part_t`, with the lengths that an estimate reads. -/
inductive ContentPart where
  | text (len : ℕ)
  | imageUrl
  | imageBase64
  | audioBase64 (dataLen : ℕ)
  | videoUrl

/-- `sc_tool_call_t` -/
structure ToolCall where
  id : Option Bytes
  name : Option Bytes
  arguments : Option Bytes
  deriving DecidableEq

/-- `sc_owned_message_t`; a content that is there has the length that is stored. -/
structure OwnedMessage where
  role : Role
  content : Option Bytes
  contentLen : ℕ
  name : Option Bytes
  toolCallId : Option Bytes
  toolCalls : List ToolCall
  contentParts : List ContentPart
  length_eq : ∀ s, content = some s → s.length = contentLen

theorem length_content_of_eq (content : Bytes) (s : Bytes) (h : some content = some s) :
    s.length = content.length :=
  congrArg List.length (Option.some.inj h).symm

/-- `role_str` -/
def roleStr : Role → Bytes
  | .system => ascii "SYSTEM"
  | .user => ascii "USER"
  | .assistant => ascii "ASSISTANT"
  | .tool => ascii "TOOL"

/-- `sc_compaction_config_t` -/
structure CompactionConfig where
  keepRecent : ℕ
  maxSummaryChars : ℕ
  maxSourceChars : ℕ
  tokenLimit : ℕ
  maxHistoryMessages : ℕ

/-- `sc_compaction_config_default` -/
def scCompactionConfigDefault : CompactionConfig where
  keepRecent := 20
  maxSummaryChars := 2000
  maxSourceChars := 12000
  tokenLimit := 32000
  maxHistoryMessages := 50

/-! ## Estimates -/

/-- The case of `estimate_content_parts_tokens` for one part. -/
def partTokens : ContentPart → ℕ
  | .text len => len / 4
  | .imageUrl => 170
  | .imageBase64 => 170
  | .audioBase64 dataLen => dataLen / 1024 * 17
  | .videoUrl => 256

/-- `estimate_content_parts_tokens` -/
def estimateContentPartsTokens (parts : List ContentPart) : ℕ := (parts.map partTokens).sum

/-- `sc_estimate_tokens` -/
def scEstimateTokens (history : List OwnedMessage) : ℕ :=
  let totalChars := (history.map fun m => if m.contentParts = [] then m.contentLen else 0).sum
  let multimodalTokens := (history.map fun m => estimateContentPartsTokens m.contentParts).sum
  (totalChars + 3 * history.length) / 4 + multimodalTokens

/-- The first message is the system prompt. -/
def hasSystem (history : List OwnedMessage) : Bool :=
  match history with
  | [] => false
  | m :: _ => m.role = .system

/-- The place of the first message that may be compacted. -/
def compactStart (history : List OwnedMessage) : ℕ := if hasSystem history then 1 else 0

/-- `sc_should_compact` -/
def scShouldCompact (history : List OwnedMessage) (config : CompactionConfig) : Bool :=
  let nonSystemCount := history.length - compactStart history
  if nonSystemCount ≤ config.keepRecent then false
  else if nonSystemCount > config.maxHistoryMessages then true
  else if config.tokenLimit > 0 then
    scEstimateTokens history > config.tokenLimit * 3 % 2 ^ 64 / 4
  else false

/-! ## The summary -/

/-- The loop of `build_summary` that adds up lengths. -/
def summaryTotal (maxSourceChars : ℕ) : ℕ → List OwnedMessage → ℕ
  | total, [] => total
  | total, m :: ms =>
    if total < maxSourceChars then
      summaryTotal maxSourceChars
        (total + ((roleStr m.role).length + 2) + (min m.contentLen 500 + 1)) ms
    else total

/-- The loop of `build_summary` that writes into the buffer. -/
def writeSummary (maxSourceChars total : ℕ) : Bytes → List OwnedMessage → Bytes
  | buf, [] => buf
  | buf, m :: ms =>
    if buf.length < maxSourceChars then
      let role := roleStr m.role
      if buf.length + role.length + 2 ≥ total then buf
      else
        let buf := buf ++ role ++ ascii ": "
        let contentLen := min m.contentLen 500
        let remaining := total - buf.length
        let contentLen :=
          if remaining < contentLen + 1 then (if remaining > 0 then remaining - 1 else 0)
          else contentLen
        let buf :=
          match m.content with
          | some s => if contentLen > 0 then buf ++ s.take contentLen else buf
          | none => buf
        let buf := if buf.length < total then buf ++ [ch '\n'] else buf
        writeSummary maxSourceChars total buf ms
    else buf

/-- `build_summary` of some messages. -/
def buildSummary (messages : List OwnedMessage) (maxSourceChars : ℕ) : Bytes :=
  let total := min (summaryTotal maxSourceChars 0 messages) maxSourceChars
  writeSummary maxSourceChars total [] messages

/-- The message that takes the place of those that are compacted. -/
def summaryMessage (content : Bytes) : OwnedMessage where
  role := .assistant
  content := some content
  contentLen := content.length
  name := none
  toolCallId := none
  toolCalls := []
  contentParts := []
  length_eq := length_content_of_eq content

/-- The messages from `start` to `compactEnd` freed, the summary in the slot of the first, and
the rest shifted down behind it. -/
def replaceMessages (history : List OwnedMessage) (start compactEnd : ℕ) (content : Bytes) :
    List OwnedMessage :=
  history.take start ++ summaryMessage content :: history.drop compactEnd

/-! ## Compaction -/

/-- Which of the buffers of a compaction find memory. -/
structure CompactMemory where
  raw : Bool
  content : Bool

/-- How many messages `sc_compact_history` compacts, once it should. -/
def compactCount (history : List OwnedMessage) (config : CompactionConfig) : ℕ :=
  let nonSystem := history.length - compactStart history
  let keep :=
    if config.keepRecent > nonSystem % 2 ^ 32 then nonSystem % 2 ^ 32 else config.keepRecent
  nonSystem - keep

/-- The content of the summary of some messages. -/
def summaryContent (messages : List OwnedMessage) (config : CompactionConfig) : Bytes :=
  let maxSrc := if config.maxSourceChars = 0 then 12000 else config.maxSourceChars
  let maxSum := if config.maxSummaryChars = 0 then 2000 else config.maxSummaryChars
  let raw := (buildSummary messages maxSrc).takeWhile (· ≠ 0)
  ascii "[Compaction summary]\n" ++ raw.take maxSum

/-- `sc_compact_history` -/
def scCompactHistory (memory : CompactMemory) (history : List OwnedMessage)
    (config : CompactionConfig) : Except ScError (List OwnedMessage) :=
  if history.length = 0 then .ok history
  else if scShouldCompact history config = false then .ok history
  else
    let start := compactStart history
    let count := compactCount history config
    if count = 0 then .ok history
    else
      let compactEnd := start + count
      if memory.raw = false then .error .outOfMemory
      else if memory.content = false then .error .outOfMemory
      else
        let content := summaryContent ((history.take compactEnd).drop start) config
        .ok (replaceMessages history start compactEnd content)

/-- What floating point makes of the limits: whether so many tokens are below the target
pressure, and the number of tokens that is the target. -/
structure PressureTarget where
  below : ℕ → Bool
  targetTokens : ℕ

/-- The tokens that are left when so many messages are compacted. -/
def tokensLeft (history : List OwnedMessage) (start k : ℕ) : ℕ :=
  ((history.take start).map fun m => (m.contentLen + 3) / 4).sum +
    ((history.drop (start + k)).map fun m => (m.contentLen + 3) / 4).sum + 20

/-- The loop over the numbers of messages to compact. -/
def pressureLoop (history : List OwnedMessage) (start targetTokens : ℕ) : ℕ → List ℕ → ℕ
  | count, [] => count
  | _, k :: ks =>
    if tokensLeft history start k < targetTokens then k
    else pressureLoop history start targetTokens k ks

/-- How many messages `sc_context_compact_for_pressure` compacts. -/
def pressureCount (history : List OwnedMessage) (target : PressureTarget) : ℕ :=
  let start := compactStart history
  let nonSystem := history.length - start
  pressureLoop history start target.targetTokens 0 (List.range' 1 (nonSystem - 1))

/-- The content of the message that marks so many as compacted. -/
def pressureMarker (count : ℕ) : Bytes :=
  ascii "[Previous context compacted: " ++ fmtNat count ++ ascii " messages summarized]"

/-- `sc_context_compact_for_pressure` -/
def scContextCompactForPressure (memory : Bool) (history : List OwnedMessage) (maxTokens : ℕ)
    (target : PressureTarget) : Except ScError (List OwnedMessage) :=
  if maxTokens = 0 then .error .invalidArgument
  else if history.length = 0 then .ok history
  else if target.below (scEstimateTokens history) then .ok history
  else
    let start := compactStart history
    if history.length - start ≤ 1 then .ok history
    else
      let count := pressureCount history target
      if count = 0 then .ok history
      else
        let marker := pressureMarker count
        if marker.length ≥ 96 then .error .invalidArgument
        else if memory = false then .error .outOfMemory
        else .ok (replaceMessages history start (start + count) marker)

end SeaClaw.Agent
