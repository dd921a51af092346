import SeaClaw.Agent.CompactionPairs
import SeaClaw.Lib.CBuffer

/-!
# Compaction in place

The messages lie in slots, of which the first ones are in use. The summary is written into a
buffer whose size was added up before; then the slots of the summarised messages are freed, the
first of them takes the summary, and those behind are moved down.
-/

namespace SeaClaw.Agent

open SeaClaw.Lib

/-! ## The buffer of the summary -/

/-- A buffer, and how many octets of text stand at its front. -/
structure Written where
  buf : Bytes
  written : ℕ

/-- Octets written behind the text. -/
def Written.write (w : Written) (xs : Bytes) : Option Written :=
  (poke w.buf w.written xs).map fun buf => ⟨buf, w.written + xs.length⟩

/-- So many octets of a content that may be missing, written behind the text. -/
def Written.writeContent (w : Written) (content : Option Bytes) (contentLen : ℕ) :
    Option Written :=
  match content with
  | some s => if contentLen > 0 then w.write (s.take contentLen) else some w
  | none => some w

/-- A newline behind the text, where it fits. -/
def Written.writeNewline (w : Written) (total : ℕ) : Option Written :=
  if w.written < total then w.write [ch '\n'] else some w

/-- The loop of `build_summary` over the messages, with every write into the buffer. -/
def pokeSummary (maxSourceChars total : ℕ) : Written → List OwnedMessage → Option Written
  | w, [] => some w
  | w, m :: ms =>
    if w.written < maxSourceChars then
      let role := roleStr m.role
      if w.written + role.length + 2 ≥ total then some w
      else do
        let w ← w.write role
        let w ← w.write (ascii ": ")
        let contentLen := min m.contentLen 500
        let remaining := total - w.written
        let contentLen :=
          if remaining < contentLen + 1 then (if remaining > 0 then remaining - 1 else 0)
          else contentLen
        let w ← w.writeContent m.content contentLen
        let w ← w.writeNewline total
        pokeSummary maxSourceChars total w ms
    else some w

/-- `build_summary` in a buffer of `total + 1` octets that hold anything; no result stands for
a write outside of it. -/
def buildSummaryIn (junk : ℕ → UInt8) (messages : List OwnedMessage) (maxSourceChars : ℕ) :
    Option Bytes := do
  let total := min (summaryTotal maxSourceChars 0 messages) maxSourceChars
  let buf ← poke ((List.range (total + 1)).map junk) 0 [0]
  let w ← pokeSummary maxSourceChars total ⟨buf, 0⟩ messages
  poke w.buf w.written [0]

/-- A text stands at the front of a buffer of `total + 1` octets, with room for a terminator. -/
structure Written.Holds (w : Written) (total : ℕ) (text : Bytes) : Prop where
  starts : text <+: w.buf
  written : w.written = text.length
  size : w.buf.length = total + 1
  fits : text.length ≤ total

section Buffer

variable {w : Written} {total : ℕ} {text : Bytes}

/-- What fits is written behind the text. -/
theorem Written.Holds.write (h : w.Holds total text) {xs : Bytes}
    (hfits : text.length + xs.length ≤ total) :
    ∃ w', w.write xs = some w' ∧ w'.Holds total (text ++ xs) := by
  have hroom : text.length + xs.length ≤ w.buf.length := by
    rw [h.size]
    omega
  obtain ⟨buf, hpoke, hstarts, hlen⟩ := poke_prefix h.starts hroom
  refine ⟨⟨buf, text.length + xs.length⟩, ?_, hstarts, ?_, ?_, ?_⟩
  · rw [Written.write, h.written, hpoke, Option.map_some]
  · rw [List.length_append]
  · rw [hlen, h.size]
  · rw [List.length_append]
    exact hfits

/-- So does a content that is cut to what fits. -/
theorem Written.Holds.writeContent (h : w.Holds total text) (content : Option Bytes)
    {contentLen : ℕ} (hfits : text.length + contentLen ≤ total) :
    ∃ w', w.writeContent content contentLen = some w' ∧
      w'.Holds total (match content with
        | some s => if contentLen > 0 then text ++ s.take contentLen else text
        | none => text) := by
  cases content with
  | none => exact ⟨w, rfl, h⟩
  | some s =>
    rw [Written.writeContent]
    by_cases hpos : contentLen > 0
    · simp only [if_pos hpos]
      refine h.write ?_
      have htake := List.length_take_le contentLen s
      omega
    · simp only [if_neg hpos]
      exact ⟨w, rfl, h⟩

/-- The newline is written where there is room for it. -/
theorem Written.Holds.writeNewline (h : w.Holds total text) :
    ∃ w', w.writeNewline total = some w' ∧
      w'.Holds total (if text.length < total then text ++ [ch '\n'] else text) := by
  rw [Written.writeNewline, h.written]
  by_cases hroom : text.length < total
  · simp only [if_pos hroom]
    exact h.write hroom
  · simp only [if_neg hroom]
    exact ⟨w, rfl, h⟩

/-- The octets of a message that still fit with a newline. -/
theorem cut_le {contentLen remaining : ℕ} (hremaining : 0 < remaining) :
    (if remaining < contentLen + 1 then (if remaining > 0 then remaining - 1 else 0)
      else contentLen) + 1 ≤ remaining := by
  split_ifs <;> omega

/-- The loop never writes outside of the buffer, and the text in it is the summary. -/
theorem pokeSummary_holds (maxSourceChars : ℕ) (messages : List OwnedMessage)
    (h : w.Holds total text) :
    ∃ w', pokeSummary maxSourceChars total w messages = some w' ∧
      w'.Holds total (writeSummary maxSourceChars total text messages) := by
  induction messages generalizing w text with
  | nil => exact ⟨w, rfl, h⟩
  | cons m ms ih =>
    rw [pokeSummary, writeSummary, h.written]
    by_cases hmax : text.length < maxSourceChars
    · rw [if_pos hmax, if_pos hmax]
      by_cases hfull : text.length + (roleStr m.role).length + 2 ≥ total
      · rw [if_pos hfull, if_pos hfull]
        exact ⟨w, rfl, h⟩
      · have htwo : (ascii ": ").length = 2 := rfl
        obtain ⟨w₁, hw₁, h₁⟩ := @Written.Holds.write _ _ _ h (roleStr m.role) (by omega)
        obtain ⟨w₂, hw₂, h₂⟩ := @Written.Holds.write _ _ _ h₁ (ascii ": ")
          (by rw [List.length_append, htwo]; omega)
        have hlabel : (text ++ roleStr m.role ++ ascii ": ").length < total := by
          rw [List.length_append, List.length_append, htwo]
          omega
        have hcut := @cut_le (min m.contentLen 500) _ (Nat.sub_pos_of_lt hlabel)
        simp only [if_neg hfull, hw₁, hw₂, Option.bind_eq_bind, Option.bind_some, h₂.written]
        obtain ⟨w₃, hw₃, h₃⟩ := h₂.writeContent m.content (Nat.add_le_of_le_sub' hlabel.le
          ((Nat.le_succ _).trans hcut))
        obtain ⟨w₄, hw₄, h₄⟩ := h₃.writeNewline
        simp only [hw₃, hw₄, Option.bind_some]
        exact ih h₄
    · rw [if_neg hmax, if_neg hmax]
      exact ⟨w, rfl, h⟩

end Buffer

/-- Behind the terminator nothing is read. -/
theorem takeWhile_terminated {buf text : Bytes} (h : text ++ [0] <+: buf) :
    buf.takeWhile (· ≠ 0) = text.takeWhile (· ≠ 0) := by
  obtain ⟨tail, rfl⟩ := h
  rw [List.append_assoc, List.takeWhile_append]
  split_ifs with hall
  · rw [List.singleton_append, List.takeWhile_cons_of_neg (by simp), List.append_nil]
    exact ((List.takeWhile_prefix _).eq_of_length hall).symm
  · rfl

/-- `build_summary` never writes outside of its buffer, whose text is the summary. -/
theorem buildSummaryIn_eq (junk : ℕ → UInt8) (messages : List OwnedMessage)
    (maxSourceChars : ℕ) :
    ∃ buf, buildSummaryIn junk messages maxSourceChars = some buf ∧
      buf.takeWhile (· ≠ 0) = (buildSummary messages maxSourceChars).takeWhile (· ≠ 0) := by
  obtain ⟨total, htotal⟩ :
      ∃ total, min (summaryTotal maxSourceChars 0 messages) maxSourceChars = total := ⟨_, rfl⟩
  obtain ⟨buf, hbuf, -, hlen⟩ := poke_prefix (b := (List.range (total + 1)).map junk)
    (p := []) (x := [0]) List.nil_prefix (by simp)
  rw [List.length_map, List.length_range] at hlen
  have hempty : (Written.mk buf 0).Holds total [] := ⟨List.nil_prefix, rfl, hlen, Nat.zero_le _⟩
  obtain ⟨w, hw, hholds⟩ := pokeSummary_holds maxSourceChars messages hempty
  obtain ⟨buf', hpoke, hterminated, -⟩ := poke_prefix (x := [0]) hholds.starts (by
    rw [hholds.size]
    exact Nat.add_le_add_right hholds.fits 1)
  refine ⟨buf', ?_, ?_⟩
  · rw [List.length_nil] at hbuf
    simp only [buildSummaryIn, htotal, hbuf, hw, Option.bind_eq_bind, Option.bind_some,
      hholds.written, hpoke]
  · rw [takeWhile_terminated hterminated, buildSummary, htotal]

/-! ## The slots -/

/-- The slots of a history, of which the first ones are in use. -/
structure HistorySlots where
  slots : List OwnedMessage
  count : ℕ
  count_le : count ≤ slots.length

/-- The messages in the slots. -/
def HistorySlots.history (h : HistorySlots) : List OwnedMessage := h.slots.take h.count

theorem HistorySlots.length_history (h : HistorySlots) : h.history.length = h.count :=
  List.length_take_of_le h.count_le

theorem length_of_none (n : ℕ) (s : Bytes) (h : none = some s) : s.length = n :=
  absurd h (Option.some_ne_none s).symm

/-- What `free_messages` leaves of a message. -/
def freeMessage (m : OwnedMessage) : OwnedMessage where
  role := m.role
  content := none
  contentLen := m.contentLen
  name := none
  toolCallId := none
  toolCalls := []
  contentParts := []
  length_eq := length_of_none m.contentLen

/-- `free_messages` -/
def freeMessages (slots : List OwnedMessage) (start stop : ℕ) : List OwnedMessage :=
  slots.mapIdx fun i m => if start ≤ i ∧ i < stop then freeMessage m else m

/-- The summary written into a slot; the parts of its content are not touched. -/
def putSummary (content : Bytes) (m : OwnedMessage) : OwnedMessage where
  role := .assistant
  content := some content
  contentLen := content.length
  name := none
  toolCallId := none
  toolCalls := []
  contentParts := m.contentParts
  length_eq := length_content_of_eq content

/-- `memmove(&slots[dst], &slots[src], n)` -/
def moveSlots (slots : List OwnedMessage) (dst src n : ℕ) : List OwnedMessage :=
  slots.mapIdx fun i m => if dst ≤ i ∧ i < dst + n then slots.getD (i - dst + src) m else m

/-- The slots when the messages from `start` to `compactEnd` gave way to a summary. -/
def replaceSlots (slots : List OwnedMessage) (count start compactEnd : ℕ) (content : Bytes) :
    List OwnedMessage :=
  let slots := (freeMessages slots start compactEnd).modify start (putSummary content)
  if compactEnd > start + 1 ∧ count - compactEnd > 0 then
    moveSlots slots (start + 1) compactEnd (count - compactEnd)
  else slots

theorem length_replaceSlots (slots : List OwnedMessage) (count start compactEnd : ℕ)
    (content : Bytes) : (replaceSlots slots count start compactEnd content).length =
      slots.length := by
  rw [replaceSlots]
  split_ifs
  · rw [moveSlots, List.length_mapIdx, List.length_modify, freeMessages, List.length_mapIdx]
  · rw [List.length_modify, freeMessages, List.length_mapIdx]

theorem count_replaceSlots_le (h : HistorySlots) (start compactEnd : ℕ) (content : Bytes) :
    h.count - (compactEnd - start - 1) ≤
      (replaceSlots h.slots h.count start compactEnd content).length := by
  rw [length_replaceSlots]
  exact (Nat.sub_le _ _).trans h.count_le

/-- The history when the messages from `start` to `compactEnd` gave way to a summary. -/
def HistorySlots.replace (h : HistorySlots) (start compactEnd : ℕ) (content : Bytes) :
    HistorySlots where
  slots := replaceSlots h.slots h.count start compactEnd content
  count := h.count - (compactEnd - start - 1)
  count_le := count_replaceSlots_le h start compactEnd content

section Slots

variable {slots : List OwnedMessage} {count start compactEnd : ℕ} {content : Bytes}

/-- A slot outside of the freed ones is as it was. -/
theorem getElem?_freed_of_out {i : ℕ} (hi : i ≠ start) (h : i < start ∨ compactEnd ≤ i) :
    ((freeMessages slots start compactEnd).modify start (putSummary content))[i]? = slots[i]? := by
  have hout : ¬ (start ≤ i ∧ i < compactEnd) := by omega
  rw [List.getElem?_modify_ne _ _ (Ne.symm hi), freeMessages, List.getElem?_mapIdx]
  simp only [if_neg hout, Option.map_id']

/-- The first freed slot holds the summary. -/
theorem getElem?_freed_start (hlt : start < compactEnd) (hle : compactEnd ≤ slots.length) :
    ((freeMessages slots start compactEnd).modify start (putSummary content))[start]? =
      some (summaryMessage content) := by
  have hslot : slots[start]? = some slots[start] := List.getElem?_eq_getElem (by omega)
  rw [List.getElem?_modify_eq, freeMessages, List.getElem?_mapIdx, hslot, Option.map_some,
    if_pos ⟨le_refl start, hlt⟩]
  rfl

/-- What stands in the slots that stay in use. -/
theorem getElem?_replaceSlots (hlt : start < compactEnd) (hle : compactEnd ≤ count)
    (hcount : count ≤ slots.length) {i : ℕ} (hi : i < count - (compactEnd - start - 1)) :
    (replaceSlots slots count start compactEnd content)[i]? =
      if i < start then slots[i]?
      else if i = start then some (summaryMessage content)
      else slots[i - (start + 1) + compactEnd]? := by
  have hfreed : compactEnd ≤ slots.length := hle.trans hcount
  rw [replaceSlots]
  by_cases hmove : compactEnd > start + 1 ∧ count - compactEnd > 0
  · rw [if_pos hmove, moveSlots, List.getElem?_mapIdx]
    rcases Nat.lt_trichotomy i start with hbefore | rfl | hbehind
    · have hstay : ¬ (start + 1 ≤ i ∧ i < start + 1 + (count - compactEnd)) := by omega
      rw [getElem?_freed_of_out hbefore.ne (Or.inl hbefore), if_pos hbefore]
      simp only [if_neg hstay, Option.map_id']
    · have hstay : ¬ (i + 1 ≤ i ∧ i < i + 1 + (count - compactEnd)) := by omega
      rw [getElem?_freed_start hlt hfreed, if_neg (lt_irrefl i), if_pos rfl, Option.map_some,
        if_neg hstay]
    · have hmoved : start + 1 ≤ i ∧ i < start + 1 + (count - compactEnd) := by omega
      obtain ⟨j, hj⟩ : ∃ j, i - (start + 1) + compactEnd = j := ⟨_, rfl⟩
      have hsource := @getElem?_freed_of_out slots start compactEnd content j
        (show j ≠ start by omega) (Or.inr (show compactEnd ≤ j by omega))
      have hslot : slots[j]? = some slots[j] := List.getElem?_eq_getElem (by omega)
      have hhere : i < ((freeMessages slots start compactEnd).modify start
          (putSummary content)).length := by
        rw [List.length_modify, freeMessages, List.length_mapIdx]
        omega
      rw [hslot] at hsource
      rw [if_neg hbehind.not_gt, if_neg hbehind.ne', List.getElem?_eq_getElem hhere,
        Option.map_some, if_pos hmoved, hj, hslot, List.getD_eq_getElem?_getD, hsource,
        Option.getD_some]
  · rw [if_neg hmove]
    rcases Nat.lt_trichotomy i start with hbefore | rfl | hbehind
    · rw [getElem?_freed_of_out hbefore.ne (Or.inl hbefore), if_pos hbefore]
    · rw [getElem?_freed_start hlt hfreed, if_neg (lt_irrefl i), if_pos rfl]
    · have hone : compactEnd = start + 1 := by omega
      have hsame : i - (start + 1) + compactEnd = i := by omega
      rw [getElem?_freed_of_out hbehind.ne' (Or.inr (by omega)), if_neg hbehind.not_gt,
        if_neg hbehind.ne', hsame]

/-- In the slots in use stands the history with the summary in place of the freed messages. -/
theorem HistorySlots.history_replace (h : HistorySlots) (hlt : start < compactEnd)
    (hle : compactEnd ≤ h.count) :
    (h.replace start compactEnd content).history =
      replaceMessages h.history start compactEnd content := by
  have hcount := h.count_le
  have hbefore : (h.history.take start).length = start := by
    rw [List.length_take, h.length_history]
    omega
  apply List.ext_getElem?
  intro i
  by_cases hi : i < h.count - (compactEnd - start - 1)
  · have hslot : (h.replace start compactEnd content).history[i]? =
        (replaceSlots h.slots h.count start compactEnd content)[i]? :=
      List.getElem?_take_of_lt hi
    rw [hslot, getElem?_replaceSlots hlt hle hcount hi, replaceMessages]
    rcases Nat.lt_trichotomy i start with hi' | rfl | hi'
    · rw [if_pos hi', List.getElem?_append_left (hbefore.symm ▸ hi'),
        List.getElem?_take_of_lt hi', HistorySlots.history, List.getElem?_take_of_lt (by omega)]
    · rw [if_neg (lt_irrefl i), if_pos rfl, List.getElem?_append_right hbefore.le, hbefore,
        Nat.sub_self, List.getElem?_cons_zero]
    · obtain ⟨k, rfl⟩ := Nat.exists_eq_add_of_lt hi'
      have hk : start + k + 1 - start = k + 1 := by omega
      have hsource : start + k + 1 - (start + 1) + compactEnd = compactEnd + k := by omega
      rw [if_neg hi'.not_gt, if_neg hi'.ne', hsource,
        List.getElem?_append_right (by rw [hbefore]; omega), hbefore, hk,
        List.getElem?_cons_succ, List.getElem?_drop, HistorySlots.history,
        List.getElem?_take_of_lt (by omega)]
  · have hnone : (replaceMessages h.history start compactEnd content).length ≤ i := by
      rw [replaceMessages, List.length_append, hbefore, List.length_cons, List.length_drop,
        h.length_history]
      omega
    rw [List.getElem?_eq_none hnone, List.getElem?_eq_none]
    rw [HistorySlots.length_history]
    exact Nat.le_of_not_lt hi

end Slots

/-! ## Compaction -/

/-- `sc_compact_history` on the slots, with what it returns. No result stands for a write outside
of the buffer of the summary. -/
def scCompactHistoryInPlace (memory : CompactMemory) (junk : ℕ → UInt8) (h : HistorySlots)
    (config : CompactionConfig) : Option (Except ScError Unit × HistorySlots) :=
  if h.count = 0 then some (.ok (), h)
  else if scShouldCompact h.history config = false then some (.ok (), h)
  else
    let start := compactStart h.history
    let count := compactCount h.history config
    if count = 0 then some (.ok (), h)
    else
      let compactEnd := start + count
      let maxSrc := if config.maxSourceChars = 0 then 12000 else config.maxSourceChars
      let maxSum := if config.maxSummaryChars = 0 then 2000 else config.maxSummaryChars
      if memory.raw = false then some (.error .outOfMemory, h)
      else do
        let raw ← buildSummaryIn junk ((h.history.take compactEnd).drop start) maxSrc
        if memory.content = false then some (.error .outOfMemory, h)
        else
          let content := ascii "[Compaction summary]\n" ++ (raw.takeWhile (· ≠ 0)).take maxSum
          some (.ok (), h.replace start compactEnd content)

section Compaction

variable {memory : CompactMemory} {junk : ℕ → UInt8} {h : HistorySlots}
  {config : CompactionConfig}

/-- What should be compacted has more messages than are kept. -/
theorem keepRecent_lt_of_shouldCompact {history : List OwnedMessage}
    (hshould : scShouldCompact history config = true) :
    config.keepRecent < history.length - compactStart history := by
  by_contra hfew
  simp only [scShouldCompact, if_pos (Nat.le_of_not_lt hfew), Bool.false_eq_true] at hshould

/-- So some of them are compacted. -/
theorem compactCount_pos {history : List OwnedMessage}
    (hshould : scShouldCompact history config = true) : 0 < compactCount history config := by
  have hmany := keepRecent_lt_of_shouldCompact hshould
  have hmod := Nat.mod_le (history.length - compactStart history) (2 ^ 32)
  simp only [compactCount]
  split_ifs <;> omega

theorem compactCount_le (history : List OwnedMessage) (config : CompactionConfig) :
    compactCount history config ≤ history.length - compactStart history := by
  simp only [compactCount]
  exact Nat.sub_le _ _

/-- With fewer than `2 ^ 32` messages behind the system prompt, all but the recent ones are
compacted. -/
theorem compactCount_eq {history : List OwnedMessage}
    (hshould : scShouldCompact history config = true)
    (hfew : history.length - compactStart history < 2 ^ 32) :
    compactCount history config =
      history.length - compactStart history - config.keepRecent := by
  have hmany := keepRecent_lt_of_shouldCompact hshould
  simp only [compactCount, Nat.mod_eq_of_lt hfew, if_neg hmany.not_gt]

/-- The messages that a compaction summarises. -/
def compacted (history : List OwnedMessage) (config : CompactionConfig) : List OwnedMessage :=
  (history.take (compactStart history + compactCount history config)).drop (compactStart history)

/-- A compaction that succeeds puts the summary in the place of those messages. -/
theorem scCompactHistory_ok {history history' : List OwnedMessage}
    (hshould : scShouldCompact history config = true)
    (h : scCompactHistory memory history config = .ok history') :
    history' = replaceMessages history (compactStart history)
      (compactStart history + compactCount history config)
      (summaryContent (compacted history config) config) := by
  have hpos := compactCount_pos hshould
  have hmany := keepRecent_lt_of_shouldCompact hshould
  have hnonempty : history.length ≠ 0 := by omega
  simp only [scCompactHistory, if_neg hnonempty, hshould, Bool.true_eq_false, if_false,
    if_neg hpos.ne'] at h
  split_ifs at h
  exact (Except.ok.inj h).symm

/-- The slots hold what the compaction of the history is, and all that it returns is an error that
leaves them as they are. -/
theorem scCompactHistoryInPlace_eq (memory : CompactMemory) (junk : ℕ → UInt8) (h : HistorySlots)
    (hshould : scShouldCompact h.history config = true) :
    (scCompactHistoryInPlace memory junk h config = some (.error .outOfMemory, h) ∧
      scCompactHistory memory h.history config = .error .outOfMemory) ∨
    ∃ h', scCompactHistoryInPlace memory junk h config = some (.ok (), h') ∧
      scCompactHistory memory h.history config = .ok h'.history := by
  have hpos := compactCount_pos hshould
  have hle := compactCount_le h.history config
  have hmany := keepRecent_lt_of_shouldCompact hshould
  have hlen := h.length_history
  have hnonempty : h.count ≠ 0 := by omega
  simp only [scCompactHistoryInPlace, scCompactHistory, hlen, if_neg hnonempty, hshould,
    Bool.true_eq_false, if_false, if_neg hpos.ne', summaryContent]
  rcases memory with ⟨_ | _, content⟩
  · exact Or.inl ⟨rfl, rfl⟩
  · obtain ⟨buf, hbuf, htext⟩ := buildSummaryIn_eq junk
      ((h.history.take (compactStart h.history + compactCount h.history config)).drop
        (compactStart h.history))
      (if config.maxSourceChars = 0 then 12000 else config.maxSourceChars)
    simp only [hbuf, htext, Option.bind_eq_bind, Option.bind_some, Bool.true_eq_false, if_false]
    cases content with
    | false => exact Or.inl ⟨rfl, rfl⟩
    | true =>
      refine Or.inr ⟨_, rfl, ?_⟩
      rw [HistorySlots.history_replace h (by omega) (by omega)]
      rfl

/-- Behind its prefix a summary is no longer than allowed. -/
theorem exists_summaryContent (messages : List OwnedMessage) (config : CompactionConfig) :
    ∃ text : Bytes,
      text.length ≤ (if config.maxSummaryChars = 0 then 2000 else config.maxSummaryChars) ∧
        summaryContent messages config = ascii "[Compaction summary]\n" ++ text := by
  rw [summaryContent]
  exact ⟨_, List.length_take_le _ _, rfl⟩

/-- The history with a summary of some text in place of all but the recent messages. -/
def Summarised (history : List OwnedMessage) (keepRecent maxChars : ℕ)
    (history' : List OwnedMessage) : Prop :=
  ∃ text : Bytes, text.length ≤ maxChars ∧ history' = history.take (compactStart history) ++
    summaryMessage (ascii "[Compaction summary]\n" ++ text) ::
      history.drop (history.length - min keepRecent (history.length - compactStart history))

/-- A compaction never writes outside of its buffer. It leaves the system prompt, a summary of at
most so many octets and the recent messages, or it fails and leaves everything as it was. -/
theorem compaction_effect (memory : CompactMemory) (junk : ℕ → UInt8) (h : HistorySlots)
    (config : CompactionConfig) (hshould : scShouldCompact h.history config = true)
    (hfew : h.history.length - compactStart h.history < 2 ^ 32) :
    ∃ result h', scCompactHistoryInPlace memory junk h config = some (result, h') ∧
      (result = .ok () → Summarised h.history config.keepRecent
        (if config.maxSummaryChars = 0 then 2000 else config.maxSummaryChars) h'.history) ∧
      (result ≠ .ok () → h' = h) := by
  rcases scCompactHistoryInPlace_eq memory junk h hshould with
    ⟨hrun, -⟩ | ⟨h', hrun, hcompact⟩
  · refine ⟨_, _, hrun, ?_, fun _ => rfl⟩
    intro hok
    cases hok
  · refine ⟨_, _, hrun, fun _ => ?_, fun hne => absurd rfl hne⟩
    have hmany := keepRecent_lt_of_shouldCompact hshould
    have hcut : compactStart h.history + compactCount h.history config =
        h.history.length - min config.keepRecent
          (h.history.length - compactStart h.history) := by
      rw [compactCount_eq hshould hfew]
      omega
    obtain ⟨text, hlen, htext⟩ := exists_summaryContent (compacted h.history config) config
    refine ⟨text, hlen, ?_⟩
    rw [scCompactHistory_ok hshould hcompact, replaceMessages, htext, hcut]

end Compaction

/-- Three messages in their slots. -/
def oneCallSlots : HistorySlots := ⟨oneCall, 3, le_refl 3⟩

theorem compaction_effect_oneCall :
    ∃ result h',
      scCompactHistoryInPlace ⟨true, true⟩ (fun _ => 0) oneCallSlots (keepOne 1) =
        some (result, h') ∧
      (result = .ok () → Summarised oneCall 1 2000 h'.history) ∧
      (result ≠ .ok () → h' = oneCallSlots) :=
  compaction_effect ⟨true, true⟩ (fun _ => 0) oneCallSlots (keepOne 1) (by decide) (by decide)

/-- No octets asked for are two thousand of them. -/
theorem compaction_unasked_summary :
    ¬ ∀ (memory : CompactMemory) (junk : ℕ → UInt8) (h : HistorySlots) (config : CompactionConfig)
      (h' : HistorySlots), scShouldCompact h.history config = true →
        scCompactHistoryInPlace memory junk h config = some (.ok (), h') →
          Summarised h.history config.keepRecent config.maxSummaryChars h'.history := by
  intro hall
  obtain ⟨text, hlen, htext⟩ := hall ⟨true, true⟩ (fun _ => 0) oneCallSlots
    { keepOne 0 with maxSummaryChars := 0 } _ (by decide) rfl
  obtain rfl := List.length_eq_zero_iff.mp (Nat.le_zero.mp hlen)
  have hlens := congrArg (List.map OwnedMessage.contentLen) htext
  revert hlens
  decide

end SeaClaw.Agent
