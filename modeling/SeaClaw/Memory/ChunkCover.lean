import SeaClaw.Memory.ChunkBreaks
import Mathlib.Logic.Relation

/-!
# The chunks of a text

A chunk ends where the text is split, and the next one starts there or an overlap before. The
chunks always cover the text; they keep the size if every start has a split within the size, and
the array holds them if the starts are few enough.
-/

namespace SeaClaw.Memory.Chunker

open SeaClaw.Lib Relation

variable {opts : ChunkerOptions} {text : Bytes} {p : ℕ}

/-! ## Starts of chunks -/

/-- A chunk that starts at `p` is followed by one that starts at `p'`. -/
def NextStart (opts : ChunkerOptions) (text : Bytes) (p p' : ℕ) : Prop :=
  ∃ d, opts.maxChunk < text.length - p ∧
    SplitsAt opts.maxChunk (opts.maxChunk / 4) (text.drop p) d ∧ p + d < text.length ∧
    p' = opts.advance p d

/-- Every start that is not close to the end has a split within the size. -/
def CutsWithin (opts : ChunkerOptions) (text : Bytes) : Prop :=
  ∀ p, ReflTransGen (NextStart opts text) 0 p → opts.maxChunk < text.length - p →
    ∃ d ≤ opts.maxChunk, SplitsAt opts.maxChunk (opts.maxChunk / 4) (text.drop p) d

/-- No starts that follow each other from the first one on are more than the array holds. -/
def FitsArray (opts : ChunkerOptions) (text : Bytes) : Prop :=
  ∀ ps : List ℕ, ps.IsChain (NextStart opts text) → ps.head? = some 0 →
    ps.length ≤ opts.capacity text.length

/-- The length of the chunk that starts at `p`. -/
def chunkLen (opts : ChunkerOptions) (text : Bytes) (p : ℕ) : ℕ :=
  if text.length - p ≤ opts.maxChunk then text.length - p
  else findSplitPoint (text.drop p) opts.maxChunk (opts.maxChunk / 4)

/-- The chunk that starts at `p`. -/
def chunkAt (opts : ChunkerOptions) (text : Bytes) (p : ℕ) : TextChunk :=
  ⟨(text.drop p).take (chunkLen opts text p), p⟩

/-- A chunk is neither empty nor does it go behind the end. -/
theorem chunkLen_bounds (hp : p < text.length) :
    0 < chunkLen opts text p ∧ p + chunkLen opts text p ≤ text.length := by
  unfold chunkLen
  split_ifs with hclose
  · omega
  · rcases findSplitPoint_spec (text.drop p) opts.maxChunk (opts.maxChunk / 4) with h | ⟨-, h⟩
    · have hbounds := h.bounds
      rw [List.length_drop] at hbounds
      omega
    · rw [h, List.length_drop]
      omega

theorem length_chunkAt (hp : p < text.length) :
    (chunkAt opts text p).text.length = chunkLen opts text p := by
  rw [chunkAt, List.length_take, List.length_drop]
  have hbounds : 0 < chunkLen opts text p ∧ p + chunkLen opts text p ≤ text.length :=
    chunkLen_bounds hp
  omega

/-- The next start is behind the start, and not behind the end of the chunk. -/
theorem ChunkerOptions.advance_bounds (opts : ChunkerOptions) (p : ℕ) {d : ℕ} (hd : 0 < d) :
    p < opts.advance p d ∧ opts.advance p d ≤ p + d := by
  unfold ChunkerOptions.advance
  split_ifs <;> omega

/-- One start follows another if the chunk between them does not reach the end. -/
theorem nextStart_iff {p' : ℕ} (hp : p < text.length) : NextStart opts text p p' ↔
    p + chunkLen opts text p < text.length ∧ p' = opts.advance p (chunkLen opts text p) := by
  unfold chunkLen
  split_ifs with hclose
  · constructor
    · rintro ⟨d, hfar, -⟩
      omega
    · rintro ⟨h, -⟩
      omega
  · constructor
    · rintro ⟨d, -, hsplit, hend, rfl⟩
      rw [hsplit.findSplitPoint_eq]
      exact ⟨hend, rfl⟩
    · rintro ⟨hend, rfl⟩
      rcases findSplitPoint_spec (text.drop p) opts.maxChunk (opts.maxChunk / 4) with h | ⟨-, h⟩
      · exact ⟨_, not_le.mp hclose, h, hend, rfl⟩
      · rw [h, List.length_drop] at hend
        omega

/-! ## Runs of the loop -/

/-- The chunks that are written from the start `p` on. -/
inductive ChunksFrom (opts : ChunkerOptions) (text : Bytes) : ℕ → List TextChunk → Prop
  | last {p : ℕ} (hp : p < text.length) (hend : text.length ≤ p + chunkLen opts text p) :
      ChunksFrom opts text p [chunkAt opts text p]
  | next {p : ℕ} {l : List TextChunk} (hend : p + chunkLen opts text p < text.length)
      (h : ChunksFrom opts text (opts.advance p (chunkLen opts text p)) l) :
      ChunksFrom opts text p (chunkAt opts text p :: l)

theorem ChunksFrom.lt_length {l : List TextChunk} (h : ChunksFrom opts text p l) :
    p < text.length := by
  cases h with
  | last hp => exact hp
  | next hend => omega

/-- From every start on chunks are written. -/
theorem exists_chunksFrom (opts : ChunkerOptions) (hp : p < text.length) :
    ∃ l, ChunksFrom opts text p l := by
  induction hn : text.length - p using Nat.strong_induction_on generalizing p with
  | _ n ih =>
    have hpos : 0 < chunkLen opts text p := (chunkLen_bounds hp).1
    rcases le_or_gt text.length (p + chunkLen opts text p) with hend | hend
    · exact ⟨_, ChunksFrom.last hp hend⟩
    · obtain ⟨hlt, hle⟩ := opts.advance_bounds p hpos
      obtain ⟨l, hl⟩ := ih (text.length - opts.advance p (chunkLen opts text p)) (by omega)
        (by omega) rfl
      exact ⟨_, ChunksFrom.next hend hl⟩

/-- One round of the loop. -/
theorem chunkLoop_succ (rounds : ℕ) (l : List TextChunk) (hp : p < text.length)
    (hroom : l.length < opts.capacity text.length) :
    chunkLoop opts text (rounds + 1) p l =
      if text.length ≤ p + chunkLen opts text p then .chunks (l ++ [chunkAt opts text p])
      else chunkLoop opts text rounds (opts.advance p (chunkLen opts text p))
        (l ++ [chunkAt opts text p]) := by
  rw [chunkLoop, if_neg (not_le.mpr hp), if_neg (not_le.mpr hroom)]
  unfold chunkAt chunkLen
  by_cases hclose : text.length - p ≤ opts.maxChunk
  · have hall : text.length ≤ p + (text.length - p) := by omega
    have htake : (text.drop p).take (text.length - p) = text.drop p := by
      rw [← List.length_drop, List.take_length]
    simp only [if_pos hclose, if_pos hall, htake]
  · simp only [if_neg hclose]

/-- The loop ends with the chunks of the text as long as the array holds them. -/
theorem ChunksFrom.chunkLoop_eq {l : List TextChunk} (h : ChunksFrom opts text p l) :
    ∀ (rounds : ℕ) (before : List TextChunk), text.length < p + rounds →
      before.length ≤ opts.capacity text.length →
      chunkLoop opts text rounds p before =
        if before.length + l.length ≤ opts.capacity text.length then .chunks (before ++ l)
        else .undefined := by
  induction h with
  | @last p hp hend =>
    intro rounds before hrounds hbefore
    obtain ⟨rounds, rfl⟩ : ∃ n, rounds = n + 1 := ⟨rounds - 1, by omega⟩
    rcases hbefore.lt_or_eq with hroom | hfull
    · rw [chunkLoop_succ rounds before hp hroom, if_pos hend, if_pos]
      exact hroom
    · rw [chunkLoop, if_neg (not_le.mpr hp), if_pos hfull.ge, if_neg]
      rw [List.length_singleton]
      omega
  | @next p l hend h ih =>
    intro rounds before hrounds hbefore
    have hp : p < text.length := by omega
    obtain ⟨rounds, rfl⟩ : ∃ n, rounds = n + 1 := ⟨rounds - 1, by omega⟩
    rcases hbefore.lt_or_eq with hroom | hfull
    · have hpos : 0 < chunkLen opts text p := (chunkLen_bounds hp).1
      have hlt := (opts.advance_bounds p hpos).1
      have hlen : (before ++ [chunkAt opts text p]).length = before.length + 1 := by
        rw [List.length_append, List.length_singleton]
      rw [chunkLoop_succ rounds before hp hroom, if_neg (not_le.mpr hend),
        ih rounds _ (by omega) (by omega), hlen, List.length_cons, List.append_assoc,
        List.singleton_append, Nat.add_right_comm, Nat.add_assoc]
    · rw [chunkLoop, if_neg (not_le.mpr hp), if_pos hfull.ge, if_neg]
      rw [List.length_cons]
      omega

/-! ## What is written -/

/-- The chunks start at the starts. -/
theorem ChunksFrom.isChain {l : List TextChunk} (h : ChunksFrom opts text p l) :
    (l.map (·.offset)).IsChain (NextStart opts text) ∧
      (l.map (·.offset)).head? = some p := by
  induction h with
  | last => exact ⟨List.IsChain.singleton _, rfl⟩
  | @next p l hend h ih =>
    obtain ⟨hchain, hhead⟩ := ih
    refine ⟨?_, rfl⟩
    rw [List.map_cons, List.isChain_cons]
    refine ⟨?_, hchain⟩
    intro q hq
    rw [hhead, Option.mem_some_iff] at hq
    have hp : p < text.length := by omega
    have hnext : NextStart opts text p q := (nextStart_iff hp).mpr ⟨hend, hq.symm⟩
    exact hnext

/-- No starts that follow each other from a start on are more than the chunks. -/
theorem ChunksFrom.length_le {l : List TextChunk} (h : ChunksFrom opts text p l) (ps : List ℕ)
    (hchain : (p :: ps).IsChain (NextStart opts text)) : (p :: ps).length ≤ l.length := by
  induction h generalizing ps with
  | last hp hend =>
    cases ps with
    | nil => exact le_rfl
    | cons q ps =>
      have hnext := (nextStart_iff hp).mp (List.isChain_cons_cons.mp hchain).1
      omega
  | @next p l hend h ih =>
    cases ps with
    | nil => exact Nat.succ_le_succ (Nat.zero_le _)
    | cons q ps =>
      obtain ⟨hnext, hrest⟩ := List.isChain_cons_cons.mp hchain
      obtain ⟨-, rfl⟩ := (nextStart_iff (by omega)).mp hnext
      exact Nat.succ_le_succ (ih ps hrest)

/-- The array holds the chunks if and only if the starts are few enough. -/
theorem ChunksFrom.fitsArray_iff {l : List TextChunk} (h : ChunksFrom opts text 0 l) :
    FitsArray opts text ↔ l.length ≤ opts.capacity text.length := by
  constructor
  · intro hfits
    have hlen := hfits _ h.isChain.1 h.isChain.2
    rwa [List.length_map] at hlen
  · intro hlen ps hchain hhead
    obtain ⟨ps, rfl⟩ := List.head?_eq_some_iff.mp hhead
    exact (h.length_le ps hchain).trans hlen

/-- Every chunk that is written is the one of its start, and its start is reached. -/
theorem ChunksFrom.of_mem {l : List TextChunk} (h : ChunksFrom opts text p l) {c : TextChunk}
    (hc : c ∈ l) : c = chunkAt opts text c.offset ∧ c.offset < text.length ∧
      ReflTransGen (NextStart opts text) p c.offset := by
  induction h with
  | last hp =>
    obtain rfl := List.mem_singleton.mp hc
    exact ⟨rfl, hp, ReflTransGen.refl⟩
  | @next p l hend h ih =>
    have hp : p < text.length := by omega
    rcases List.mem_cons.mp hc with rfl | hc
    · exact ⟨rfl, hp, ReflTransGen.refl⟩
    · obtain ⟨heq, hlt, hreach⟩ := ih hc
      exact ⟨heq, hlt, ReflTransGen.head ((nextStart_iff hp).mpr ⟨hend, rfl⟩) hreach⟩

/-- For every start that is reached the chunk is written. -/
theorem ChunksFrom.mem {l : List TextChunk} (h : ChunksFrom opts text p l) {q : ℕ}
    (hreach : ReflTransGen (NextStart opts text) p q) : chunkAt opts text q ∈ l := by
  induction h with
  | last hp hend =>
    rcases ReflTransGen.cases_head hreach with rfl | ⟨p', hnext, -⟩
    · exact List.mem_singleton_self _
    · have hlt := (nextStart_iff hp).mp hnext
      omega
  | @next p l hend h ih =>
    rcases ReflTransGen.cases_head hreach with rfl | ⟨p', hnext, hrest⟩
    · exact List.mem_cons_self
    · obtain ⟨-, rfl⟩ := (nextStart_iff (by omega)).mp hnext
      exact List.mem_cons_of_mem _ (ih hrest)

/-! ## Covering the text -/

/-- The chunks cover the text from `p` on, each within the size. -/
structure Covers (size : ℕ) (text : Bytes) (l : List TextChunk) : Prop where
  first : l.head?.map (·.offset) = some 0
  next : l.IsChain fun a b => a.offset < b.offset ∧ b.offset ≤ a.offset + a.text.length
  last : l.getLast?.map (fun c => c.offset + c.text.length) = some text.length
  nonempty : ∀ c ∈ l, c.text ≠ []
  isText : ∀ c ∈ l, c.text <+: text.drop c.offset
  size : ∀ c ∈ l, c.text.length ≤ size

theorem ChunksFrom.head? {l : List TextChunk} (h : ChunksFrom opts text p l) :
    l.head? = some (chunkAt opts text p) := by
  cases h <;> rfl

/-- Each chunk starts behind the start of the one before, and not behind its end. -/
theorem ChunksFrom.isChain_offset {l : List TextChunk} (h : ChunksFrom opts text p l) :
    l.IsChain fun a b => a.offset < b.offset ∧ b.offset ≤ a.offset + a.text.length := by
  induction h with
  | last => exact List.IsChain.singleton _
  | @next p l hend h ih =>
    rw [List.isChain_cons]
    refine ⟨?_, ih⟩
    intro c hc
    rw [h.head?, Option.mem_some_iff] at hc
    subst hc
    have hp : p < text.length := by omega
    rw [length_chunkAt hp]
    exact opts.advance_bounds p (chunkLen_bounds hp).1

/-- The last chunk ends with the text. -/
theorem ChunksFrom.getLast? {l : List TextChunk} (h : ChunksFrom opts text p l) :
    l.getLast?.map (fun c => c.offset + c.text.length) = some text.length := by
  induction h with
  | @last p hp hend =>
    have hle : p + chunkLen opts text p ≤ text.length := (chunkLen_bounds hp).2
    rw [List.getLast?_singleton, Option.map_some, length_chunkAt hp]
    exact congrArg some (le_antisymm hle hend)
  | @next p l hend h ih =>
    have hne : l ≠ [] := by
      rintro rfl
      exact absurd h.head? (by simp)
    have hlast := List.getLast?_eq_some_getLast hne
    rw [hlast] at ih
    rw [List.getLast?_cons, hlast]
    exact ih

/-- The chunks cover the text within a size if and only if every start that is reached has a
chunk within the size. -/
theorem ChunksFrom.covers_iff {l : List TextChunk} (h : ChunksFrom opts text 0 l) (size : ℕ) :
    Covers size text l ↔ ∀ p, ReflTransGen (NextStart opts text) 0 p → p < text.length →
      chunkLen opts text p ≤ size := by
  constructor
  · intro hcovers p hreach hp
    have hsize := hcovers.size _ (h.mem hreach)
    rwa [length_chunkAt hp] at hsize
  · intro hsize
    refine ⟨?_, h.isChain_offset, h.getLast?, ?_, ?_, ?_⟩
    · rw [h.head?]
      rfl
    · intro c hc
      obtain ⟨heq, hlt, -⟩ := h.of_mem hc
      apply List.ne_nil_of_length_pos
      rw [heq, length_chunkAt hlt]
      exact (chunkLen_bounds hlt).1
    · intro c hc
      obtain ⟨heq, -, -⟩ := h.of_mem hc
      rw [heq]
      exact List.take_prefix _ _
    · intro c hc
      obtain ⟨heq, hlt, hreach⟩ := h.of_mem hc
      rw [heq, length_chunkAt hlt]
      exact hsize c.offset hreach hlt

/-- The chunks keep the size if and only if every start has a split within it. -/
theorem cutsWithin_iff : CutsWithin opts text ↔
    ∀ p, ReflTransGen (NextStart opts text) 0 p → p < text.length →
      chunkLen opts text p ≤ opts.maxChunk := by
  constructor
  · intro h p hreach hp
    unfold chunkLen
    split_ifs with hclose
    · exact hclose
    · obtain ⟨d, hd, hsplit⟩ := h p hreach (not_le.mp hclose)
      rwa [hsplit.findSplitPoint_eq]
  · intro h p hreach hfar
    have hlen := h p hreach (by omega)
    rw [chunkLen, if_neg (not_le.mpr hfar)] at hlen
    rcases findSplitPoint_spec (text.drop p) opts.maxChunk (opts.maxChunk / 4) with hs | ⟨-, hs⟩
    · exact ⟨_, hlen, hs⟩
    · rw [hs, List.length_drop] at hlen
      omega

/-! ## The whole call -/

/-- How a call with rounds enough ends. -/
theorem scChunkerSplit_eq {l : List TextChunk} (h : ChunksFrom opts text 0 l)
    (hhalf : opts.maxChunk / 2 ≠ 0) (allocated trimmed : Bool) {rounds : ℕ}
    (hrounds : text.length < rounds) :
    scChunkerSplit allocated trimmed rounds opts text =
      if allocated = false then .failed .outOfMemory
      else if opts.capacity text.length < l.length then .undefined
      else if trimmed = false then .failed .outOfMemory else .chunks l := by
  have htext : text ≠ [] := List.ne_nil_of_length_pos h.lt_length
  have hl : l ≠ [] := by
    rintro rfl
    exact absurd h.head? (by simp)
  have hloop := h.chunkLoop_eq rounds [] (by omega) (Nat.zero_le _)
  rw [List.length_nil, Nat.zero_add, List.nil_append] at hloop
  rw [scChunkerSplit, if_neg htext, if_neg hhalf, hloop]
  by_cases hroom : l.length ≤ opts.capacity text.length
  · simp only [if_pos hroom, if_neg (not_lt.mpr hroom), if_neg hl]
    cases allocated <;> cases trimmed <;> rfl
  · simp only [if_neg hroom, if_pos (not_le.mp hroom)]
    cases allocated <;> rfl

theorem half_ne_zero (hsize : 2 ≤ opts.maxChunkSize) : opts.maxChunk / 2 ≠ 0 := by
  rw [ChunkerOptions.maxChunk, if_pos (by omega)]
  omega

/-- A call returns chunks that cover the text within the size if and only if there is memory, the
array holds the chunks, and every start has a split within the size. -/
theorem scChunkerSplit_covers_iff (allocated trimmed : Bool) (rounds : ℕ) (opts : ChunkerOptions)
    (text : Bytes) (htext : text ≠ []) (hsize : 2 ≤ opts.maxChunkSize)
    (hrounds : text.length < rounds) :
    (∃ l, scChunkerSplit allocated trimmed rounds opts text = .chunks l ∧
        Covers opts.maxChunkSize text l) ↔
      (allocated = true ∧ trimmed = true) ∧ FitsArray opts text ∧ CutsWithin opts text := by
  obtain ⟨l, hl⟩ := exists_chunksFrom opts (List.length_pos_iff.mpr htext)
  have hmax : opts.maxChunkSize = opts.maxChunk := by
    rw [ChunkerOptions.maxChunk, if_pos (by omega)]
  rw [scChunkerSplit_eq hl (half_ne_zero hsize) allocated trimmed hrounds, hl.fitsArray_iff,
    cutsWithin_iff, ← hl.covers_iff, hmax]
  constructor
  · rintro ⟨l', heq, hcovers⟩
    split_ifs at heq with halloc hroom htrim
    obtain rfl := Outcome.chunks.inj heq
    exact ⟨⟨by simpa using halloc, by simpa using htrim⟩, not_lt.mp hroom, hcovers⟩
  · rintro ⟨⟨rfl, rfl⟩, hroom, hcovers⟩
    refine ⟨l, ?_, hcovers⟩
    rw [if_neg (by simp), if_neg (not_lt.mpr hroom), if_neg (by simp)]

/-- Words that are split with an overlap. -/
theorem scChunkerSplit_covers_words :
    (∃ l, scChunkerSplit true true 8 ⟨4, 1⟩ (ascii "one two") = .chunks l ∧
        Covers 4 (ascii "one two") l) ↔
      (true = true ∧ true = true) ∧ FitsArray ⟨4, 1⟩ (ascii "one two") ∧
        CutsWithin ⟨4, 1⟩ (ascii "one two") :=
  scChunkerSplit_covers_iff true true 8 ⟨4, 1⟩ (ascii "one two") (by decide) (by decide)
    (by decide)

/-- Three letters without a space are one chunk, whatever the size. -/
theorem scChunkerSplit_above_size :
    ¬ ∃ l, scChunkerSplit true true 4 ⟨2, 0⟩ (ascii "xxx") = .chunks l ∧
      Covers 2 (ascii "xxx") l := by
  rintro ⟨l, heq, hcovers⟩
  have hrun : scChunkerSplit true true 4 ⟨2, 0⟩ (ascii "xxx") = .chunks [⟨ascii "xxx", 0⟩] := rfl
  obtain rfl := Outcome.chunks.inj (hrun.symm.trans heq)
  exact absurd (hcovers.size _ (List.mem_singleton_self _)) (by decide)

end SeaClaw.Memory.Chunker
