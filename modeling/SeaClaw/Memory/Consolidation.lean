import SeaClaw.Lib.Marking
import SeaClaw.Lib.Strtol
import SeaClaw.Memory.Entry
import Mathlib.Data.Prod.Lex

/-!
# Consolidation

`sc_memory_consolidate` of `memory/consolidation.c`. Entries of similar content are thinned out,
entries older than the configured number of days go, and what is above the configured number is
removed from the oldest on. The memory is the list that its `list` returns, and `forget` takes
the entry with the key away.
-/

namespace SeaClaw.Memory

open SeaClaw.Lib

/-- An entry whose strings have their own lengths. -/
abbrev Entry := MemoryEntry Bytes

/-- `sc_consolidation_config_t`, without the factor that nothing reads. -/
structure ConsolidationConfig where
  decayDays : ℕ
  dedupThreshold : ℕ
  maxEntries : ℕ
  deriving DecidableEq

/-- `SC_CONS_MAX_TOKENS` -/
def scConsMaxTokens : ℕ := 64

/-- The loop of `tokenize` with room for `n` tokens: runs of octets above the space. -/
def tokenize : ℕ → Bytes → List Bytes
  | 0, _ => []
  | n + 1, s =>
    let t := s.dropWhile (· ≤ 0x20)
    if t = [] then [] else t.takeWhile (0x20 < ·) :: tokenize n (t.dropWhile (0x20 < ·))

/-- How many of the first tokens are among the second ones. -/
def sharedTokens (as bs : List Bytes) : ℕ := as.countP (bs.contains ·)

/-- `sc_similarity_score`; a null pointer is `none`. -/
def scSimilarityScore (a b : Option Bytes) : ℕ :=
  match a, b with
  | some a, some b =>
    if a = [] ∧ b = [] then 100
    else
      let as := tokenize scConsMaxTokens a
      let bs := tokenize scConsMaxTokens b
      if as = [] ∧ bs = [] then 100
      else if as = [] ∨ bs = [] then 0
      else
        let shared := sharedTokens as bs
        let totalUnique := as.length + bs.length - shared
        if totalUnique = 0 then 100 else shared * 100 / totalUnique
  | _, _ => 0

/-- A timestamp that is a null pointer or empty. -/
def noTimestamp (ts : Option Bytes) : Bool := ts.all (· = [])

/-- `strtol` of a timestamp. -/
def timestampValue (ts : Option Bytes) : ℤ := strtol10 (ts.getD [])

/-- `compare_timestamp` -/
def compareTimestamp (a b : Option Bytes) : ℤ :=
  if noTimestamp a then 1
  else if noTimestamp b then -1
  else if timestampValue a < timestampValue b then -1
  else if timestampValue b < timestampValue a then 1
  else 0

/-- One pair of the double loop, with the entry `i` of the outer one. -/
def dedupStep (threshold : ℕ) (entries : List Entry) (i : Fin entries.length)
    (m : Marks entries.length) (j : Fin entries.length) : Marks entries.length :=
  if m j then m
  else if threshold ≤ scSimilarityScore (entries.get i).content (entries.get j).content then
    if compareTimestamp (entries.get i).timestamp (entries.get j).timestamp ≤ 0 then mark m i else mark m j
  else m

/-- The inner loop. It goes on with `i` after having marked it. -/
def dedupRow (threshold : ℕ) (entries : List Entry) (m : Marks entries.length)
    (i : Fin entries.length) : Marks entries.length :=
  if m i then m else (later i).foldl (dedupStep threshold entries i) m

/-- The double loop over `to_forget`. -/
def dedupMarks (threshold : ℕ) (entries : List Entry) : Marks entries.length :=
  (List.finRange entries.length).foldl (dedupRow threshold entries) fun _ => false

/-- `now - (time_t)(decay_days * 86400)`, with the product of 32 bits. -/
def decayThreshold (config : ConsolidationConfig) (now : ℤ) : ℤ :=
  now - (config.decayDays * 86400 % 2 ^ 32 : ℕ)

/-- The time-based decay. -/
def decayMarks (config : ConsolidationConfig) (now : ℤ) (entries : List Entry)
    (m : Marks entries.length) : Marks entries.length := fun i =>
  m i || (0 < config.decayDays && !noTimestamp (entries.get i).timestamp &&
    0 < timestampValue (entries.get i).timestamp &&
    timestampValue (entries.get i).timestamp < decayThreshold config now)

/-- `forget` of the memory. -/
def forget (memory : List Entry) (key : Bytes) : List Entry := memory.filter (·.key ≠ some key)

/-- `if ((entries.get i).key) forget((entries.get i).key)` -/
def forgetEntry (memory : List Entry) (e : Entry) : List Entry :=
  match e.key with
  | some key => forget memory key
  | none => memory

/-- The loop that forgets what is marked. -/
def forgetMarked (memory entries : List Entry) (m : Marks entries.length) : List Entry :=
  (List.finRange entries.length).foldl
    (fun memory i => if m i then forgetEntry memory (entries.get i) else memory) memory

/-- The inner loop of the sort, with `x` at the outer index. -/
def sortRow (x : Entry) : List Entry → Entry × List Entry
  | [] => (x, [])
  | y :: l =>
    if 0 < compareTimestamp x.timestamp y.timestamp then ((sortRow y l).1, x :: (sortRow y l).2)
    else ((sortRow x l).1, y :: (sortRow x l).2)

/-- The sort by age with `n` turns of the outer loop. -/
def sortByAge : ℕ → List Entry → List Entry
  | n + 1, x :: l => (sortRow x l).1 :: sortByAge n (sortRow x l).2
  | _, l => l

/-- The last part: what is above `max_entries` is forgotten from the oldest on. -/
def evict (config : ConsolidationConfig) (memory : List Entry) : List Entry :=
  if memory.length ≤ config.maxEntries then memory
  else ((sortByAge memory.length memory).take (memory.length - config.maxEntries)).foldl
    forgetEntry memory

/-- The memory after the passes that mark entries. -/
def markedForgotten (config : ConsolidationConfig) (now : ℤ) (memory : List Entry) : List Entry :=
  forgetMarked memory memory (decayMarks config now memory (dedupMarks config.dedupThreshold memory))

/-- `sc_memory_consolidate`: the memory afterwards. -/
def scMemoryConsolidate (config : ConsolidationConfig) (now : ℤ) (memory : List Entry) :
    List Entry :=
  if memory = [] then memory else evict config (markedForgotten config now memory)

/-! ## The score -/

/-- A text is wholly similar to itself. -/
theorem scSimilarityScore_self (a : Bytes) : scSimilarityScore (some a) (some a) = 100 := by
  have hall : sharedTokens (tokenize scConsMaxTokens a) (tokenize scConsMaxTokens a) =
      (tokenize scConsMaxTokens a).length := by
    rw [sharedTokens, List.countP_eq_length]
    intro t ht
    exact List.contains_iff_mem.mpr ht
  simp only [scSimilarityScore, and_self, or_self, hall, Nat.add_sub_cancel]
  split_ifs with h1 h2 h3
  · rfl
  · rfl
  · rfl
  · exact Nat.mul_div_cancel_left 100 (Nat.pos_of_ne_zero h3)

theorem scSimilarityScore_none (b : Option Bytes) : scSimilarityScore none b = 0 := by
  cases b <;> rfl

/-- Whether the score of two contents in either order reaches the threshold. -/
def Similar (threshold : ℕ) (a b : Option Bytes) : Prop :=
  threshold ≤ scSimilarityScore a b ∨ threshold ≤ scSimilarityScore b a

instance (threshold : ℕ) (a b : Option Bytes) : Decidable (Similar threshold a b) :=
  inferInstanceAs (Decidable (_ ∨ _))

theorem Similar.symm {threshold : ℕ} {a b : Option Bytes} (h : Similar threshold a b) :
    Similar threshold b a := Or.symm h

theorem similar_self_iff {threshold : ℕ} (h : 0 < threshold) (a : Option Bytes) :
    Similar threshold a a ↔ threshold ≤ 100 ∧ a ≠ none := by
  cases a with
  | none =>
    rw [Similar, scSimilarityScore_none, or_self]
    simp
    omega
  | some a => simp [Similar, scSimilarityScore_self]

/-! ## The age -/

/-- When an entry was written, as `compare_timestamp` sees it: without a timestamp, last. -/
def writtenAt (ts : Option Bytes) : WithTop ℤ := if noTimestamp ts then ⊤ else timestampValue ts

/-- `compare_timestamp` takes the first entry for no newer than the second one. -/
theorem compareTimestamp_nonpos_iff (a b : Option Bytes) :
    compareTimestamp a b ≤ 0 ↔ writtenAt a ≠ ⊤ ∧ writtenAt a ≤ writtenAt b := by
  by_cases ha : noTimestamp a = true
  · simp [compareTimestamp, writtenAt, ha]
  · by_cases hb : noTimestamp b = true
    · simp [compareTimestamp, writtenAt, ha, hb]
    · simp only [compareTimestamp, writtenAt, ha, hb, if_false, Bool.false_eq_true, ne_eq,
        WithTop.coe_ne_top, not_false_eq_true, true_and, WithTop.coe_le_coe]
      split_ifs <;> omega

/-!
# What consolidation keeps

Each mark of the double loop is answered by an entry that is similar and comes later in one
order of all entries: by age, and among equal ages by the place in the list. The answer may be
marked itself, so the end of the chain of answers is what is kept, and it is similar to where
the chain began exactly when similarity is transitive.
-/

variable {threshold : ℕ} {entries : List Entry}

/-- The order in which entries answer for one another. Without a timestamp the first one wins. -/
def standing (entries : List Entry) (i : Fin entries.length) : WithTop ℤ ×ₗ ℤ :=
  toLex (writtenAt (entries.get i).timestamp,
    if writtenAt (entries.get i).timestamp = ⊤ then -(i.val : ℤ) else i.val)

theorem writtenAt_le_of_standing {x y : Fin entries.length}
    (h : standing entries x ≤ standing entries y) :
    writtenAt (entries.get x).timestamp ≤ writtenAt (entries.get y).timestamp := by
  rcases Prod.Lex.toLex_le_toLex.mp h with h | h
  · exact h.le
  · exact h.1.le

/-- The comparison of a pair is that of its standing. -/
theorem compareTimestamp_iff_standing {i j : Fin entries.length} (hij : i < j) :
    compareTimestamp (entries.get i).timestamp (entries.get j).timestamp ≤ 0 ↔
      standing entries i < standing entries j := by
  have hval : (i.val : ℤ) < j.val := by exact_mod_cast hij
  rw [compareTimestamp_nonpos_iff, standing, standing, Prod.Lex.toLex_lt_toLex]
  by_cases hi : writtenAt (entries.get i).timestamp = ⊤
  · simp only [hi, ne_eq, not_true_eq_false, false_and, if_true, not_top_lt, false_or, false_iff,
      not_and]
    intro hj
    rw [if_pos hj.symm]
    omega
  · rw [if_neg hi, le_iff_lt_or_eq]
    constructor
    · rintro ⟨-, hlt | heq⟩
      · exact Or.inl hlt
      · refine Or.inr ⟨heq, ?_⟩
        rw [if_neg (heq ▸ hi)]
        exact hval
    · rintro (hlt | ⟨heq, -⟩)
      · exact ⟨hi, Or.inl hlt⟩
      · exact ⟨hi, Or.inr heq⟩

theorem standing_injective (entries : List Entry) : Function.Injective (standing entries) := by
  intro i j h
  have hpair := toLex.injective h
  rw [Prod.mk.injEq] at hpair
  have hval : (i.val : ℤ) = j.val := by
    have hsecond := hpair.2
    rw [hpair.1] at hsecond
    split at hsecond <;> omega
  exact Fin.ext (by exact_mod_cast hval)

/-- One entry answers for another: it is similar and stands above it. -/
def Answers (threshold : ℕ) (entries : List Entry) (x y : Fin entries.length) : Prop :=
  Similar threshold (entries.get x).content (entries.get y).content ∧ standing entries x < standing entries y

theorem answered_dedupStep {i j : Fin entries.length} (hij : i < j) {m : Marks entries.length}
    (h : Answered (Answers threshold entries) m) :
    Answered (Answers threshold entries) (dedupStep threshold entries i m j) := by
  rw [dedupStep]
  split
  · exact h
  split
  · next hscore =>
    have hcmp := compareTimestamp_iff_standing hij
    split
    · next hle => exact h.mark ⟨Or.inl hscore, hcmp.mp hle⟩
    · next hgt =>
      refine h.mark ⟨Or.inr hscore, lt_of_le_of_ne (not_lt.mp (hcmp.not.mp hgt)) ?_⟩
      exact fun he => hij.ne' (standing_injective entries he)
  · exact h

theorem answered_dedupRow {i : Fin entries.length} {m : Marks entries.length}
    (h : Answered (Answers threshold entries) m) :
    Answered (Answers threshold entries) (dedupRow threshold entries m i) := by
  rw [dedupRow]
  split
  · exact h
  · exact foldl_keeps (fun m j hj hm => answered_dedupStep (mem_later.mp hj) hm) h

/-- Every mark of the double loop is answered. -/
theorem answered_dedupMarks (threshold : ℕ) (entries : List Entry) :
    Answered (Answers threshold entries) (dedupMarks threshold entries) :=
  foldl_keeps (fun _ _ _ hm => answered_dedupRow hm) (answered_none _)

/-! ## What is forgotten -/

/-- Every entry has a key of its own. -/
structure DistinctKeys (memory : List Entry) : Prop where
  present : ∀ e ∈ memory, e.key ≠ none
  nodup : (memory.map (·.key)).Nodup

theorem DistinctKeys.get_inj (h : DistinctKeys entries) {i j : Fin entries.length}
    (he : (entries.get i).key = (entries.get j).key) : i = j := by
  have hi : i.val < (entries.map (·.key)).length := by rw [List.length_map]; exact i.isLt
  have hj : j.val < (entries.map (·.key)).length := by rw [List.length_map]; exact j.isLt
  have hget : (entries.map (·.key)).get ⟨i, hi⟩ = (entries.map (·.key)).get ⟨j, hj⟩ := by
    simpa using he
  exact Fin.ext (Fin.mk.inj (List.nodup_iff_injective_get.mp h.nodup hget))

theorem mem_forgetEntry {memory : List Entry} {e x : Entry} (hkey : e.key ≠ none) :
    x ∈ forgetEntry memory e ↔ x ∈ memory ∧ x.key ≠ e.key := by
  obtain ⟨key, hk⟩ := Option.ne_none_iff_exists'.mp hkey
  simp only [forgetEntry, hk, forget, List.mem_filter, decide_eq_true_eq]

/-- What the loop leaves of a memory. -/
theorem mem_foldl_forget (hkeys : ∀ e ∈ entries, e.key ≠ none) {m : Marks entries.length}
    {l : List (Fin entries.length)} {memory : List Entry} {x : Entry} :
    x ∈ l.foldl (fun memory i => if m i then forgetEntry memory (entries.get i) else memory) memory ↔
      x ∈ memory ∧ ∀ i ∈ l, m i = true → x.key ≠ (entries.get i).key := by
  induction l generalizing memory with
  | nil => simp
  | cons i l ih =>
    rw [List.foldl_cons, ih, List.forall_mem_cons]
    by_cases hi : m i = true
    · rw [if_pos hi, mem_forgetEntry (e := entries.get i) (hkeys _ (List.getElem_mem _)), and_assoc]
      exact and_congr_right fun _ => and_congr_left fun _ => ⟨fun h _ => h, fun h => h hi⟩
    · rw [if_neg hi]
      exact and_congr_right fun _ => (and_iff_right fun htrue => absurd htrue hi).symm

/-- Exactly the marked entries are forgotten. -/
theorem mem_forgetMarked (h : DistinctKeys entries) {m : Marks entries.length} {x : Entry} :
    x ∈ forgetMarked entries entries m ↔ ∃ i : Fin entries.length, entries.get i = x ∧ m i = false := by
  rw [forgetMarked, mem_foldl_forget h.present]
  constructor
  · rintro ⟨hx, hall⟩
    obtain ⟨n, hn, rfl⟩ := List.mem_iff_getElem.mp hx
    refine ⟨⟨n, hn⟩, rfl, ?_⟩
    by_contra hm
    exact hall ⟨n, hn⟩ (List.mem_finRange _) (by simpa using hm) rfl
  · rintro ⟨i, rfl, hi⟩
    refine ⟨List.getElem_mem _, fun j _ hj he => ?_⟩
    rw [h.get_inj he, hj] at hi
    exact absurd hi (by simp)

/-- Without decay the marks are those of the double loop. -/
theorem decayMarks_zero {config : ConsolidationConfig} (h : config.decayDays = 0) (now : ℤ)
    (m : Marks entries.length) : decayMarks config now entries m = m := by
  funext i
  simp [decayMarks, h]

/-- Every entry that is gone is similar to one that is kept and not older. -/
def Represented (threshold : ℕ) (memory kept : List Entry) : Prop :=
  ∀ e ∈ memory, e ∉ kept → ∃ k ∈ kept, Similar threshold e.content k.content ∧
    writtenAt e.timestamp ≤ writtenAt k.timestamp

/-- Similarity is transitive on the contents. -/
def TransitiveOn (threshold : ℕ) (contents : Set (Option Bytes)) : Prop :=
  ∀ a ∈ contents, ∀ b ∈ contents, ∀ c ∈ contents,
    Similar threshold a b → Similar threshold b c → Similar threshold a c

/-- A chain of answers is one answer where similarity is transitive. -/
theorem answers_of_chain {contents : Set (Option Bytes)} (ht : TransitiveOn threshold contents)
    (hc : ∀ e ∈ entries, e.content ∈ contents) {x y : Fin entries.length}
    (h : Relation.TransGen (Answers threshold entries) x y) : Answers threshold entries x y := by
  have hmem (i : Fin entries.length) : (entries.get i).content ∈ contents :=
    hc _ (List.getElem_mem _)
  induction h with
  | single h => exact h
  | tail _ h ih => exact ⟨ht _ (hmem _) _ (hmem _) _ (hmem _) ih.1 h.1, ih.2.trans h.2⟩

theorem represented_of_transitive {contents : Set (Option Bytes)}
    (ht : TransitiveOn threshold contents) (h : DistinctKeys entries)
    (hc : ∀ e ∈ entries, e.content ∈ contents) :
    Represented threshold entries
      (forgetMarked entries entries (dedupMarks threshold entries)) := by
  intro e he hgone
  obtain ⟨n, hn, rfl⟩ := List.mem_iff_getElem.mp he
  have hmarked : dedupMarks threshold entries ⟨n, hn⟩ = true := by
    by_contra hm
    exact hgone ((mem_forgetMarked h).mpr ⟨⟨n, hn⟩, rfl, by simpa using hm⟩)
  obtain ⟨y, hy, hchain⟩ := (answered_dedupMarks threshold entries).exists_unmarked
    (standing entries) (fun _ _ h => h.2) hmarked
  have hanswer := answers_of_chain ht hc hchain
  exact ⟨entries.get y, (mem_forgetMarked h).mpr ⟨y, rfl, hy⟩, hanswer.1,
    writtenAt_le_of_standing hanswer.2.le⟩

/-! ## Three entries -/

/-- An entry is lost when all that is kept is one that is not similar to it. -/
theorem not_represented {i k : Fin entries.length} (h : DistinctKeys entries)
    (hi : dedupMarks threshold entries i = true)
    (hk : ∀ j, j ≠ k → dedupMarks threshold entries j = true)
    (hne : ¬ Similar threshold (entries.get i).content (entries.get k).content) :
    ¬ Represented threshold entries
      (forgetMarked entries entries (dedupMarks threshold entries)) := by
  intro hrep
  have hgone : entries.get i ∉ forgetMarked entries entries (dedupMarks threshold entries) := by
    intro hmem
    obtain ⟨j, hj, hm⟩ := (mem_forgetMarked h).mp hmem
    rw [h.get_inj (congrArg MemoryEntry.key hj), hi] at hm
    exact absurd hm (by simp)
  obtain ⟨e, he, hsim, -⟩ := hrep _ (List.getElem_mem _) hgone
  obtain ⟨j, rfl, hj⟩ := (mem_forgetMarked h).mp he
  by_cases hjk : j = k
  · rw [hjk] at hsim
    exact hne hsim
  · rw [hk j hjk] at hj
    exact absurd hj (by simp)

theorem dedupStep_apart {i j : Fin entries.length} {m : Marks entries.length}
    (h : ¬ threshold ≤ scSimilarityScore (entries.get i).content (entries.get j).content) :
    dedupStep threshold entries i m j = m := by
  rw [dedupStep, if_neg h, ite_self]

theorem dedupStep_first {i j : Fin entries.length} {m : Marks entries.length} (hj : m j = false)
    (h : threshold ≤ scSimilarityScore (entries.get i).content (entries.get j).content)
    (hle : compareTimestamp (entries.get i).timestamp (entries.get j).timestamp ≤ 0) :
    dedupStep threshold entries i m j = mark m i := by
  rw [dedupStep, if_neg (by simp [hj]), if_pos h, if_pos hle]

theorem dedupStep_second {i j : Fin entries.length} {m : Marks entries.length} (hj : m j = false)
    (h : threshold ≤ scSimilarityScore (entries.get i).content (entries.get j).content)
    (hgt : ¬ compareTimestamp (entries.get i).timestamp (entries.get j).timestamp ≤ 0) :
    dedupStep threshold entries i m j = mark m j := by
  rw [dedupStep, if_neg (by simp [hj]), if_pos h, if_neg hgt]

variable {x y z : Entry}

/-- The first of three entries is answered by the second one, and that one by the third. -/
theorem dedupMarks_chain (hxy : threshold ≤ scSimilarityScore x.content y.content)
    (hxz : ¬ threshold ≤ scSimilarityScore x.content z.content)
    (hyz : threshold ≤ scSimilarityScore y.content z.content)
    (hx : compareTimestamp x.timestamp y.timestamp ≤ 0)
    (hy : compareTimestamp y.timestamp z.timestamp ≤ 0) :
    dedupMarks threshold [x, y, z] = mark (mark (fun _ => false) 0) 1 := by
  have h01 : dedupStep threshold [x, y, z] 0 (fun _ => false) 1 = mark (fun _ => false) 0 :=
    dedupStep_first rfl hxy hx
  have h02 : dedupStep threshold [x, y, z] 0 (mark (fun _ => false) 0) 2 = mark (fun _ => false) 0 :=
    dedupStep_apart hxz
  have h12 : dedupStep threshold [x, y, z] 1 (mark (fun _ => false) 0) 2 =
      mark (mark (fun _ => false) 0) 1 := dedupStep_first rfl hyz hy
  change dedupRow threshold [x, y, z] (dedupRow threshold [x, y, z]
    (dedupStep threshold [x, y, z] 0 (dedupStep threshold [x, y, z] 0 (fun _ => false) 1) 2) 1) 2 = _
  rw [h01, h02]
  change dedupRow threshold [x, y, z]
    (dedupStep threshold [x, y, z] 1 (mark (fun _ => false) 0) 2) 2 = _
  rw [h12]
  rfl

/-- The second one comes last in the list. -/
theorem dedupMarks_fork (hxz : ¬ threshold ≤ scSimilarityScore x.content z.content)
    (hxy : threshold ≤ scSimilarityScore x.content y.content)
    (hzy : threshold ≤ scSimilarityScore z.content y.content)
    (hx : compareTimestamp x.timestamp y.timestamp ≤ 0)
    (hz : ¬ compareTimestamp z.timestamp y.timestamp ≤ 0) :
    dedupMarks threshold [x, z, y] = mark (mark (fun _ => false) 0) 2 := by
  have h01 : dedupStep threshold [x, z, y] 0 (fun _ => false) 1 = fun _ => false :=
    dedupStep_apart hxz
  have h02 : dedupStep threshold [x, z, y] 0 (fun _ => false) 2 = mark (fun _ => false) 0 :=
    dedupStep_first rfl hxy hx
  have h12 : dedupStep threshold [x, z, y] 1 (mark (fun _ => false) 0) 2 =
      mark (mark (fun _ => false) 0) 2 := dedupStep_second rfl hzy hz
  change dedupRow threshold [x, z, y] (dedupRow threshold [x, z, y]
    (dedupStep threshold [x, z, y] 0 (dedupStep threshold [x, z, y] 0 (fun _ => false) 1) 2) 1) 2 = _
  rw [h01, h02]
  change dedupRow threshold [x, z, y]
    (dedupStep threshold [x, z, y] 1 (mark (fun _ => false) 0) 2) 2 = _
  rw [h12]
  rfl

/-- The second one comes first in the list. -/
theorem dedupMarks_middle (hyx : threshold ≤ scSimilarityScore y.content x.content)
    (hyz : threshold ≤ scSimilarityScore y.content z.content)
    (hx : ¬ compareTimestamp y.timestamp x.timestamp ≤ 0)
    (hz : compareTimestamp y.timestamp z.timestamp ≤ 0) :
    dedupMarks threshold [y, x, z] = mark (mark (fun _ => false) 1) 0 := by
  have h01 : dedupStep threshold [y, x, z] 0 (fun _ => false) 1 = mark (fun _ => false) 1 :=
    dedupStep_second rfl hyx hx
  have h02 : dedupStep threshold [y, x, z] 0 (mark (fun _ => false) 1) 2 =
      mark (mark (fun _ => false) 1) 0 := dedupStep_first rfl hyz hz
  change dedupRow threshold [y, x, z] (dedupRow threshold [y, x, z]
    (dedupStep threshold [y, x, z] 0 (dedupStep threshold [y, x, z] 0 (fun _ => false) 1) 2) 1) 2 = _
  rw [h01, h02]
  rfl

/-- An entry with the given key, content and time. -/
def entryAt (key : UInt8) (content : Option Bytes) (time : Char) : Entry where
  id := none
  key := some [key]
  content := content
  category := ⟨.core, none⟩
  timestamp := some [ch time]
  sessionId := none
  score := .nan false

theorem distinctKeys_three (a b c : Option Bytes) (s t u : Char) :
    DistinctKeys [entryAt 0 a s, entryAt 1 b t, entryAt 2 c u] := by
  constructor
  · simp [entryAt]
  · simp [entryAt]

/-- Where similarity is not transitive, some memory loses an entry. -/
theorem exists_not_represented {a b c : Option Bytes} (hab : Similar threshold a b)
    (hbc : Similar threshold b c) (hac : ¬ Similar threshold a c) :
    ∃ memory, DistinctKeys memory ∧ (∀ e ∈ memory, e.content = a ∨ e.content = b ∨ e.content = c) ∧
      ¬ Represented threshold memory (forgetMarked memory memory (dedupMarks threshold memory)) := by
  have hapart := not_or.mp hac
  have h12 : compareTimestamp (some [ch '1']) (some [ch '2']) ≤ 0 := by decide
  have h23 : compareTimestamp (some [ch '2']) (some [ch '3']) ≤ 0 := by decide
  have h21 : ¬ compareTimestamp (some [ch '2']) (some [ch '1']) ≤ 0 := by decide
  have hm01 : ∀ j : Fin 3, j ≠ 2 → mark (mark (fun _ => false) 0) 1 j = true := by decide
  have hm02 : ∀ j : Fin 3, j ≠ 1 → mark (mark (fun _ => false) 0) 2 j = true := by decide
  have hm10 : ∀ j : Fin 3, j ≠ 2 → mark (mark (fun _ => false) 1) 0 j = true := by decide
  have h32 : ¬ compareTimestamp (some [ch '3']) (some [ch '2']) ≤ 0 := by decide
  rcases hab with hab | hba
  · rcases hbc with hbc | hcb
    · refine ⟨_, distinctKeys_three a b c '1' '2' '3', by simp [entryAt], ?_⟩
      have hm := @dedupMarks_chain threshold (entryAt 0 a '1') (entryAt 1 b '2') (entryAt 2 c '3')
        hab hapart.1 hbc h12 h23
      refine not_represented (distinctKeys_three a b c '1' '2' '3') (i := 0) (k := 2) ?_ ?_ hac
      · rw [hm]
        rfl
      · rw [hm]
        exact hm01
    · refine ⟨_, distinctKeys_three a c b '1' '3' '2', by simp [entryAt], ?_⟩
      have hm := @dedupMarks_fork threshold (entryAt 0 a '1') (entryAt 2 b '2') (entryAt 1 c '3')
        hapart.1 hab hcb h12 h32
      refine not_represented (distinctKeys_three a c b '1' '3' '2') (i := 0) (k := 1) ?_ ?_ hac
      · rw [hm]
        rfl
      · rw [hm]
        exact hm02
  · rcases hbc with hbc | hcb
    · refine ⟨_, distinctKeys_three b a c '2' '1' '3', by simp [entryAt], ?_⟩
      have hm := @dedupMarks_middle threshold (entryAt 1 a '1') (entryAt 0 b '2') (entryAt 2 c '3')
        hba hbc h21 h23
      refine not_represented (distinctKeys_three b a c '2' '1' '3') (i := 1) (k := 2) ?_ ?_ hac
      · rw [hm]
        rfl
      · rw [hm]
        exact hm10
    · refine ⟨_, distinctKeys_three c b a '1' '2' '3', by simp [entryAt], ?_⟩
      have hm := @dedupMarks_chain threshold (entryAt 0 c '1') (entryAt 1 b '2') (entryAt 2 a '3')
        hcb hapart.2 hba h12 h23
      refine not_represented (distinctKeys_three c b a '1' '2' '3') (i := 0) (k := 2) ?_ ?_
        fun hca => hac hca.symm
      · rw [hm]
        rfl
      · rw [hm]
        exact hm01

/-! ## Pairs that are kept -/

theorem dedupStep_of_true {i j k : Fin entries.length} {m : Marks entries.length}
    (h : m k = true) : dedupStep threshold entries i m j k = true := by
  rw [dedupStep]
  split
  · exact h
  split
  · split
    · exact mark_of_true h
    · exact mark_of_true h
  · exact h

theorem dedupRow_of_true {i k : Fin entries.length} {m : Marks entries.length}
    (h : m k = true) : dedupRow threshold entries m i k = true := by
  rw [dedupRow]
  split
  · exact h
  · exact foldl_keeps (P := fun m : Marks entries.length => m k = true)
      (fun m _ _ hm => dedupStep_of_true hm) h

/-- A pair that is compared loses one of the two. -/
theorem dedupStep_pair {i j : Fin entries.length} {m : Marks entries.length}
    (h : threshold ≤ scSimilarityScore (entries.get i).content (entries.get j).content) :
    dedupStep threshold entries i m j i = true ∨ dedupStep threshold entries i m j j = true := by
  by_cases hj : m j = true
  · exact Or.inr (dedupStep_of_true hj)
  · by_cases hle : compareTimestamp (entries.get i).timestamp (entries.get j).timestamp ≤ 0
    · rw [dedupStep_first (by simpa using hj) h hle]
      exact Or.inl (mark_self m i)
    · rw [dedupStep_second (by simpa using hj) h hle]
      exact Or.inr (mark_self m j)

theorem dedupRow_pair {i j : Fin entries.length} (hij : i < j) {m : Marks entries.length}
    (h : threshold ≤ scSimilarityScore (entries.get i).content (entries.get j).content) :
    dedupRow threshold entries m i i = true ∨ dedupRow threshold entries m i j = true := by
  by_cases hi : m i = true
  · exact Or.inl (dedupRow_of_true hi)
  obtain ⟨l, r, hlr⟩ := List.append_of_mem (mem_later.mpr hij)
  rw [dedupRow, if_neg hi, hlr, List.foldl_append, List.foldl_cons]
  have hkeeps (k : Fin entries.length) (m : Marks entries.length) (hm : m k = true) :
      r.foldl (dedupStep threshold entries i) m k = true :=
    foldl_keeps (P := fun m : Marks entries.length => m k = true)
      (fun m _ _ hm => dedupStep_of_true hm) hm
  exact (dedupStep_pair h).imp (hkeeps i _) (hkeeps j _)

/-- No two entries are kept of which the first one scores against the second. -/
theorem dedupMarks_pair {i j : Fin entries.length} (hij : i < j)
    (h : threshold ≤ scSimilarityScore (entries.get i).content (entries.get j).content) :
    dedupMarks threshold entries i = true ∨ dedupMarks threshold entries j = true := by
  obtain ⟨l, r, hlr⟩ := List.append_of_mem (List.mem_finRange i)
  rw [dedupMarks, hlr, List.foldl_append, List.foldl_cons]
  have hkeeps (k : Fin entries.length) (m : Marks entries.length) (hm : m k = true) :
      r.foldl (dedupRow threshold entries) m k = true :=
    foldl_keeps (P := fun m : Marks entries.length => m k = true)
      (fun m _ _ hm => dedupRow_of_true hm) hm
  exact (dedupRow_pair hij h).imp (hkeeps i _) (hkeeps j _)

/-- Of entries with one content, one is kept exactly when the content is similar to itself. -/
theorem existsUnique_kept_iff {content : Option Bytes} (h : DistinctKeys entries)
    (hc : ∀ e ∈ entries, e.content = content) :
    (∃! e, e ∈ forgetMarked entries entries (dedupMarks threshold entries)) ↔
      entries.length = 1 ∨ entries ≠ [] ∧ Similar threshold content content := by
  have hmem (i : Fin entries.length) : (entries.get i).content = content := hc _ (List.getElem_mem _)
  by_cases hself : Similar threshold content content
  · have hscore : threshold ≤ scSimilarityScore content content := hself.elim id id
    constructor
    · rintro ⟨e, he, -⟩
      obtain ⟨i, -, -⟩ := (mem_forgetMarked h).mp he
      refine Or.inr ⟨?_, hself⟩
      rintro rfl
      exact i.elim0
    · intro hne
      have hpos : 0 < entries.length := by
        rcases hne with hone | ⟨hne, -⟩
        · omega
        · exact List.length_pos_iff.mpr hne
      obtain ⟨i, hi⟩ : ∃ i, dedupMarks threshold entries i = false := by
        by_cases hzero : dedupMarks threshold entries ⟨0, hpos⟩ = true
        · obtain ⟨y, hy, -⟩ := (answered_dedupMarks threshold entries).exists_unmarked
            (standing entries) (fun _ _ h => h.2) hzero
          exact ⟨y, hy⟩
        · exact ⟨_, by simpa using hzero⟩
      refine ⟨entries.get i, (mem_forgetMarked h).mpr ⟨i, rfl, hi⟩, ?_⟩
      intro e he
      obtain ⟨j, rfl, hj⟩ := (mem_forgetMarked h).mp he
      rcases lt_trichotomy i j with hij | rfl | hji
      · have hpair := @dedupMarks_pair threshold _ _ _ hij (by rw [hmem, hmem]; exact hscore)
        rw [hi, hj] at hpair
        exact absurd hpair (by simp)
      · rfl
      · have hpair := @dedupMarks_pair threshold _ _ _ hji (by rw [hmem, hmem]; exact hscore)
        rw [hi, hj] at hpair
        exact absurd hpair (by simp)
  · have hnone (i : Fin entries.length) : dedupMarks threshold entries i = false := by
      by_contra hi
      obtain ⟨y, hsim, -⟩ := answered_dedupMarks threshold entries i (by simpa using hi)
      rw [hmem, hmem] at hsim
      exact hself hsim
    have hall (e : Entry) : e ∈ forgetMarked entries entries (dedupMarks threshold entries) ↔
        e ∈ entries := by
      rw [mem_forgetMarked h]
      constructor
      · rintro ⟨i, rfl, -⟩
        exact List.getElem_mem _
      · intro he
        obtain ⟨n, hn, rfl⟩ := List.mem_iff_getElem.mp he
        exact ⟨⟨n, hn⟩, rfl, hnone _⟩
    simp only [hall, hself, and_false, or_false]
    have hnodup : entries.Nodup := List.Nodup.of_map _ h.nodup
    constructor
    · rintro ⟨e, he, huniq⟩
      have hrep : entries = List.replicate entries.length e := List.eq_replicate_of_mem huniq
      rw [hrep] at hnodup he
      have hle := List.nodup_replicate.mp hnodup
      have hpos := List.length_pos_of_mem he
      rw [List.length_replicate] at hpos
      omega
    · intro hone
      obtain ⟨e, rfl⟩ := List.length_eq_one_iff.mp hone
      exact ⟨e, by simp, by simp⟩

/-- With room for all that is kept, nothing else is forgotten. -/
theorem scMemoryConsolidate_eq {config : ConsolidationConfig} {now : ℤ} {memory : List Entry}
    (h : (markedForgotten config now memory).length ≤ config.maxEntries) :
    scMemoryConsolidate config now memory = markedForgotten config now memory := by
  rw [scMemoryConsolidate, evict, if_pos h]
  split
  · next hnil =>
    subst hnil
    rfl
  · rfl

/-- The double loop keeps a representative of every entry, for all memories over the given
contents, exactly when similarity is transitive on them; of entries with one content it keeps
exactly one when the threshold can be reached. -/
theorem consolidate_represents_iff {config : ConsolidationConfig} (now : ℤ)
    (hdecay : config.decayDays = 0) (hthreshold : 0 < config.dedupThreshold) :
    (∀ contents : Set (Option Bytes),
      (∀ memory, DistinctKeys memory → (∀ e ∈ memory, e.content ∈ contents) →
        Represented config.dedupThreshold memory (markedForgotten config now memory)) ↔
      TransitiveOn config.dedupThreshold contents) ∧
    ∀ memory content, DistinctKeys memory → (∀ e ∈ memory, e.content = content) →
      ((∃! e, e ∈ markedForgotten config now memory) ↔
        memory.length = 1 ∨ memory ≠ [] ∧ config.dedupThreshold ≤ 100 ∧ content ≠ none) := by
  simp only [markedForgotten, decayMarks_zero hdecay]
  refine ⟨fun contents => ⟨?_, fun ht memory h hc => represented_of_transitive ht h hc⟩, ?_⟩
  · intro hall a ha b hb c hc hab hbc
    by_contra hac
    obtain ⟨memory, hkeys, hcontents, hlost⟩ := exists_not_represented hab hbc hac
    refine hlost (hall memory hkeys fun e he => ?_)
    rcases hcontents e he with h | h | h
    · exact h ▸ ha
    · exact h ▸ hb
    · exact h ▸ hc
  · intro memory content h hc
    rw [existsUnique_kept_iff h hc, similar_self_iff hthreshold]

/-- A memory of one content, with the default threshold. -/
theorem consolidate_represents_one : Represented 85
    [entryAt 0 (some (ascii "a b")) '2', entryAt 1 (some (ascii "a b")) '1']
    (markedForgotten ⟨0, 85, 10000⟩ 0
      [entryAt 0 (some (ascii "a b")) '2', entryAt 1 (some (ascii "a b")) '1']) := by
  apply ((@consolidate_represents_iff ⟨0, 85, 10000⟩ 0 rfl (by decide)).1
    {some (ascii "a b")}).mpr
  · rintro a rfl b rfl c rfl hab -
    exact hab
  · exact ⟨by simp [entryAt], by simp [entryAt]⟩
  · simp [entryAt]

/-- The first of three entries goes for the second one, and that one for the third. -/
theorem consolidate_loses_entry :
    ¬ ∀ config now memory, config.decayDays = 0 → 0 < config.dedupThreshold →
      DistinctKeys memory →
      Represented config.dedupThreshold memory (markedForgotten config now memory) := by
  intro h
  have hlost := h ⟨0, 50, 10000⟩ 0
    [entryAt 0 (some (ascii "p q r")) '1', entryAt 1 (some (ascii "q r s")) '2',
      entryAt 2 (some (ascii "r s t")) '3'] rfl (by decide) (distinctKeys_three ..)
  have hgone := hlost (entryAt 0 (some (ascii "p q r")) '1') (by simp) (by decide)
  exact absurd hgone (by decide)

end SeaClaw.Memory
