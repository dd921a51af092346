import SeaClaw.Memory.ChunkCover

/-!
# The array of the chunks

The array is sized for chunks of half the maximum, and the split search takes chunks of a quarter
of it, of which an overlap may leave one octet of progress. So only the smallest maxima keep the
chunks within the array for every text.
-/

namespace SeaClaw.Memory.Chunker

open SeaClaw.Lib Relation

variable {opts : ChunkerOptions} {text : Bytes} {p : ℕ}

/-- No call divides by zero or writes behind the array. -/
def WithinArray (opts : ChunkerOptions) (text : Bytes) : Prop :=
  ∀ (allocated trimmed : Bool) (rounds : ℕ),
    scChunkerSplit allocated trimmed rounds opts text ≠ .undefined

/-- The options with which no text leaves the array. -/
def OptionsFit (opts : ChunkerOptions) : Prop :=
  opts.maxChunkSize = 2 ∨ opts.maxChunkSize = 3 ∨
    (opts.maxChunkSize = 4 ∨ opts.maxChunkSize = 5) ∧
      (opts.overlap = 0 ∨ opts.maxChunkSize ≤ opts.overlap)

/-! ## One text -/

/-- However many rounds there are, the loop stays within an array that holds the chunks. -/
theorem ChunksFrom.chunkLoop_ne {l : List TextChunk} (h : ChunksFrom opts text p l) :
    ∀ (rounds : ℕ) (before : List TextChunk),
      before.length + l.length ≤ opts.capacity text.length →
      chunkLoop opts text rounds p before ≠ .undefined := by
  induction h with
  | @last p hp hend =>
    intro rounds before hroom
    cases rounds with
    | zero => simp [chunkLoop]
    | succ rounds =>
      rw [chunkLoop_succ rounds before hp hroom, if_pos hend]
      simp
  | @next p l hend h ih =>
    intro rounds before hroom
    rw [List.length_cons] at hroom
    cases rounds with
    | zero => simp [chunkLoop]
    | succ rounds =>
      have hp : p < text.length := by omega
      have hlt : before.length < opts.capacity text.length := by omega
      rw [chunkLoop_succ rounds before hp hlt, if_neg (not_le.mpr hend)]
      apply ih
      rw [List.length_append, List.length_singleton]
      omega

theorem half_eq_zero_iff : opts.maxChunk / 2 = 0 ↔ opts.maxChunkSize = 1 := by
  unfold ChunkerOptions.maxChunk
  constructor
  · intro h
    split_ifs at h with hpos
    omega
  · intro h
    rw [h]
    rfl

/-- A text stays within the array if and only if the maximum is not one and the starts of its
chunks are few enough. -/
theorem withinArray_iff (opts : ChunkerOptions) (text : Bytes) :
    WithinArray opts text ↔ text = [] ∨ opts.maxChunkSize ≠ 1 ∧ FitsArray opts text := by
  rcases eq_or_ne text [] with rfl | hne
  · simp [WithinArray, scChunkerSplit]
  obtain ⟨l, hl⟩ := exists_chunksFrom opts (List.length_pos_iff.mpr hne)
  rw [hl.fitsArray_iff, Ne, ← half_eq_zero_iff]
  constructor
  · intro h
    right
    have hhalf : opts.maxChunk / 2 ≠ 0 := by
      intro hzero
      apply h true true 0
      rw [scChunkerSplit, if_neg hne, if_pos hzero]
    refine ⟨hhalf, not_lt.mp fun hfull => ?_⟩
    apply h true true (text.length + 1)
    rw [scChunkerSplit_eq hl hhalf true true (Nat.lt_succ_self _), if_neg (by simp), if_pos hfull]
  · rintro (hempty | ⟨hhalf, hroom⟩) allocated trimmed rounds
    · exact absurd hempty hne
    have hloop := hl.chunkLoop_ne rounds [] (by simpa using hroom)
    rw [scChunkerSplit, if_neg hne, if_neg hhalf]
    generalize chunkLoop opts text rounds 0 [] = outcome at hloop
    cases outcome with
    | undefined => exact absurd rfl hloop
    | unfinished => cases allocated <;> simp
    | failed => cases allocated <;> simp
    | chunks l => cases allocated <;> cases trimmed <;> by_cases hl : l = [] <;> simp [hl]

/-! ## Counting starts -/

/-- What holds of the first start and goes on from one start to the next holds of the last of
starts that follow each other. -/
theorem exists_of_isChain {R : ℕ → ℕ → Prop} {P : ℕ → ℕ → Prop}
    (hstep : ∀ i p p', P i p → R p p' → P (i + 1) p') (ps : List ℕ) :
    ∀ {i p : ℕ}, P i p → (p :: ps).IsChain R → ∃ q, P (i + ps.length) q := by
  induction ps with
  | nil =>
    intro i p hp _
    exact ⟨p, hp⟩
  | cons q ps ih =>
    intro i p hp hchain
    obtain ⟨hnext, hrest⟩ := List.isChain_cons_cons.mp hchain
    obtain ⟨q', hq'⟩ := ih (hstep i p q hp hnext) hrest
    rw [List.length_cons, ← Nat.add_assoc, Nat.add_right_comm]
    exact ⟨q', hq'⟩

/-- An invariant of starts by their number bounds the number of starts. -/
theorem fitsArray_of_inv {P : ℕ → ℕ → Prop} (hzero : P 0 0)
    (hstep : ∀ i p p', P i p → NextStart opts text p p' → P (i + 1) p')
    (hbound : ∀ i p, P i p → i + 1 ≤ opts.capacity text.length) : FitsArray opts text := by
  intro ps hchain hhead
  obtain ⟨ps, rfl⟩ := List.head?_eq_some_iff.mp hhead
  obtain ⟨q, hq⟩ := exists_of_isChain hstep ps hzero hchain
  rw [Nat.zero_add] at hq
  exact hbound _ q hq

/-- Starts that go on slowly are more than the array holds. -/
theorem not_fitsArray_of_slow {P : ℕ → ℕ → Prop} (hzero : P 0 0)
    (hstep : ∀ i p, i < opts.capacity text.length → P i p →
      ∃ p', NextStart opts text p p' ∧ P (i + 1) p') : ¬ FitsArray opts text := by
  have hrun : ∀ n ≤ opts.capacity text.length, ∃ ps : List ℕ, ∃ q,
      (ps ++ [q]).IsChain (NextStart opts text) ∧ (ps ++ [q]).head? = some 0 ∧
        ps.length = n ∧ P n q := by
    intro n
    induction n with
    | zero =>
      intro _
      exact ⟨[], 0, List.IsChain.singleton _, rfl, rfl, hzero⟩
    | succ n ih =>
      intro hn
      obtain ⟨ps, q, hchain, hhead, hlen, hq⟩ := ih (by omega)
      obtain ⟨q', hnext, hq'⟩ := hstep n q (by omega) hq
      refine ⟨ps ++ [q], q', ?_, ?_, ?_, hq'⟩
      · rw [List.isChain_append]
        refine ⟨hchain, List.IsChain.singleton _, ?_⟩
        intro x hx y hy
        rw [List.getLast?_concat, Option.mem_some_iff] at hx
        rw [List.head?_cons, Option.mem_some_iff] at hy
        exact hx ▸ hy ▸ hnext
      · rw [List.head?_append, hhead]
        rfl
      · rw [List.length_append, List.length_singleton, hlen]
  obtain ⟨ps, q, hchain, hhead, hlen, -⟩ := hrun _ le_rfl
  intro hfits
  have hle := hfits _ hchain hhead
  rw [List.length_append, List.length_singleton, hlen] at hle
  omega

/-! ## Breaks behind a split -/

theorem LateBreak.of_drop {minChunk k s d : ℕ} {rest : Bytes}
    (h : LateBreak minChunk (rest.drop k) s d) : LateBreak minChunk rest (k + s) (k + d) := by
  rw [LateBreak, List.drop_drop] at h
  rcases h with ⟨h, hmin, rfl⟩ | ⟨h, hmin, rfl⟩
  · exact Or.inl ⟨h, by omega, rfl⟩
  · exact Or.inr ⟨h, by omega, rfl⟩

theorem LateSpace.of_drop {minChunk k s : ℕ} {rest : Bytes}
    (h : LateSpace minChunk (rest.drop k) s) : LateSpace minChunk rest (k + s) := by
  obtain ⟨hmin, hs⟩ := h
  rw [List.getElem?_drop] at hs
  exact ⟨by omega, hs⟩

/-- A blank at the offset. -/
def BlankAt (rest : Bytes) (s : ℕ) : Prop := ∃ c, rest[s]? = some c ∧ isSpace c = true

/-- A sentence is followed by a blank. -/
theorem blankAt_of_endsSentence {rest : Bytes} {s : ℕ} (h : endsSentence (rest.drop s) = true) :
    BlankAt rest (s + 1) := ((endsSentence_iff rest s).mp h).2

/-- Neither a paragraph nor a sentence ends at a blank. -/
theorem BlankAt.not_ends {rest : Bytes} {s : ℕ} (h : BlankAt rest s) :
    endsParagraph (rest.drop s) = false ∧ endsSentence (rest.drop s) = false := by
  obtain ⟨c, hc, hblank⟩ := h
  rw [isSpace, Bool.or_eq_true, decide_eq_true_eq, decide_eq_true_eq] at hblank
  constructor
  · rw [← Bool.not_eq_true, endsParagraph_iff, hc]
    rintro ⟨heq, -⟩
    obtain rfl := Option.some.inj heq
    rcases hblank with h | h <;> exact absurd h (by decide)
  · rw [← Bool.not_eq_true, endsSentence_iff, hc]
    rintro ⟨⟨c', heq, hend⟩, -⟩
    obtain rfl := Option.some.inj heq
    rcases hblank with rfl | rfl <;> exact absurd hend (by decide)

/-- A split is at most one octet behind the maximum. -/
theorem SplitsAt.le_succ {maxFromStart minChunk d : ℕ} {rest : Bytes}
    (h : SplitsAt maxFromStart minChunk rest d) : d ≤ maxFromStart + 1 := by
  cases h with
  | late hs hbreak =>
    have hle := hbreak.breaksAt.bounds.2
    omega
  | space hs => omega
  | early hs hbreak =>
    have hle := hbreak.bounds.2
    omega

/-- What an early break can be when the minimum is one octet. -/
theorem early_eq_two {maxFromStart s d : ℕ} {rest : Bytes} (hs : s < maxFromStart)
    (h : BreaksAt rest s d) (hnone : ∀ s' < maxFromStart, ∀ d', ¬ LateBreak 1 rest s' d') :
    s = 0 ∧ d = 2 ∧ endsParagraph rest = true := by
  rcases h with ⟨hp, rfl⟩ | ⟨hsent, rfl⟩
  · obtain rfl : s = 0 := by
      by_contra hpos
      exact hnone s hs _ (Or.inl ⟨hp, Nat.pos_of_ne_zero hpos, rfl⟩)
    exact ⟨rfl, rfl, hp⟩
  · exact absurd (Or.inr ⟨hsent, Nat.succ_pos s, rfl⟩) (hnone s hs (s + 1))

/-- A chunk of one octet ends a sentence, so the next one starts with a blank. -/
theorem SplitsAt.blankAt_one {maxFromStart d : ℕ} {rest : Bytes}
    (h : SplitsAt maxFromStart 1 rest d) (hd : d = 1) : BlankAt rest 1 := by
  cases h with
  | @late s _ hs hbreak =>
    rcases hbreak with ⟨-, -, rfl⟩ | ⟨hsent, -, rfl⟩
    · omega
    · obtain rfl : s = 0 := by omega
      exact blankAt_of_endsSentence hsent
  | space hs hspace =>
    have hmin := hspace.1
    omega
  | early hs hbreak hnone =>
    have htwo := (early_eq_two hs hbreak hnone).2.1
    omega

/-- A chunk of two octets that starts with a blank is followed by one that does, too, or by one of
three octets at least. -/
theorem SplitsAt.behind_blank {maxFromStart d : ℕ} {rest : Bytes} (hmax : 4 ≤ maxFromStart)
    (h : SplitsAt maxFromStart 1 rest d) (hblank : BlankAt rest 0) (hd : d < 3) :
    d = 2 ∧ (BlankAt rest 2 ∨ ∀ d', SplitsAt maxFromStart 1 (rest.drop 2) d' → 3 ≤ d') := by
  obtain ⟨hnop, hnos⟩ := hblank.not_ends
  cases h with
  | @late s _ hs hbreak =>
    rcases hbreak with ⟨-, hmin, rfl⟩ | ⟨hsent, -, rfl⟩
    · omega
    · obtain rfl | rfl : s = 0 ∨ s = 1 := by omega
      · rw [hnos] at hsent
        exact absurd hsent (by simp)
      · exact ⟨rfl, Or.inl (blankAt_of_endsSentence hsent)⟩
  | @space s hs hspace hnone hlast =>
    obtain rfl : s = 1 := by
      have hmin := hspace.1
      omega
    refine ⟨rfl, Or.inr ?_⟩
    -- within the first window the second one has neither a late break nor a space
    intro d' hsplit
    cases hsplit with
    | @late s' _ hs' hbreak' =>
      have hfar : maxFromStart ≤ 2 + s' := not_lt.mp fun hlt => hnone _ hlt _ hbreak'.of_drop
      have hlt := hbreak'.breaksAt.bounds.1
      omega
    | @space s' hs' hspace' =>
      have hfar : maxFromStart ≤ 2 + s' :=
        not_lt.mp fun hlt => hlast _ (by omega) hlt hspace'.of_drop
      omega
    | @early s' _ hs' hbreak' hnone' =>
      obtain ⟨rfl, rfl, hp⟩ := early_eq_two hs' hbreak' hnone'
      exact absurd (Or.inl ⟨hp, by omega, rfl⟩) (hnone 2 (by omega) 4)
  | early hs hbreak hnone =>
    obtain ⟨-, -, hp⟩ := early_eq_two hs hbreak hnone
    rw [List.drop_zero] at hnop
    rw [hnop] at hp
    exact absurd hp (by simp)

/-- Only a paragraph at the end of the window makes a chunk longer than the maximum, and one octet
later it makes a chunk of the maximum. -/
theorem SplitsAt.behind_long {maxFromStart : ℕ} {rest : Bytes} (hmax : 3 ≤ maxFromStart)
    (h : SplitsAt maxFromStart 1 rest (maxFromStart + 1)) :
    SplitsAt maxFromStart 1 (rest.drop 1) maxFromStart := by
  generalize hd : maxFromStart + 1 = d at h
  cases h with
  | @late s _ hs hbreak hfirst =>
    rcases hbreak with ⟨hp, -, rfl⟩ | ⟨-, -, rfl⟩
    · obtain rfl : maxFromStart = s + 1 := by omega
      obtain ⟨t, rfl⟩ : ∃ t, s = 1 + t := ⟨s - 1, by omega⟩
      have hat : LateBreak 1 (rest.drop 1) t (1 + t + 1) := by
        refine Or.inl ⟨?_, by omega, by omega⟩
        rwa [List.drop_drop]
      apply SplitsAt.late (by omega) hat
      intro s' hs' d' hbreak'
      exact hfirst (1 + s') (by omega) _ hbreak'.of_drop
    · omega
  | space hs => omega
  | early hs hbreak hnone =>
    have htwo := (early_eq_two hs hbreak hnone).2.1
    omega

/-! ## Small maxima -/

/-- How far the starts may be behind two octets for each chunk, when the maximum is four or
five. -/
inductive Slack (maxChunk : ℕ) (text : Bytes) (i p : ℕ) : Prop
  | even (h : 2 * i ≤ p) : Slack maxChunk text i p
  | blank (h : 2 * i = p + 1) (hblank : BlankAt text p) : Slack maxChunk text i p
  | long (h : 2 * i = p + 1) (hlong : ∀ d, SplitsAt maxChunk 1 (text.drop p) d → 3 ≤ d) :
      Slack maxChunk text i p
  | whole (h : 2 * i ≤ p + 2) (hwhole : ∀ d, SplitsAt maxChunk 1 (text.drop p) d → d = maxChunk) :
      Slack maxChunk text i p

theorem Slack.le {maxChunk i : ℕ} (h : Slack maxChunk text i p) : 2 * i ≤ p + 2 := by
  cases h <;> omega

theorem blankAt_drop {s : ℕ} : BlankAt (text.drop p) s ↔ BlankAt text (p + s) := by
  rw [BlankAt, BlankAt, List.getElem?_drop]

/-- One chunk without an overlap. -/
theorem Slack.add {maxChunk i d : ℕ} (hmax : 4 ≤ maxChunk) (h : Slack maxChunk text i p)
    (hsplit : SplitsAt maxChunk 1 (text.drop p) d) : Slack maxChunk text (i + 1) (p + d) := by
  have hpos := hsplit.bounds.1
  cases h with
  | even h =>
    by_cases hone : d = 1
    · subst hone
      rcases h.lt_or_eq with hlt | heq
      · exact Slack.even (by omega)
      · exact Slack.blank (by omega) (blankAt_drop.mp (hsplit.blankAt_one rfl))
    · exact Slack.even (by omega)
  | blank h hblank =>
    by_cases hd : d < 3
    · have hzero : BlankAt (text.drop p) 0 := blankAt_drop.mpr hblank
      obtain ⟨rfl, hb | hlong⟩ := hsplit.behind_blank hmax hzero hd
      · exact Slack.blank (by omega) (blankAt_drop.mp hb)
      · rw [List.drop_drop] at hlong
        exact Slack.long (by omega) hlong
    · exact Slack.even (by omega)
  | long h hlong =>
    have hthree := hlong d hsplit
    exact Slack.even (by omega)
  | whole h hwhole =>
    obtain rfl := hwhole d hsplit
    exact Slack.even (by omega)

/-- With a maximum of four or five, and an overlap that is none or not below it, the starts keep
their slack. -/
theorem Slack.next {i p' : ℕ} (hsize : opts.maxChunk = 4 ∨ opts.maxChunk = 5)
    (hoverlap : opts.overlap = 0 ∨ opts.maxChunk ≤ opts.overlap)
    (h : Slack opts.maxChunk text i p) (hnext : NextStart opts text p p') :
    Slack opts.maxChunk text (i + 1) p' := by
  obtain ⟨d, -, hsplit, -, rfl⟩ := hnext
  rw [show opts.maxChunk / 4 = 1 by omega] at hsplit
  unfold ChunkerOptions.advance
  split_ifs with hback
  · -- only a chunk of one octet more than the maximum is longer than the overlap
    have hle := hsplit.le_succ
    obtain rfl : d = opts.maxChunk + 1 := by omega
    have hback : p + (opts.maxChunk + 1) - opts.overlap = p + 1 := by omega
    rw [hback]
    have hlong := hsplit.behind_long (by omega)
    rw [List.drop_drop] at hlong
    cases h with
    | whole h hwhole => exact absurd (hwhole _ hsplit) (by omega)
    | even | blank | long =>
      apply Slack.whole (by omega)
      intro d' hsplit'
      exact hsplit'.unique hlong
  · exact h.add (by omega) hsplit

/-- The starts are in the text. -/
theorem NextStart.lt {p' : ℕ} (h : NextStart opts text p p') : p < p' ∧ p' < text.length := by
  obtain ⟨d, -, hsplit, hend, rfl⟩ := h
  obtain ⟨hlt, hle⟩ := opts.advance_bounds p hsplit.bounds.1
  exact ⟨hlt, hle.trans_lt hend⟩

/-- With options that fit, every text has few enough starts. -/
theorem OptionsFit.fitsArray (h : OptionsFit opts) (htext : text ≠ []) : FitsArray opts text := by
  have hlen := List.length_pos_iff.mpr htext
  rcases h with hsize | hsize | ⟨hsize, hoverlap⟩
  · have hmax : opts.maxChunk = 2 := by rw [ChunkerOptions.maxChunk, if_pos (by omega), hsize]
    apply fitsArray_of_inv (P := fun i p => i ≤ p ∧ p < text.length) ⟨le_rfl, hlen⟩
    · intro i p p' hi hnext
      have hlt := hnext.lt
      omega
    · intro i p hi
      rw [ChunkerOptions.capacity, hmax]
      omega
  · have hmax : opts.maxChunk = 3 := by rw [ChunkerOptions.maxChunk, if_pos (by omega), hsize]
    apply fitsArray_of_inv (P := fun i p => i ≤ p ∧ p < text.length) ⟨le_rfl, hlen⟩
    · intro i p p' hi hnext
      have hlt := hnext.lt
      omega
    · intro i p hi
      rw [ChunkerOptions.capacity, hmax]
      omega
  · have hmax : opts.maxChunk = opts.maxChunkSize := by
      rw [ChunkerOptions.maxChunk, if_pos (by omega)]
    rw [← hmax] at hsize hoverlap
    apply fitsArray_of_inv (P := fun i p => Slack opts.maxChunk text i p ∧ p < text.length)
      ⟨Slack.even le_rfl, hlen⟩
    · rintro i p p' ⟨hslack, -⟩ hnext
      exact ⟨hslack.next hsize hoverlap hnext, hnext.lt.2⟩
    · rintro i p ⟨hslack, hp⟩
      have hle := hslack.le
      rw [ChunkerOptions.capacity, show opts.maxChunk / 2 = 2 by omega]
      omega

/-! ## Slow texts -/

/-- Where every chunk goes on by less than half the maximum, a text can be too long. -/
theorem not_fitsArray_of_advance {Q : ℕ → Prop} {a : ℕ} (ha : a < opts.maxChunk / 2)
    (hlen : text.length = opts.maxChunk / 2 * (opts.maxChunk / 2 + opts.maxChunk)) (hzero : Q 0)
    (hstep : ∀ p, Q p → opts.maxChunk < text.length - p →
      ∃ p', NextStart opts text p p' ∧ p' ≤ p + a ∧ Q p') : ¬ FitsArray opts text := by
  have hcap : opts.capacity text.length = opts.maxChunk / 2 + opts.maxChunk + 2 := by
    rw [ChunkerOptions.capacity, hlen, Nat.mul_div_cancel_left _ (Nat.zero_lt_of_lt ha)]
  apply not_fitsArray_of_slow (P := fun i p => p ≤ a * i ∧ Q p) ⟨le_rfl, hzero⟩
  rintro i p hi ⟨hp, hq⟩
  have hfar : opts.maxChunk < text.length - p := by
    obtain ⟨b, hb⟩ : ∃ b, opts.maxChunk / 2 = b + 1 := ⟨opts.maxChunk / 2 - 1, by omega⟩
    have hi' : i ≤ b + opts.maxChunk + 2 := by omega
    have hpb : p ≤ b * (b + opts.maxChunk + 2) :=
      hp.trans (Nat.mul_le_mul (by omega) hi')
    have hn : text.length = b * (b + opts.maxChunk + 2) + (opts.maxChunk + 1) := by
      rw [hlen, hb]
      ring
    omega
  obtain ⟨p', hnext, hle, hq'⟩ := hstep p hq hfar
  refine ⟨p', hnext, ?_, hq'⟩
  rw [Nat.mul_succ]
  omega

/-- In a text of line feeds a chunk is two octets longer than the minimum. -/
theorem splitsAt_lineFeeds {maxFromStart minChunk n : ℕ} (hmin : minChunk < maxFromStart)
    (hn : minChunk + 1 < n) :
    SplitsAt maxFromStart minChunk (List.replicate n (ch '\n')) (minChunk + 2) := by
  apply SplitsAt.late hmin
  · refine Or.inl ⟨?_, le_rfl, rfl⟩
    rw [endsParagraph_iff, List.getElem?_replicate, List.getElem?_replicate, if_pos (by omega),
      if_pos hn]
    exact ⟨rfl, rfl⟩
  · intro s hs d hbreak
    rcases hbreak with ⟨-, hle, -⟩ | ⟨hsent, -, -⟩
    · omega
    · obtain ⟨⟨c, hc, hend⟩, -⟩ := (endsSentence_iff _ _).mp hsent
      rw [List.eq_of_mem_replicate (List.mem_of_getElem? hc)] at hend
      exact absurd hend (by decide)

/-- In a text of spaces a chunk has the maximum. -/
theorem splitsAt_spaces {maxFromStart minChunk n : ℕ} (hmin : minChunk < maxFromStart)
    (hn : maxFromStart ≤ n) :
    SplitsAt maxFromStart minChunk (List.replicate n (ch ' ')) maxFromStart := by
  obtain ⟨s, rfl⟩ : ∃ s, maxFromStart = s + 1 := ⟨maxFromStart - 1, by omega⟩
  apply SplitsAt.space (Nat.lt_succ_self s)
  · refine ⟨by omega, ?_⟩
    rw [List.getElem?_replicate, if_pos (by omega)]
  · intro s' _ d hbreak
    rcases hbreak.breaksAt with ⟨hp, -⟩ | ⟨hsent, -⟩
    · have hc := ((endsParagraph_iff _ _).mp hp).1
      exact absurd (List.eq_of_mem_replicate (List.mem_of_getElem? hc)) (by decide)
    · obtain ⟨⟨c, hc, hend⟩, -⟩ := (endsSentence_iff _ _).mp hsent
      rw [List.eq_of_mem_replicate (List.mem_of_getElem? hc)] at hend
      exact absurd hend (by decide)
  · intro s' hlt hlt'
    omega

/-- Sentences of `q` octets: a blank first and a full stop last. -/
def sentenceOctet (q i : ℕ) : UInt8 :=
  if i % q = 0 then ch ' ' else if i % q = q - 1 then ch '.' else ch 'x'

/-- A text of sentences. -/
def sentences (q n : ℕ) : Bytes := (List.range n).map (sentenceOctet q)

theorem getElem?_sentences {q n i : ℕ} (hi : i < n) :
    (sentences q n)[i]? = some (sentenceOctet q i) := by
  rw [sentences, List.getElem?_map, List.getElem?_range hi, Option.map_some]

theorem sentenceOctet_stop {q i : ℕ} (h : isSentenceEnd (sentenceOctet q i) = true) :
    i % q = q - 1 := by
  unfold sentenceOctet at h
  split_ifs at h with hzero hlast
  · exact absurd h (by decide)
  · exact hlast
  · exact absurd h (by decide)

/-- In a text of sentences a break is behind a full stop. -/
theorem BreaksAt.mod_eq {q n p s d : ℕ} (h : BreaksAt ((sentences q n).drop p) s d) :
    (p + s) % q = q - 1 := by
  have hoctet : ∀ i c, ((sentences q n).drop p)[i]? = some c → sentenceOctet q (p + i) = c := by
    intro i c hc
    rw [List.getElem?_drop] at hc
    have hlt := (List.getElem?_eq_some_iff.mp hc).1
    rw [sentences, List.length_map, List.length_range] at hlt
    rw [getElem?_sentences hlt] at hc
    exact Option.some.inj hc
  rcases h with ⟨hp, -⟩ | ⟨hsent, -⟩
  · have hfeed := hoctet _ _ ((endsParagraph_iff _ _).mp hp).1
    unfold sentenceOctet at hfeed
    split_ifs at hfeed <;> exact absurd hfeed (by decide)
  · obtain ⟨⟨c, hc, hend⟩, -⟩ := (endsSentence_iff _ _).mp hsent
    rw [← hoctet _ _ hc] at hend
    exact sentenceOctet_stop hend

/-- A sentence ends behind its full stop. -/
theorem endsSentence_sentences {q n p s : ℕ} (hq : 2 ≤ q) (hs : (p + s) % q = q - 1)
    (hn : p + s + 1 < n) : endsSentence (((sentences q n).drop p).drop s) = true := by
  rw [endsSentence_iff, List.getElem?_drop, List.getElem?_drop, getElem?_sentences (by omega),
    getElem?_sentences (by omega)]
  have hdiv := Nat.div_add_mod (p + s) q
  have hnext : (p + (s + 1)) % q = 0 := by
    rw [← Nat.add_assoc, Nat.add_mod, hs, Nat.mod_eq_of_lt (show 1 < q by omega),
      Nat.sub_add_cancel (by omega), Nat.mod_self]
  refine ⟨⟨_, rfl, ?_⟩, _, rfl, ?_⟩
  · rw [sentenceOctet, if_neg (by omega), if_pos hs]
    decide
  · rw [sentenceOctet, if_pos hnext]
    decide

/-- From the start of a sentence on the chunk is the sentence. -/
theorem splitsAt_sentences {maxFromStart minChunk q n p : ℕ} (hq : 2 ≤ q) (hmin : minChunk ≤ q)
    (hmax : q ≤ maxFromStart) (hp : p % q = 0) (hn : p + q < n) :
    SplitsAt maxFromStart minChunk ((sentences q n).drop p) q := by
  have hmod : ∀ s < q, (p + s) % q = s := by
    intro s hs
    rw [Nat.add_mod, hp, Nat.zero_add, Nat.mod_mod, Nat.mod_eq_of_lt hs]
  have hlast : q - 1 + 1 = q := Nat.sub_add_cancel (by omega)
  apply SplitsAt.late (s := q - 1) (by omega)
  · refine Or.inr ⟨endsSentence_sentences hq (hmod _ (by omega)) (by omega), ?_, hlast.symm⟩
    omega
  · intro s' hs' d hbreak
    have hstop := hbreak.breaksAt.mod_eq
    rw [hmod s' (by omega)] at hstop
    omega

/-- From the full stop on the chunk is the full stop. -/
theorem splitsAt_stop {maxFromStart q n p : ℕ} (hq : 2 ≤ q) (hmax : 0 < maxFromStart)
    (hp : p % q = q - 1) (hn : p + 1 < n) :
    SplitsAt maxFromStart 1 ((sentences q n).drop p) 1 := by
  apply SplitsAt.late hmax
  · exact Or.inr ⟨endsSentence_sentences hq hp hn, le_rfl, rfl⟩
  · intro s' hs'
    exact absurd hs' (Nat.not_lt_zero s')

/-! ## All texts -/

/-- Without an overlap below a sentence, sentences of a quarter of the maximum are too many. -/
theorem not_fits_sentences (hsize : 6 ≤ opts.maxChunk)
    (hoverlap : opts.overlap = 0 ∨ max (opts.maxChunk / 4) 2 ≤ opts.overlap) :
    ∃ text, text ≠ [] ∧ ¬ FitsArray opts text := by
  obtain ⟨q, hq⟩ : ∃ q, q = max (opts.maxChunk / 4) 2 := ⟨_, rfl⟩
  rw [← hq] at hoverlap
  obtain ⟨n, hn⟩ : ∃ n, n = opts.maxChunk / 2 * (opts.maxChunk / 2 + opts.maxChunk) := ⟨_, rfl⟩
  have hlen : (sentences q n).length = n := by
    rw [sentences, List.length_map, List.length_range]
  refine ⟨sentences q n, ?_, ?_⟩
  · apply List.ne_nil_of_length_pos
    rw [hlen, hn]
    exact Nat.mul_pos (by omega) (by omega)
  · apply not_fitsArray_of_advance (Q := fun p => p % q = 0) (a := q) (by omega) (hlen.trans hn)
      (Nat.zero_mod q)
    intro p hp hfar
    rw [hlen] at hfar
    have hsplit : SplitsAt opts.maxChunk (opts.maxChunk / 4) ((sentences q n).drop p) q :=
      splitsAt_sentences (by omega) (by omega) (by omega) hp (by omega)
    refine ⟨p + q, ⟨q, by rwa [hlen], hsplit, by omega, ?_⟩, le_rfl, ?_⟩
    · rw [ChunkerOptions.advance, if_neg (by omega)]
    · rw [Nat.add_mod_right, hp]

/-- With an overlap below the length of a chunk of line feeds there is little progress. -/
theorem not_fits_lineFeeds (hsize : 4 ≤ opts.maxChunk) (hoverlap : 0 < opts.overlap)
    (hlt : opts.overlap < opts.maxChunk / 4 + 2)
    (hslow : opts.maxChunk / 4 + 2 - opts.overlap < opts.maxChunk / 2) :
    ∃ text, text ≠ [] ∧ ¬ FitsArray opts text := by
  obtain ⟨n, hn⟩ : ∃ n, n = opts.maxChunk / 2 * (opts.maxChunk / 2 + opts.maxChunk) := ⟨_, rfl⟩
  refine ⟨List.replicate n (ch '\n'), ?_, ?_⟩
  · apply List.ne_nil_of_length_pos
    rw [List.length_replicate, hn]
    exact Nat.mul_pos (by omega) (by omega)
  · apply not_fitsArray_of_advance (Q := fun _ => True) hslow (List.length_replicate.trans hn)
      trivial
    intro p _ hfar
    rw [List.length_replicate] at hfar
    have hsplit : SplitsAt opts.maxChunk (opts.maxChunk / 4) (List.replicate (n - p) (ch '\n'))
        (opts.maxChunk / 4 + 2) := splitsAt_lineFeeds (by omega) (by omega)
    rw [← List.drop_replicate] at hsplit
    refine ⟨p + (opts.maxChunk / 4 + 2) - opts.overlap, ⟨_, ?_, hsplit, ?_, ?_⟩, by omega, trivial⟩
    · rwa [List.length_replicate]
    · rw [List.length_replicate]
      omega
    · rw [ChunkerOptions.advance, if_pos ⟨hoverlap, hlt⟩]

/-- With an overlap of all but one octet a chunk of spaces leaves one octet of progress. -/
theorem not_fits_spaces (hsize : 4 ≤ opts.maxChunk) (hoverlap : opts.overlap + 1 = opts.maxChunk) :
    ∃ text, text ≠ [] ∧ ¬ FitsArray opts text := by
  obtain ⟨n, hn⟩ : ∃ n, n = opts.maxChunk / 2 * (opts.maxChunk / 2 + opts.maxChunk) := ⟨_, rfl⟩
  refine ⟨List.replicate n (ch ' '), ?_, ?_⟩
  · apply List.ne_nil_of_length_pos
    rw [List.length_replicate, hn]
    exact Nat.mul_pos (by omega) (by omega)
  · apply not_fitsArray_of_advance (Q := fun _ => True) (a := 1) (by omega)
      (List.length_replicate.trans hn) trivial
    intro p _ hfar
    rw [List.length_replicate] at hfar
    have hsplit : SplitsAt opts.maxChunk (opts.maxChunk / 4) (List.replicate (n - p) (ch ' '))
        opts.maxChunk := splitsAt_spaces (by omega) (by omega)
    rw [← List.drop_replicate] at hsplit
    refine ⟨p + 1, ⟨_, ?_, hsplit, ?_, ?_⟩, le_rfl, trivial⟩
    · rwa [List.length_replicate]
    · rw [List.length_replicate]
      omega
    · rw [ChunkerOptions.advance, if_pos (by omega)]
      omega

/-- With an overlap of one octet, sentences of two octets leave one octet of progress. -/
theorem not_fits_one (hsize : opts.maxChunk = 4 ∨ opts.maxChunk = 5) (hoverlap : opts.overlap = 1) :
    ∃ text, text ≠ [] ∧ ¬ FitsArray opts text := by
  obtain ⟨n, hn⟩ : ∃ n, n = opts.maxChunk / 2 * (opts.maxChunk / 2 + opts.maxChunk) := ⟨_, rfl⟩
  have hlen : (sentences 2 n).length = n := by
    rw [sentences, List.length_map, List.length_range]
  have hquarter : opts.maxChunk / 4 = 1 := by omega
  refine ⟨sentences 2 n, ?_, ?_⟩
  · apply List.ne_nil_of_length_pos
    rw [hlen, hn]
    exact Nat.mul_pos (by omega) (by omega)
  · apply not_fitsArray_of_advance (Q := fun _ => True) (a := 1) (by omega) (hlen.trans hn) trivial
    intro p _ hfar
    rw [hlen] at hfar
    rcases Nat.mod_two_eq_zero_or_one p with heven | hodd
    · have hsplit : SplitsAt opts.maxChunk (opts.maxChunk / 4) ((sentences 2 n).drop p) 2 :=
        splitsAt_sentences le_rfl (by omega) (by omega) heven (by omega)
      refine ⟨p + 1, ⟨2, by rwa [hlen], hsplit, by omega, ?_⟩, le_rfl, trivial⟩
      rw [ChunkerOptions.advance, if_pos (by omega)]
      omega
    · have hsplit : SplitsAt opts.maxChunk 1 ((sentences 2 n).drop p) 1 :=
        splitsAt_stop le_rfl (by omega) hodd (by omega)
      rw [← hquarter] at hsplit
      refine ⟨p + 1, ⟨_, by rwa [hlen], hsplit, by omega, ?_⟩, le_rfl, trivial⟩
      rw [ChunkerOptions.advance, if_neg (by omega), hquarter]

/-- Spaces around a letter, over and over. -/
def spacedText : Bytes := (List.replicate 10 [ch ' ', ch 'x', ch ' ']).flatten

/-- With a maximum of five and an overlap of three the progress is one octet and two in turn. -/
theorem not_within_five : ¬ WithinArray ⟨5, 3⟩ spacedText := by
  intro h
  exact h true true 31 (by decide)

/-- Outside the options that fit there is a text that leaves the array. -/
theorem exists_not_within (h : ¬ OptionsFit opts) : ∃ text, ¬ WithinArray opts text := by
  have hfits : (∃ text, text ≠ [] ∧ ¬ FitsArray opts text) → ∃ text, ¬ WithinArray opts text := by
    rintro ⟨text, hne, hno⟩
    refine ⟨text, fun hwithin => ?_⟩
    rcases (withinArray_iff opts text).mp hwithin with hempty | ⟨-, hfits⟩
    · exact hne hempty
    · exact hno hfits
  by_cases hone : opts.maxChunkSize = 1
  · refine ⟨ascii "x", fun hwithin => ?_⟩
    rcases (withinArray_iff opts _).mp hwithin with hempty | ⟨hne, -⟩
    · exact absurd hempty (by decide)
    · exact hne hone
  unfold OptionsFit at h
  have hmax : opts.maxChunk = opts.maxChunkSize ∨ opts.maxChunk = 512 := by
    unfold ChunkerOptions.maxChunk
    split_ifs
    · exact Or.inl rfl
    · exact Or.inr rfl
  have hzero : opts.maxChunkSize = 0 → opts.maxChunk = 512 := by
    intro hzero
    rw [ChunkerOptions.maxChunk, hzero]
    rfl
  rcases le_or_gt 6 opts.maxChunk with hlarge | hsmall
  · apply hfits
    by_cases hoverlap : opts.overlap = 0 ∨ max (opts.maxChunk / 4) 2 ≤ opts.overlap
    · exact not_fits_sentences hlarge hoverlap
    · exact not_fits_lineFeeds (by omega) (by omega) (by omega) (by omega)
  · have hsize : opts.maxChunk = opts.maxChunkSize := by omega
    have hfour : opts.maxChunk = 4 ∨ opts.maxChunk = 5 := by omega
    have hoverlap : 0 < opts.overlap ∧ opts.overlap < opts.maxChunk := by omega
    by_cases h1 : opts.overlap = 1
    · exact hfits (not_fits_one hfour h1)
    by_cases h2 : opts.overlap = 2
    · exact hfits (not_fits_lineFeeds (by omega) (by omega) (by omega) (by omega))
    by_cases hlast : opts.overlap + 1 = opts.maxChunk
    · exact hfits (not_fits_spaces (by omega) hlast)
    · have hfive : opts.maxChunkSize = 5 := by omega
      have hthree : opts.overlap = 3 := by omega
      obtain rfl : opts = ⟨5, 3⟩ := congrArg₂ ChunkerOptions.mk hfive hthree
      exact ⟨_, not_within_five⟩

/-- A text stays within the array if and only if the maximum is not one and the starts of its
chunks are few enough; every text does if and only if the maximum is two or three, or it is four
or five and the overlap is none or not below it. -/
theorem scChunkerSplit_within_iff (opts : ChunkerOptions) :
    (∀ text, WithinArray opts text ↔
      text = [] ∨ opts.maxChunkSize ≠ 1 ∧ FitsArray opts text) ∧
    ((∀ text, WithinArray opts text) ↔ OptionsFit opts) := by
  refine ⟨withinArray_iff opts, ?_, ?_⟩
  · intro hall
    by_contra hno
    obtain ⟨text, htext⟩ := exists_not_within hno
    exact htext (hall text)
  · intro hfit text
    rw [withinArray_iff]
    by_cases htext : text = []
    · exact Or.inl htext
    · refine Or.inr ⟨?_, hfit.fitsArray htext⟩
      intro hone
      unfold OptionsFit at hfit
      omega

/-- Six sentences of two octets, with an overlap of one octet, are nine chunks for eight places. -/
theorem scChunkerSplit_leaves_array : ¬ WithinArray ⟨4, 1⟩ (ascii " . . . . . .") := by
  intro h
  exact h true true 13 (by decide)

end SeaClaw.Memory.Chunker
