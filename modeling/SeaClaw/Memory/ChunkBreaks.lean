import SeaClaw.Memory.Chunker

/-!
# Where a text is split

The scan for a split point takes the first paragraph or sentence that ends late enough. Without
one it takes the last space that is late enough, and without that the last paragraph or sentence
that ends early.
-/

namespace SeaClaw.Memory.Chunker

open SeaClaw.Lib

/-! ## Breaks -/

/-- A paragraph or a sentence ends at `s`, and what follows it starts at `d`. -/
def BreaksAt (rest : Bytes) (s d : ℕ) : Prop :=
  (endsParagraph (rest.drop s) = true ∧ d = s + 2) ∨ (endsSentence (rest.drop s) = true ∧ d = s + 1)

/-- A break that is late enough. -/
def LateBreak (minChunk : ℕ) (rest : Bytes) (s d : ℕ) : Prop :=
  (endsParagraph (rest.drop s) = true ∧ minChunk ≤ s ∧ d = s + 2) ∨
    (endsSentence (rest.drop s) = true ∧ minChunk ≤ s + 1 ∧ d = s + 1)

/-- A space that is late enough. -/
def LateSpace (minChunk : ℕ) (rest : Bytes) (s : ℕ) : Prop :=
  minChunk ≤ s ∧ rest[s]? = some (ch ' ')

/-- The text is to be split at `d`. -/
inductive SplitsAt (maxFromStart minChunk : ℕ) (rest : Bytes) : ℕ → Prop
  | late {s d : ℕ} (hs : s < maxFromStart) (hbreak : LateBreak minChunk rest s d)
      (hfirst : ∀ s' < s, ∀ d', ¬ LateBreak minChunk rest s' d') : SplitsAt maxFromStart minChunk rest d
  | space {s : ℕ} (hs : s < maxFromStart) (hspace : LateSpace minChunk rest s)
      (hnone : ∀ s' < maxFromStart, ∀ d', ¬ LateBreak minChunk rest s' d')
      (hlast : ∀ s', s < s' → s' < maxFromStart → ¬ LateSpace minChunk rest s') :
      SplitsAt maxFromStart minChunk rest (s + 1)
  | early {s d : ℕ} (hs : s < maxFromStart) (hbreak : BreaksAt rest s d)
      (hnone : ∀ s' < maxFromStart, ∀ d', ¬ LateBreak minChunk rest s' d')
      (hspace : ∀ s' < maxFromStart, ¬ LateSpace minChunk rest s')
      (hlast : ∀ s', s < s' → s' < maxFromStart → ∀ d', ¬ BreaksAt rest s' d') :
      SplitsAt maxFromStart minChunk rest d

theorem getElem?_drop_zero (rest : Bytes) (s : ℕ) : (rest.drop s)[0]? = rest[s]? := by
  rw [List.getElem?_drop, Nat.add_zero]

theorem getElem?_drop_one (rest : Bytes) (s : ℕ) : (rest.drop s)[1]? = rest[s + 1]? :=
  List.getElem?_drop

theorem endsParagraph_iff (rest : Bytes) (s : ℕ) : endsParagraph (rest.drop s) = true ↔
    rest[s]? = some (ch '\n') ∧ rest[s + 1]? = some (ch '\n') := by
  rw [endsParagraph, getElem?_drop_zero, getElem?_drop_one, Bool.and_eq_true, decide_eq_true_eq,
    decide_eq_true_eq]

theorem endsSentence_iff (rest : Bytes) (s : ℕ) : endsSentence (rest.drop s) = true ↔
    (∃ c, rest[s]? = some c ∧ isSentenceEnd c = true) ∧
      ∃ c, rest[s + 1]? = some c ∧ isSpace c = true := by
  rw [endsSentence, getElem?_drop_zero, getElem?_drop_one, Bool.and_eq_true, Option.any_eq_true,
    Option.any_eq_true]

/-- A paragraph does not end where a sentence does. -/
theorem not_endsSentence_of_endsParagraph {s : Bytes} (h : endsParagraph s = true) :
    endsSentence s = false := by
  rw [endsParagraph, Bool.and_eq_true, decide_eq_true_eq] at h
  rw [endsSentence, h.1]
  rfl

theorem LateBreak.breaksAt {minChunk s d : ℕ} {rest : Bytes} (h : LateBreak minChunk rest s d) :
    BreaksAt rest s d := by
  rcases h with ⟨h, -, hd⟩ | ⟨h, -, hd⟩
  · exact Or.inl ⟨h, hd⟩
  · exact Or.inr ⟨h, hd⟩

/-- A break ends in one place. -/
theorem BreaksAt.unique {rest : Bytes} {s d d' : ℕ} (h : BreaksAt rest s d)
    (h' : BreaksAt rest s d') : d = d' := by
  rcases h with ⟨h, rfl⟩ | ⟨h, rfl⟩ <;> rcases h' with ⟨h', rfl⟩ | ⟨h', rfl⟩
  · rfl
  · rw [not_endsSentence_of_endsParagraph h] at h'
    exact absurd h' (by simp)
  · rw [not_endsSentence_of_endsParagraph h'] at h
    exact absurd h (by simp)
  · rfl

/-- What follows a break starts behind it. -/
theorem BreaksAt.bounds {rest : Bytes} {s d : ℕ} (h : BreaksAt rest s d) : s < d ∧ d ≤ s + 2 := by
  rcases h with ⟨-, rfl⟩ | ⟨-, rfl⟩ <;> omega

/-- A break lies in the text. -/
theorem BreaksAt.le_length {rest : Bytes} {s d : ℕ} (h : BreaksAt rest s d) : d ≤ rest.length := by
  rcases h with ⟨h, rfl⟩ | ⟨h, rfl⟩
  · exact (List.getElem?_eq_some_iff.mp ((endsParagraph_iff rest s).mp h).2).1
  · obtain ⟨c, hc, -⟩ := ((endsSentence_iff rest s).mp h).1
    exact (List.getElem?_eq_some_iff.mp hc).1

/-- A text is split in at most one place. -/
theorem SplitsAt.unique {maxFromStart minChunk d d' : ℕ} {rest : Bytes}
    (h : SplitsAt maxFromStart minChunk rest d) (h' : SplitsAt maxFromStart minChunk rest d') :
    d = d' := by
  cases h with
  | @late s _ hs hbreak hfirst =>
    cases h' with
    | @late s' _ hs' hbreak' hfirst' =>
      have hle : s ≤ s' := not_lt.mp fun hlt => hfirst s' hlt _ hbreak'
      have hge : s' ≤ s := not_lt.mp fun hlt => hfirst' s hlt _ hbreak
      obtain rfl : s = s' := le_antisymm hle hge
      exact hbreak.breaksAt.unique hbreak'.breaksAt
    | space _ _ hnone => exact absurd hbreak (hnone s hs _)
    | early _ _ hnone => exact absurd hbreak (hnone s hs _)
  | @space s hs hspace hnone hlast =>
    cases h' with
    | late hs' hbreak' => exact absurd hbreak' (hnone _ hs' _)
    | @space s' hs' hspace' _ hlast' =>
      have hle : s' ≤ s := not_lt.mp fun hlt => hlast s' hlt hs' hspace'
      have hge : s ≤ s' := not_lt.mp fun hlt => hlast' s hlt hs hspace
      rw [le_antisymm hge hle]
    | early _ _ _ hspace' => exact absurd hspace (hspace' s hs)
  | @early s _ hs hbreak hnone hspace hlast =>
    cases h' with
    | late hs' hbreak' => exact absurd hbreak' (hnone _ hs' _)
    | space hs' hspace' => exact absurd hspace' (hspace _ hs')
    | @early s' _ hs' hbreak' _ _ hlast' =>
      have hle : s' ≤ s := not_lt.mp fun hlt => hlast s' hlt hs' _ hbreak'
      have hge : s ≤ s' := not_lt.mp fun hlt => hlast' s hlt hs _ hbreak
      obtain rfl : s = s' := le_antisymm hge hle
      exact hbreak.unique hbreak'

/-! ## The scan -/

/-- What is remembered of the first `i` offsets, none of which has a late break. -/
inductive Remembers (minChunk : ℕ) (rest : Bytes) (i : ℕ) : Search → Prop
  | nothing (hbreak : ∀ s < i, ∀ d, ¬ BreaksAt rest s d)
      (hspace : ∀ s < i, ¬ LateSpace minChunk rest s) : Remembers minChunk rest i ⟨none, 0⟩
  | space {s : ℕ} (hs : s < i) (hspace : LateSpace minChunk rest s)
      (hlast : ∀ s', s < s' → s' < i → ¬ LateSpace minChunk rest s') :
      Remembers minChunk rest i ⟨some (s + 1), s⟩
  | early {s d dist : ℕ} (hs : s < i) (hbreak : BreaksAt rest s d) (hdist : dist ≤ s + 1)
      (hearly : dist < minChunk) (hspace : ∀ s' < i, ¬ LateSpace minChunk rest s')
      (hlast : ∀ s', s < s' → s' < i → ∀ d', ¬ BreaksAt rest s' d') :
      Remembers minChunk rest i ⟨some d, dist⟩

/-- What is remembered is nowhere behind the offset. -/
theorem Remembers.bestDist_le {minChunk i : ℕ} {rest : Bytes} {st : Search}
    (h : Remembers minChunk rest i st) : st.bestDist ≤ i := by
  cases h with
  | nothing => exact Nat.zero_le i
  | space hs => exact hs.le
  | early hs _ hdist => exact hdist.trans hs

/-- One offset of the scan without a late break. -/
def Search.next (st : Search) (minChunk : ℕ) (s : Bytes) (i : ℕ) : Search :=
  ((st.paragraph s i).sentence s i).word minChunk s i

theorem Search.next_of_paragraph (st : Search) {minChunk i : ℕ} {s : Bytes}
    (h : endsParagraph s = true) : st.next minChunk s i = ⟨some (i + 2), i⟩ := by
  have hfirst : s[0]? = some (ch '\n') := by
    rw [endsParagraph, Bool.and_eq_true, decide_eq_true_eq] at h
    exact h.1
  have hne : ¬ (ch '\n' = ch ' ') := by decide
  simp only [next, Search.paragraph, Search.sentence, Search.word, h,
    not_endsSentence_of_endsParagraph h, hfirst, hne, if_true, Bool.false_and, Option.some.injEq,
    decide_false, Bool.false_eq_true, if_false]

theorem Search.next_of_sentence {st : Search} {minChunk i : ℕ} {s : Bytes}
    (h : endsSentence s = true) (hdist : st.bestDist ≤ i) :
    st.next minChunk s i = ⟨some (i + 1), i + 1⟩ := by
  have hparagraph : endsParagraph s = false := by
    rw [← Bool.not_eq_true]
    intro hp
    rw [not_endsSentence_of_endsParagraph hp] at h
    exact absurd h (by simp)
  have hfirst : s[0]? ≠ some (ch ' ') := by
    intro h0
    rw [endsSentence, h0] at h
    exact absurd h (by simp [isSentenceEnd, show ¬ (ch ' ' = ch '.') by decide,
      show ¬ (ch ' ' = ch '!') by decide, show ¬ (ch ' ' = ch '?') by decide])
  have hlt : st.bestDist < i + 1 := Nat.lt_succ_of_le hdist
  simp only [next, Search.paragraph, Search.sentence, Search.word, hparagraph, h, hfirst, hlt,
    Bool.false_eq_true, if_false, decide_true, Bool.and_self, if_true, decide_false,
    Bool.false_and]

theorem Search.next_of_none {st : Search} {minChunk i : ℕ} {s : Bytes}
    (hp : endsParagraph s = false) (hs : endsSentence s = false) :
    st.next minChunk s i = st.word minChunk s i := by
  simp only [next, Search.paragraph, Search.sentence, hp, hs, Bool.false_eq_true, if_false,
    Bool.false_and]

/-- An early break takes the place of what is remembered. -/
theorem Remembers.next_early {minChunk i d dist : ℕ} {rest : Bytes} {st : Search}
    (h : Remembers minChunk rest i st) (hbreak : BreaksAt rest i d) (hdist : dist ≤ i + 1)
    (hearly : dist < minChunk) (hi : i ≤ dist) (hno : rest[i]? ≠ some (ch ' ')) :
    Remembers minChunk rest (i + 1) ⟨some d, dist⟩ := by
  apply Remembers.early (Nat.lt_succ_self i) hbreak hdist hearly
  · intro s' hs' hspace
    rcases Nat.lt_succ_iff_lt_or_eq.mp hs' with hlt | rfl
    · have hmin := hspace.1
      omega
    · exact hno hspace.2
  · intro s' hlt hlt'
    omega

/-- A late space takes the place of what is remembered. -/
theorem Remembers.next_space {minChunk i : ℕ} {rest : Bytes} {st : Search}
    (h : Remembers minChunk rest i st) (hspace : LateSpace minChunk rest i) :
    st.word minChunk (rest.drop i) i = ⟨some (i + 1), i⟩ := by
  have hbetter : st.best.isNone = true ∨ st.bestDist < i := by
    cases h with
    | nothing => exact Or.inl rfl
    | space hs => exact Or.inr hs
    | early _ _ _ hearly => exact Or.inr (hearly.trans_le hspace.1)
  rw [Search.word, if_pos]
  rw [getElem?_drop_zero, hspace.2]
  simpa [hspace.1] using hbetter

/-- Elsewhere nothing new is remembered. -/
theorem Remembers.next_other {minChunk i : ℕ} {rest : Bytes} {st : Search}
    (h : Remembers minChunk rest i st) (hbreak : ∀ d, ¬ BreaksAt rest i d)
    (hspace : ¬ LateSpace minChunk rest i) :
    Remembers minChunk rest (i + 1) (st.word minChunk (rest.drop i) i) := by
  have hsame : st.word minChunk (rest.drop i) i = st := by
    rw [Search.word, if_neg]
    rw [getElem?_drop_zero]
    intro hword
    rw [Bool.and_eq_true, Bool.and_eq_true, decide_eq_true_eq, decide_eq_true_eq] at hword
    exact hspace ⟨hword.1.2, hword.1.1⟩
  rw [hsame]
  cases h with
  | nothing hb hw =>
    apply Remembers.nothing
    · intro s hs
      rcases Nat.lt_succ_iff_lt_or_eq.mp hs with hlt | rfl
      · exact hb s hlt
      · exact hbreak
    · intro s hs
      rcases Nat.lt_succ_iff_lt_or_eq.mp hs with hlt | rfl
      · exact hw s hlt
      · exact hspace
  | space hs hw hlast =>
    apply Remembers.space (hs.trans (Nat.lt_succ_self i)) hw
    intro s' hlt hs'
    rcases Nat.lt_succ_iff_lt_or_eq.mp hs' with hlt' | rfl
    · exact hlast s' hlt hlt'
    · exact hspace
  | early hs hb hdist hearly hw hlast =>
    apply Remembers.early (hs.trans (Nat.lt_succ_self i)) hb hdist hearly
    · intro s' hs'
      rcases Nat.lt_succ_iff_lt_or_eq.mp hs' with hlt | rfl
      · exact hw s' hlt
      · exact hspace
    · intro s' hlt hs'
      rcases Nat.lt_succ_iff_lt_or_eq.mp hs' with hlt' | rfl
      · exact hlast s' hlt hlt'
      · exact hbreak

/-- One offset of the scan. -/
theorem Remembers.next {minChunk i : ℕ} {rest : Bytes} {st : Search}
    (h : Remembers minChunk rest i st) (hlate : ∀ d, ¬ LateBreak minChunk rest i d) :
    Remembers minChunk rest (i + 1) (st.next minChunk (rest.drop i) i) := by
  cases hp : endsParagraph (rest.drop i) with
  | true =>
    have hearly : i < minChunk := not_le.mp fun hle => hlate _ (Or.inl ⟨hp, hle, rfl⟩)
    rw [Search.next_of_paragraph _ hp]
    apply h.next_early (Or.inl ⟨hp, rfl⟩) (Nat.le_succ i) hearly le_rfl
    rw [((endsParagraph_iff rest i).mp hp).1]
    decide
  | false =>
    cases hs : endsSentence (rest.drop i) with
    | true =>
      have hearly : i + 1 < minChunk := not_le.mp fun hle => hlate _ (Or.inr ⟨hs, hle, rfl⟩)
      rw [Search.next_of_sentence hs h.bestDist_le]
      apply h.next_early (Or.inr ⟨hs, rfl⟩) le_rfl hearly (Nat.le_succ i)
      obtain ⟨⟨c, hc, hend⟩, -⟩ := (endsSentence_iff rest i).mp hs
      rw [hc]
      intro heq
      rw [Option.some.inj heq] at hend
      exact absurd hend (by decide)
    | false =>
      rw [Search.next_of_none hp hs]
      have hbreak : ∀ d, ¬ BreaksAt rest i d := by
        rintro d (⟨hp', -⟩ | ⟨hs', -⟩)
        · rw [hp] at hp'
          exact absurd hp' (by simp)
        · rw [hs] at hs'
          exact absurd hs' (by simp)
      by_cases hspace : LateSpace minChunk rest i
      · rw [h.next_space hspace]
        apply Remembers.space (Nat.lt_succ_self i) hspace
        intro s' hlt hlt'
        omega
      · exact h.next_other hbreak hspace

/-- What is remembered at the end of the window is where the text is split. -/
theorem Remembers.splitsAt {maxFromStart minChunk : ℕ} {rest : Bytes} {st : Search} {i : ℕ}
    (h : Remembers minChunk rest i st) (hlate : ∀ s < i, ∀ d, ¬ LateBreak minChunk rest s d)
    (hi : i ≤ maxFromStart) (hend : i = maxFromStart ∨ rest.length ≤ i) :
    (∃ d, SplitsAt maxFromStart minChunk rest d ∧ st.best = some d) ∨
      ((∀ d, ¬ SplitsAt maxFromStart minChunk rest d) ∧ st.best = none) := by
  have hb : ∀ s, i ≤ s → s < maxFromStart → ∀ d, ¬ BreaksAt rest s d := by
    intro s his hs d hbreak
    have hlt := hbreak.bounds.1
    have hle := hbreak.le_length
    omega
  have hw : ∀ s, i ≤ s → s < maxFromStart → ¬ LateSpace minChunk rest s := by
    intro s his hs hspace
    have hlt := (List.getElem?_eq_some_iff.mp hspace.2).1
    omega
  have hnone : ∀ s < maxFromStart, ∀ d, ¬ LateBreak minChunk rest s d := by
    intro s hs d hbreak
    rcases lt_or_ge s i with hlt | hge
    · exact hlate s hlt d hbreak
    · exact hb s hge hs d hbreak.breaksAt
  cases h with
  | nothing hbreak hspace =>
    right
    refine ⟨?_, rfl⟩
    intro d hsplit
    cases hsplit with
    | late hs hl => exact hnone _ hs _ hl
    | space hs hl =>
      rcases lt_or_ge _ i with hlt | hge
      · exact hspace _ hlt hl
      · exact hw _ hge hs hl
    | early hs hl =>
      rcases lt_or_ge _ i with hlt | hge
      · exact hbreak _ hlt _ hl
      · exact hb _ hge hs _ hl
  | space hs hspace hlast =>
    left
    refine ⟨_, SplitsAt.space (hs.trans_le hi) hspace hnone ?_, rfl⟩
    intro s' hlt hs'
    rcases lt_or_ge s' i with hlt' | hge
    · exact hlast s' hlt hlt'
    · exact hw s' hge hs'
  | early hs hbreak _ _ hspace hlast =>
    left
    refine ⟨_, SplitsAt.early (hs.trans_le hi) hbreak hnone ?_ ?_, rfl⟩
    · intro s' hs'
      rcases lt_or_ge s' i with hlt | hge
      · exact hspace s' hlt
      · exact hw s' hge hs'
    · intro s' hlt hs'
      rcases lt_or_ge s' i with hlt' | hge
      · exact hlast s' hlt hlt'
      · exact hb s' hge hs'

/-- What the scan from an offset on finds. -/
theorem splitScan_spec {maxFromStart minChunk : ℕ} {rest : Bytes} (t : Bytes) :
    ∀ (i : ℕ) (st : Search), rest.drop i = t → i ≤ rest.length → i ≤ maxFromStart →
      (∀ s < i, ∀ d, ¬ LateBreak minChunk rest s d) → Remembers minChunk rest i st →
      SplitsAt maxFromStart minChunk rest (splitScan maxFromStart minChunk t i st) ∨
        ((∀ d, ¬ SplitsAt maxFromStart minChunk rest d) ∧
          splitScan maxFromStart minChunk t i st = rest.length) := by
  induction t with
  | nil =>
    intro i st ht hlen hi hlate hst
    have hend : rest.length ≤ i := List.drop_eq_nil_iff.mp ht
    rw [splitScan]
    rcases hst.splitsAt hlate hi (Or.inr hend) with ⟨d, hd, hbest⟩ | ⟨hno, hbest⟩
    · rw [hbest]
      exact Or.inl hd
    · rw [hbest]
      exact Or.inr ⟨hno, le_antisymm hlen hend⟩
  | cons c t ih =>
    intro i st ht hlen hi hlate hst
    have hdrop : rest.length - i = (c :: t).length := by rw [← ht, List.length_drop]
    rw [splitScan, ← ht]
    split_ifs with hmax hp hs
    · rcases hst.splitsAt hlate hi (Or.inl (le_antisymm hi hmax)) with ⟨d, hd, hbest⟩ | ⟨hno, hbest⟩
      · rw [hbest]
        exact Or.inl hd
      · rw [hbest, List.length_drop]
        exact Or.inr ⟨hno, Nat.add_sub_of_le hlen⟩
    · rw [Bool.and_eq_true, decide_eq_true_eq] at hp
      exact Or.inl (SplitsAt.late (not_le.mp hmax) (Or.inl ⟨hp.1, hp.2, rfl⟩) hlate)
    · rw [Bool.and_eq_true, decide_eq_true_eq] at hs
      exact Or.inl (SplitsAt.late (not_le.mp hmax) (Or.inr ⟨hs.1, hs.2, rfl⟩) hlate)
    · have hnow : ∀ d, ¬ LateBreak minChunk rest i d := by
        rintro d (⟨h, hmin, -⟩ | ⟨h, hmin, -⟩)
        · exact hp (by simp [h, hmin])
        · exact hs (by simp [h, hmin])
      apply ih (i + 1) _ _ _ _ _ (hst.next hnow)
      · rw [← List.drop_drop, ht]
        rfl
      · rw [List.length_cons] at hdrop
        omega
      · omega
      · intro s hlt
        rcases Nat.lt_succ_iff_lt_or_eq.mp hlt with hlt | rfl
        · exact hlate s hlt
        · exact hnow

/-- `find_split_point` splits where the text is to be split, and otherwise at the end. -/
theorem findSplitPoint_spec (rest : Bytes) (maxFromStart minChunk : ℕ) :
    SplitsAt maxFromStart minChunk rest (findSplitPoint rest maxFromStart minChunk) ∨
      ((∀ d, ¬ SplitsAt maxFromStart minChunk rest d) ∧
        findSplitPoint rest maxFromStart minChunk = rest.length) := by
  apply splitScan_spec rest 0 _ rfl (Nat.zero_le _) (Nat.zero_le _)
  · intro s hs
    exact absurd hs (Nat.not_lt_zero s)
  · apply Remembers.nothing
    · intro s hs
      exact absurd hs (Nat.not_lt_zero s)
    · intro s hs
      exact absurd hs (Nat.not_lt_zero s)

theorem SplitsAt.findSplitPoint_eq {maxFromStart minChunk d : ℕ} {rest : Bytes}
    (h : SplitsAt maxFromStart minChunk rest d) : findSplitPoint rest maxFromStart minChunk = d := by
  rcases findSplitPoint_spec rest maxFromStart minChunk with hfound | ⟨hno, -⟩
  · exact hfound.unique h
  · exact absurd h (hno d)

theorem findSplitPoint_of_not {maxFromStart minChunk : ℕ} {rest : Bytes}
    (h : ∀ d, ¬ SplitsAt maxFromStart minChunk rest d) :
    findSplitPoint rest maxFromStart minChunk = rest.length := by
  rcases findSplitPoint_spec rest maxFromStart minChunk with hfound | ⟨-, hend⟩
  · exact absurd hfound (h _)
  · exact hend

/-- A split leaves octets on its left and none of them is behind the end. -/
theorem SplitsAt.bounds {maxFromStart minChunk d : ℕ} {rest : Bytes}
    (h : SplitsAt maxFromStart minChunk rest d) : 0 < d ∧ d ≤ rest.length := by
  cases h with
  | late _ hbreak => exact ⟨by have := hbreak.breaksAt.bounds; omega, hbreak.breaksAt.le_length⟩
  | space _ hspace => exact ⟨Nat.succ_pos _, (List.getElem?_eq_some_iff.mp hspace.2).1⟩
  | early _ hbreak => exact ⟨by have := hbreak.bounds; omega, hbreak.le_length⟩

end SeaClaw.Memory.Chunker
