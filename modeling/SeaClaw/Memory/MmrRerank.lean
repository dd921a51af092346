import SeaClaw.Lib.GreedyOrder
import SeaClaw.Lib.Words
import SeaClaw.Memory.Entry
import SeaClaw.Providers.Scrub

/-!
# Reranking by relevance and novelty

`sc_mmr_rerank` of `memory/retrieval/reranker.c`. Each round places the entry whose words agree
best with the query, less what they agree with an entry placed before. Words are kept in lists, so
that a word that is repeated is counted again; similarities are rational.
-/

namespace SeaClaw.Memory

open SeaClaw.Lib GreedyOrder Providers

/-! ## The code -/

/-- `isalnum(c) || c == '_'` -/
def isWordOctet (b : UInt8) : Bool := isAlnum b || b == ch '_'

/-- `word_set_from_text` -/
def wordSetFromText (s : Bytes) : List Bytes :=
  match _ : s.dropWhile fun b => !isWordOctet b with
  | [] => []
  | b :: rest =>
    ((b :: rest).takeWhile isWordOctet).map toLower ::
      wordSetFromText (rest.dropWhile isWordOctet)
termination_by s.length
decreasing_by
  have hskip := (List.dropWhile_sublist (l := s) fun b => !isWordOctet b).length_le
  have hword := (List.dropWhile_sublist (l := rest) isWordOctet).length_le
  simp_all only [List.length_cons]
  omega

/-- `jaccard_similarity` -/
def jaccardSimilarity (a b : List Bytes) : ℚ :=
  if a = [] ∧ b = [] then 0
  else if a = [] ∨ b = [] then 0
  else
    let inter := a.countP (b.contains ·)
    let un := a.length + b.length - inter
    if un = 0 then 0 else (inter : ℚ) / un

variable {S : Type}

/-- `entry_to_text` -/
def entryToText (e : MemoryEntry Bytes) : Bytes :=
  let key := e.key.getD []
  let content := e.content.getD []
  if key ≠ [] ∧ content ≠ [] then content
  else if content ≠ [] then content
  else if key ≠ [] then key
  else []

/-- `SC_MMR_LAMBDA_DEFAULT` -/
def scMmrLambdaDefault : ℚ := 7 / 10

/-- `lam`: comparisons with what is not a number are false. -/
def mmrLam : Binary64 → ℚ
  | .finite neg mag _ =>
    let lambda := if neg then -mag else mag
    if 0 ≤ lambda ∧ lambda ≤ 1 then lambda else scMmrLambdaDefault
  | .inf _ | .nan _ => scMmrLambdaDefault

/-- `doc_sets[i]` -/
def docSet (docSets : List (List Bytes)) (i : ℕ) : List Bytes := docSets.getD i []

/-- `max_sim_dj` of the entry `i`. -/
def maxSimDj (docSets : List (List Bytes)) (selected : List ℕ) (i : ℕ) : ℚ :=
  (List.range docSets.length).foldl (fun best j =>
    if j ∉ selected ∨ j = i then best
    else
      let s := jaccardSimilarity (docSet docSets i) (docSet docSets j)
      if best < s then s else best) 0

/-- `mmr` of the entry `i`. -/
def mmrOf (lam : ℚ) (queryWs : List Bytes) (docSets : List (List Bytes)) (selected : List ℕ)
    (i : ℕ) : ℚ :=
  lam * jaccardSimilarity queryWs (docSet docSets i) - (1 - lam) * maxSimDj docSets selected i

/-- The value that `best_mmr` starts from, `-1e99`. -/
def mmrStart : ℚ := -10 ^ 99

/-- `sc_mmr_rerank`: the entries and the scores as the call leaves them. -/
def scMmrRerank (query : Bytes) (pairs : List (MemoryEntry Bytes × S)) (lambda : Binary64) :
    List (MemoryEntry Bytes × S) :=
  let docSets := pairs.map fun p => wordSetFromText (entryToText p.1)
  picked mmrStart (mmrOf (mmrLam lambda) (wordSetFromText query) docSets) pairs

/-! ## What is meant -/

/-- The lower-cased words of a text, in their order. -/
def lowerWords (s : Bytes) : List Bytes :=
  (Words.words (fun b => !isWordOctet b) s).map (·.map toLower)

/-- How much two sets share: the Jaccard index. -/
def jaccardIndex (A B : Finset Bytes) : ℚ := (A ∩ B).card / (A ∪ B).card

/-- The index of the sets of lower-cased words of two texts. -/
def textSimilarity (s t : Bytes) : ℚ :=
  jaccardIndex (lowerWords s).toFinset (lowerWords t).toFinset

/-- Relevance to the query, less the greatest similarity to a text that was chosen before. -/
def mmr (lambda : ℚ) (query : Bytes) (chosen : List Bytes) (d : Bytes) : ℚ :=
  lambda * textSimilarity query d - (1 - lambda) * (chosen.map (textSimilarity d)).foldl max 0

/-- The pairs in an order in which each is the best of those that were left. -/
structure Reranked (lambda : ℚ) (query : Bytes) (pairs out : List (MemoryEntry Bytes × S)) :
    Prop where
  perm : out.Perm pairs
  best : ∀ l e r, out = l ++ e :: r → ∀ d ∈ r,
    mmr lambda query (l.map fun p => entryToText p.1) (entryToText d.1) ≤
      mmr lambda query (l.map fun p => entryToText p.1) (entryToText e.1)

/-! ## The words that are read -/

theorem wordSetFromText_eq (s : Bytes) : wordSetFromText s = lowerWords s := by
  induction h : s.length using Nat.strong_induction_on generalizing s with
  | _ n ih =>
    have hskip := Words.words_dropWhile (fun b => !isWordOctet b) s
    rw [wordSetFromText, lowerWords, ← hskip]
    split
    · rename_i hnil
      rw [hnil]
      rfl
    · rename_i b rest hcons
      have hlen := (List.dropWhile_sublist (l := s) fun b => !isWordOctet b).length_le
      have hlen' := (List.dropWhile_sublist (l := rest) isWordOctet).length_le
      rw [hcons, List.length_cons] at hlen
      have hhead : ∀ c ∈ (b :: rest).head?, (!isWordOctet c) = false := by
        rw [← hcons]
        intro c hc
        exact Words.head?_dropWhile_sep (fun b => !isWordOctet b) hc
      have hb : isWordOctet b = true := by simpa using hhead b (by simp)
      rw [hcons, Words.words_eq_cons (List.cons_ne_nil _ _) hhead, List.map_cons,
        ih _ (by omega) (rest.dropWhile isWordOctet) rfl]
      simp only [Bool.not_not, lowerWords]
      rw [List.dropWhile_cons_of_pos hb]

/-- No more words than octets are read. -/
theorem length_wordSetFromText_le (s : Bytes) : (wordSetFromText s).length ≤ s.length := by
  induction h : s.length using Nat.strong_induction_on generalizing s with
  | _ n ih =>
    rw [wordSetFromText]
    split
    · exact Nat.zero_le _
    · rename_i b rest hcons
      have hlen := (List.dropWhile_sublist (l := s) fun b => !isWordOctet b).length_le
      have hlen' := (List.dropWhile_sublist (l := rest) isWordOctet).length_le
      rw [hcons, List.length_cons] at hlen
      have hrest := ih _ (by omega) (rest.dropWhile isWordOctet) rfl
      rw [List.length_cons]
      omega

/-! ## Counting and sets -/

theorem jaccardSimilarity_eq (a b : List Bytes) : jaccardSimilarity a b =
    if a = [] ∨ b = [] then 0
    else (a.countP (b.contains ·) : ℚ) /
      (a.length + b.length - a.countP (b.contains ·) : ℕ) := by
  simp only [jaccardSimilarity]
  by_cases hone : a = [] ∨ b = []
  · rw [if_pos hone, if_pos hone, ite_self]
  · have hboth : ¬ (a = [] ∧ b = []) := fun h => hone (Or.inl h.1)
    rw [if_neg hone, if_neg hone, if_neg hboth]
    split_ifs with hzero
    · rw [hzero, Nat.cast_zero, div_zero]
    · rfl

/-- A similarity counts at most the words of the first text. -/
theorem jaccardSimilarity_le (a b : List Bytes) : jaccardSimilarity a b ≤ a.length := by
  rw [jaccardSimilarity_eq]
  split_ifs with hone
  · exact Nat.cast_nonneg _
  · rw [not_or] at hone
    have hcount : a.countP (b.contains ·) ≤ a.length := List.countP_le_length
    have hb : 0 < b.length := List.length_pos_iff.mpr hone.2
    have hpos : (1 : ℚ) ≤ (a.length + b.length - a.countP (b.contains ·) : ℕ) := by
      norm_cast
      omega
    have hinter : (a.countP (b.contains ·) : ℚ) ≤ a.length := Nat.cast_le.mpr hcount
    exact (div_le_self (Nat.cast_nonneg _) hpos).trans hinter

/-- Where no word is repeated, what is counted is the index of the sets. -/
theorem jaccardSimilarity_of_nodup {a b : List Bytes} (ha : a.Nodup) (hb : b.Nodup) :
    jaccardSimilarity a b = jaccardIndex a.toFinset b.toFinset := by
  have hinter : a.countP (b.contains ·) = (a.toFinset ∩ b.toFinset).card := by
    rw [List.countP_eq_length_filter, ← List.toFinset_card_of_nodup (ha.filter _)]
    congr 1
    ext w
    simp
  have hunion := Finset.card_union_add_card_inter a.toFinset b.toFinset
  rw [List.toFinset_card_of_nodup ha, List.toFinset_card_of_nodup hb] at hunion
  have hun : a.length + b.length - (a.toFinset ∩ b.toFinset).card =
      (a.toFinset ∪ b.toFinset).card := by omega
  rw [jaccardSimilarity_eq, jaccardIndex, hinter, hun]
  split_ifs with hone
  · rcases hone with rfl | rfl
    · simp
    · simp
  · rfl

/-! ## The greatest similarity -/

theorem foldl_max_le_iff {l : List ℚ} {a c : ℚ} :
    l.foldl max a ≤ c ↔ a ≤ c ∧ ∀ x ∈ l, x ≤ c := by
  induction l generalizing a with
  | nil => simp
  | cons x l ih =>
    rw [List.foldl_cons, ih, max_le_iff, List.forall_mem_cons, and_assoc]

theorem maxSimDj_le_iff {docSets : List (List Bytes)} {selected : List ℕ} {i : ℕ} {c : ℚ} :
    maxSimDj docSets selected i ≤ c ↔ 0 ≤ c ∧ ∀ j < docSets.length, j ∈ selected → j ≠ i →
      jaccardSimilarity (docSet docSets i) (docSet docSets j) ≤ c := by
  have hfold : ∀ (l : List ℕ) (a : ℚ), l.foldl (fun best j =>
      if j ∉ selected ∨ j = i then best
      else
        let s := jaccardSimilarity (docSet docSets i) (docSet docSets j)
        if best < s then s else best) a ≤ c ↔ a ≤ c ∧ ∀ j ∈ l, j ∈ selected → j ≠ i →
            jaccardSimilarity (docSet docSets i) (docSet docSets j) ≤ c := by
    intro l
    induction l with
    | nil =>
      intro a
      simp
    | cons j l ih =>
      intro a
      rw [List.foldl_cons, ih, List.forall_mem_cons]
      dsimp only
      split_ifs with hskip hlt
      · have hnone : j ∈ selected → j ≠ i →
            jaccardSimilarity (docSet docSets i) (docSet docSets j) ≤ c := by
          intro hmem hne
          exact (hskip.elim (absurd hmem) hne).elim
        constructor
        · intro ⟨ha, hall⟩
          exact ⟨ha, hnone, hall⟩
        · intro ⟨ha, _, hall⟩
          exact ⟨ha, hall⟩
      · rw [not_or, not_not] at hskip
        constructor
        · intro ⟨hle, hall⟩
          exact ⟨hlt.le.trans hle, fun _ _ => hle, hall⟩
        · intro ⟨_, hj, hall⟩
          exact ⟨hj hskip.1 hskip.2, hall⟩
      · constructor
        · intro ⟨ha, hall⟩
          exact ⟨ha, fun _ _ => (not_lt.mp hlt).trans ha, hall⟩
        · intro ⟨ha, _, hall⟩
          exact ⟨ha, hall⟩
  rw [maxSimDj, hfold]
  simp only [List.mem_range]

section Results

variable {query : Bytes} {pairs : List (MemoryEntry Bytes × S)} {lambda : Binary64}

/-- The word lists of the entries. -/
def docSetsOf (pairs : List (MemoryEntry Bytes × S)) : List (List Bytes) :=
  pairs.map fun p => wordSetFromText (entryToText p.1)

theorem docSet_of_getElem? {i : ℕ} {p : MemoryEntry Bytes × S} (h : pairs[i]? = some p) :
    docSet (docSetsOf pairs) i = lowerWords (entryToText p.1) := by
  rw [docSet, List.getD_eq_getElem?_getD, docSetsOf, List.getElem?_map, h, ← wordSetFromText_eq]
  rfl

/-- The weight that is used lies between zero and one. -/
theorem mmrLam_mem (lambda : Binary64) : 0 ≤ mmrLam lambda ∧ mmrLam lambda ≤ 1 := by
  have hdefault : 0 ≤ scMmrLambdaDefault ∧ scMmrLambdaDefault ≤ 1 := by
    norm_num [scMmrLambdaDefault]
  cases lambda with
  | finite neg mag grid =>
    simp only [mmrLam]
    split_ifs with _ h h
    · exact h
    · exact hdefault
    · exact h
    · exact hdefault
  | inf neg => exact hdefault
  | nan neg => exact hdefault

theorem maxSimDj_nonneg (docSets : List (List Bytes)) (selected : List ℕ) (i : ℕ) :
    0 ≤ maxSimDj docSets selected i := (maxSimDj_le_iff.mp le_rfl).1

theorem jaccardSimilarity_nonneg (a b : List Bytes) : 0 ≤ jaccardSimilarity a b := by
  rw [jaccardSimilarity_eq]
  split_ifs
  · exact le_rfl
  · positivity

/-- For texts that fit into memory every gain is above the value that a round starts from. -/
theorem mmrStart_lt_mmrOf (hfits : ∀ p ∈ pairs, (entryToText p.1).length < 2 ^ 64)
    (queryWs : List Bytes) (selected : List ℕ) {i : ℕ} (hi : i < pairs.length) :
    mmrStart < mmrOf (mmrLam lambda) queryWs (docSetsOf pairs) selected i := by
  obtain ⟨hlow, hhigh⟩ := mmrLam_mem lambda
  have hget := List.getElem?_eq_getElem hi
  have hlen := hfits pairs[i] (List.getElem_mem hi)
  have hwords : ((docSet (docSetsOf pairs) i).length : ℚ) ≤ 2 ^ 64 := by
    rw [docSet_of_getElem? hget, ← wordSetFromText_eq]
    exact_mod_cast (length_wordSetFromText_le _).trans hlen.le
  have hmax : maxSimDj (docSetsOf pairs) selected i ≤ 2 ^ 64 := by
    rw [maxSimDj_le_iff]
    refine ⟨by positivity, ?_⟩
    intro j _ _ _
    exact (jaccardSimilarity_le _ _).trans hwords
  have hrelevant := mul_nonneg hlow
    (jaccardSimilarity_nonneg queryWs (docSet (docSetsOf pairs) i))
  have hnovel : (1 - mmrLam lambda) * maxSimDj (docSetsOf pairs) selected i ≤ 1 * 2 ^ 64 := by
    apply mul_le_mul _ hmax (maxSimDj_nonneg _ _ _) zero_le_one
    linarith
  have hstart : mmrStart < -(1 * 2 ^ 64) := by
    norm_num [mmrStart]
  rw [mmrOf]
  linarith

/-- Without repeated words a gain is relevance less similarity to what was chosen. -/
theorem mmrOf_eq (hquery : (lowerWords query).Nodup)
    (hentries : ∀ p ∈ pairs, (lowerWords (entryToText p.1)).Nodup) {lam : ℚ} {taken : List ℕ}
    (htaken : ∀ t ∈ taken, t < pairs.length) {i : ℕ} {p : MemoryEntry Bytes × S}
    (hfree : i ∉ taken) (hi : pairs[i]? = some p) :
    mmrOf lam (wordSetFromText query) (docSetsOf pairs) taken i =
      mmr lam query ((taken.filterMap (pairs[·]?)).map fun p => entryToText p.1)
        (entryToText p.1) := by
  have hsim : ∀ {j : ℕ} {q : MemoryEntry Bytes × S}, pairs[j]? = some q →
      jaccardSimilarity (docSet (docSetsOf pairs) i) (docSet (docSetsOf pairs) j) =
        textSimilarity (entryToText p.1) (entryToText q.1) := by
    intro j q hj
    rw [docSet_of_getElem? hi, docSet_of_getElem? hj]
    exact jaccardSimilarity_of_nodup (hentries p (List.mem_of_getElem? hi))
      (hentries q (List.mem_of_getElem? hj))
  have hmax : maxSimDj (docSetsOf pairs) taken i = (((taken.filterMap (pairs[·]?)).map
      fun p => entryToText p.1).map (textSimilarity (entryToText p.1))).foldl max 0 := by
    apply eq_of_forall_ge_iff
    intro c
    rw [maxSimDj_le_iff, foldl_max_le_iff]
    apply and_congr_right
    intro _
    simp only [List.forall_mem_map, List.mem_filterMap]
    constructor
    · intro h q ⟨t, ht, htq⟩
      rw [← hsim htq]
      refine h t ?_ ht fun hti => hfree (hti ▸ ht)
      rw [docSetsOf, List.length_map]
      exact htaken t ht
    · intro h j _ hj _
      have hget := List.getElem?_eq_getElem (htaken j hj)
      rw [hsim hget]
      exact h _ ⟨j, hj, hget⟩
  rw [mmrOf, mmr, hmax, docSet_of_getElem? hi, wordSetFromText_eq,
    jaccardSimilarity_of_nodup hquery (hentries p (List.mem_of_getElem? hi))]
  rfl

/-- The call leaves the pairs in another order, and where no text repeats a word, each is the best
of those that were left for the weight that is used. -/
theorem scMmrRerank_spec (query : Bytes) (pairs : List (MemoryEntry Bytes × S)) (lambda : Binary64)
    (hfits : ∀ p ∈ pairs, (entryToText p.1).length < 2 ^ 64) :
    (scMmrRerank query pairs lambda).Perm pairs ∧
      ((lowerWords query).Nodup → (∀ p ∈ pairs, (lowerWords (entryToText p.1)).Nodup) →
        Reranked (mmrLam lambda) query pairs (scMmrRerank query pairs lambda)) := by
  have hlow : ∀ taken : List ℕ, ∀ i < pairs.length, mmrStart <
      mmrOf (mmrLam lambda) (wordSetFromText query) (docSetsOf pairs) taken i :=
    fun taken i hi => mmrStart_lt_mmrOf hfits _ taken hi
  have hperm : (scMmrRerank query pairs lambda).Perm pairs := picked_perm hlow
  refine ⟨hperm, fun hquery hentries => ⟨hperm, ?_⟩⟩
  intro l e r hout d hd
  obtain ⟨taken, j, htaken, rfl, hfree, hj, hbest⟩ := picked_best hlow hout
  obtain ⟨i, hi, hid, hle⟩ := hbest d hd
  rwa [mmrOf_eq hquery hentries htaken hi hid, mmrOf_eq hquery hentries htaken hfree hj] at hle

/-- Entries that have only their contents. -/
def entriesOf (contents : List Bytes) : List (MemoryEntry Bytes × Unit) :=
  contents.map fun content =>
    (⟨none, none, some content, ⟨.core, none⟩, none, none, Binary64.ofInt 0 (by decide)⟩, ())

theorem one_lt_two_pow_53 : (1 : ℤ).natAbs < 2 ^ 53 := by decide

/-- The weight 1. -/
def weightOne : Binary64 := Binary64.ofInt 1 one_lt_two_pow_53

/-- The weight -1. -/
def weightMinusOne : Binary64 := Binary64.ofInt (-1) (by decide)

/-- Two entries that share a word with the query. -/
theorem scMmrRerank_spec_two :
    (scMmrRerank (ascii "a") (entriesOf [ascii "a b", ascii "A"]) weightOne).Perm
        (entriesOf [ascii "a b", ascii "A"]) ∧
      Reranked (mmrLam weightOne) (ascii "a") (entriesOf [ascii "a b", ascii "A"])
        (scMmrRerank (ascii "a") (entriesOf [ascii "a b", ascii "A"]) weightOne) := by
  have hfits : ∀ p ∈ entriesOf [ascii "a b", ascii "A"], (entryToText p.1).length < 2 ^ 64 := by
    intro p hp
    rcases List.mem_pair.mp hp with rfl | rfl
    · decide
    · decide
  have hwords : ∀ p ∈ entriesOf [ascii "a b", ascii "A"],
      (lowerWords (entryToText p.1)).Nodup := by
    intro p hp
    rcases List.mem_pair.mp hp with rfl | rfl
    · decide
    · decide
  have hspec := scMmrRerank_spec (ascii "a") _ weightOne hfits
  exact ⟨hspec.1, hspec.2 (by decide) hwords⟩

theorem scMmrRerank_eq (query : Bytes) (pairs : List (MemoryEntry Bytes × S))
    (lambda : Binary64) :
    scMmrRerank query pairs lambda = picked mmrStart (mmrOf (mmrLam lambda) (lowerWords query)
      (pairs.map fun p => lowerWords (entryToText p.1))) pairs := by
  simp only [scMmrRerank, wordSetFromText_eq]

/-- A weight out of range is not used, and a word that is repeated makes an entry seem further
from the query than its words are. -/
theorem scMmrRerank_not_greedy :
    ¬ Reranked (-1) (ascii "a") (entriesOf [ascii "a", ascii "b"])
        (scMmrRerank (ascii "a") (entriesOf [ascii "a", ascii "b"]) weightMinusOne) ∧
      ¬ Reranked 1 (ascii "x") (entriesOf [ascii "x x x x y", ascii "x y z"])
        (scMmrRerank (ascii "x") (entriesOf [ascii "x x x x y", ascii "x y z"]) weightOne) := by
  rw [scMmrRerank_eq, scMmrRerank_eq]
  constructor
  · intro h
    have hout : picked mmrStart (mmrOf (mmrLam weightMinusOne) (lowerWords (ascii "a"))
        ((entriesOf [ascii "a", ascii "b"]).map fun p => lowerWords (entryToText p.1)))
        (entriesOf [ascii "a", ascii "b"]) = entriesOf [ascii "a", ascii "b"] := by
      decide +kernel
    have hle := h.best [] _ _ hout _ (List.mem_singleton_self _)
    exact absurd hle (by decide +kernel)
  · intro h
    have hout : picked mmrStart (mmrOf (mmrLam weightOne) (lowerWords (ascii "x"))
        ((entriesOf [ascii "x x x x y", ascii "x y z"]).map
          fun p => lowerWords (entryToText p.1)))
        (entriesOf [ascii "x x x x y", ascii "x y z"]) =
          entriesOf [ascii "x y z", ascii "x x x x y"] := by
      decide +kernel
    have hle := h.best [] _ _ hout _ (List.mem_singleton_self _)
    exact absurd hle (by decide +kernel)

end Results

end SeaClaw.Memory
