import SeaClaw.Lib.Bytes
import SeaClaw.Lib.ExchangeSort
import SeaClaw.Lib.RankFusion

/-!
# Fusing a keyword and a vector ranking

`sc_rerank_rrf` of `memory/rerank.c`. Each content gets a term for every place it has in the two
rankings. The output array holds only the contents that come first, and only these are sorted by
the sums of their terms; scores are rational.
-/

namespace SeaClaw.Memory

open SeaClaw.Lib RankFusion

/-! ## The code -/

/-- `sc_search_result_t` -/
structure SearchResult where
  content : Option Bytes
  score : ℚ
  rerankScore : ℚ
  originalRank : ℕ
  deriving DecidableEq

/-- `hash_content` -/
def hashContent (c : Bytes) : ℕ :=
  c.foldl (fun h b => (h ^^^ b.toNat) * 16777619 % 2 ^ 32) 2166136261 % 128

/-- `rrf_term` of the index `i`. -/
def rrfTerm (k : ℚ) (i : ℕ) : ℚ := 1 / (k + (i + 1))

/-- The results of a list that have a content. -/
def rankedResults (k : ℚ) (results : List SearchResult) : List (Place Bytes (SearchResult × ℕ)) :=
  ranked SearchResult.content (rrfTerm k) results

/-- What is stored for the first place of a content, with its score at the end. -/
def mergedResult (e : Place Bytes (SearchResult × ℕ)) (rerankScore : ℚ) : SearchResult :=
  ⟨some e.key, e.value.1.score, rerankScore, e.value.2⟩

/-- `RRF_K_DEFAULT` -/
def rrfKDefault : ℚ := 60

/-- `k_val` -/
def rrfKVal (k : ℚ) : ℚ := if 0 < k then k else rrfKDefault

/-- `sc_rerank_rrf`, which is `rrf_merge_impl`: the first `*merged_count` results. -/
def scRerankRrf (keyword vector : List SearchResult) (maxResults : ℕ) (k : ℚ) :
    List SearchResult :=
  if keyword = [] ∧ vector = [] then []
  else
    let s := fuse hashContent (some maxResults)
      (rankedResults (rrfKVal k) keyword ++ rankedResults (rrfKVal k) vector)
    exchangeSort (·.rerankScore) <| s.kept.map fun e =>
      mergedResult e ((s.sum hashContent e.key).getD e.term)

/-! ## Sums of reciprocal ranks -/

/-- What the places of a content in both rankings add up to. -/
def fusedRank (k : ℚ) (keyword vector : List SearchResult) (c : Bytes) : ℚ :=
  rankSum SearchResult.content (rrfTerm k) keyword c +
    rankSum SearchResult.content (rrfTerm k) vector c

/-- The contents in the order in which they come. -/
def distinctContents (keyword vector : List SearchResult) : List Bytes :=
  ((keyword ++ vector).filterMap (·.content)).eraseDups

/-- The best results: as many distinct contents as there are, or as the array holds, in the order
of their sums, of which none that is left out has a larger one. -/
structure BestResults (keyword vector : List SearchResult) (maxResults : ℕ) (k : ℚ)
    (out : List SearchResult) : Prop where
  known : ∀ r ∈ out, ∃ c ∈ distinctContents keyword vector, r.content = some c
  distinct : (out.map (·.content)).Nodup
  length : out.length = min maxResults (distinctContents keyword vector).length
  ordered : out.Pairwise fun r s => ∀ c ∈ r.content, ∀ d ∈ s.content,
    fusedRank k keyword vector d ≤ fusedRank k keyword vector c
  best : ∀ d ∈ distinctContents keyword vector, some d ∉ out.map (·.content) → ∀ r ∈ out,
    ∀ c ∈ r.content, fusedRank k keyword vector d ≤ fusedRank k keyword vector c

/-- No content that comes when the array is full has a larger sum than one before it. -/
def FirstAreBest (keyword vector : List SearchResult) (maxResults : ℕ) (k : ℚ) : Prop :=
  ∀ c ∈ (distinctContents keyword vector).take maxResults,
    ∀ d ∈ (distinctContents keyword vector).drop maxResults,
      fusedRank k keyword vector d ≤ fusedRank k keyword vector c

/-! ## The results -/

section Results

variable (keyword vector : List SearchResult) (maxResults : ℕ) (k : ℚ)

/-- Both rankings, one after the other. -/
def bothRanked : List (Place Bytes (SearchResult × ℕ)) :=
  rankedResults k keyword ++ rankedResults k vector

theorem map_key_bothRanked :
    (firsts (bothRanked keyword vector k)).map (·.key) = distinctContents keyword vector := by
  rw [map_key_firsts, bothRanked, List.map_append, rankedResults, rankedResults, map_key_ranked,
    map_key_ranked, ← List.filterMap_append]
  rfl

theorem total_bothRanked (c : Bytes) :
    total (bothRanked keyword vector k) c = fusedRank k keyword vector c := by
  rw [bothRanked, total_append, rankedResults, rankedResults, total_ranked, total_ranked]
  rfl

/-- The results before they are sorted. -/
def mergedResults : List SearchResult :=
  ((firsts (bothRanked keyword vector k)).take maxResults).map fun e =>
    mergedResult e (total (bothRanked keyword vector k) e.key)

variable {keyword vector maxResults k}

/-- The call sorts the results of the contents that come first. -/
theorem scRerankRrf_eq (hk : 0 < k) : scRerankRrf keyword vector maxResults k =
    exchangeSort (·.rerankScore) (mergedResults keyword vector maxResults k) := by
  rw [scRerankRrf, rrfKVal, if_pos hk]
  split_ifs with hempty
  · obtain ⟨rfl, rfl⟩ := hempty
    rw [mergedResults, show bothRanked [] [] k = [] from rfl, firsts, List.take_nil, List.map_nil,
      exchangeSort]
  · exact congrArg _ (map_fuse hashContent (some maxResults) (bothRanked keyword vector k)
      mergedResult)

theorem map_content_mergedResults :
    (mergedResults keyword vector maxResults k).map (·.content) =
      ((distinctContents keyword vector).take maxResults).map some := by
  rw [← map_key_bothRanked keyword vector k, ← List.map_take, List.map_map, mergedResults,
    List.map_map]
  rfl

/-- The score of a result is the sum of its content. -/
theorem rerankScore_of_mem {r : SearchResult} (h : r ∈ mergedResults keyword vector maxResults k)
    {c : Bytes} (hc : c ∈ r.content) : r.rerankScore = fusedRank k keyword vector c := by
  obtain ⟨e, -, rfl⟩ := List.mem_map.mp h
  obtain rfl := Option.some.inj hc
  exact total_bothRanked keyword vector k e.key

theorem nodup_distinctContents : (distinctContents keyword vector).Nodup := by
  rw [← map_key_bothRanked keyword vector 1]
  exact nodup_map_firsts _

/-- The results of a fusion are the best ones if and only if no content that comes when the array
is full has a larger sum than one before it. -/
theorem scRerankRrf_best_iff (keyword vector : List SearchResult) (maxResults : ℕ) {k : ℚ}
    (hk : 0 < k) :
    BestResults keyword vector maxResults k (scRerankRrf keyword vector maxResults k) ↔
      FirstAreBest keyword vector maxResults k := by
  rw [scRerankRrf_eq hk]
  have hperm := exchangeSort_perm (·.rerankScore) (mergedResults keyword vector maxResults k)
  have hcontents := hperm.map (·.content)
  rw [map_content_mergedResults] at hcontents
  have hnodup : (distinctContents keyword vector).Nodup := nodup_distinctContents
  have hout : ∀ c, some c ∈ (exchangeSort (·.rerankScore)
      (mergedResults keyword vector maxResults k)).map (·.content) ↔
        c ∈ (distinctContents keyword vector).take maxResults := by
    intro c
    rw [hcontents.mem_iff, List.mem_map]
    simp only [Option.some.injEq, exists_eq_right]
  constructor
  · intro h c hc d hd
    obtain ⟨r, hr, hcontent⟩ := List.mem_map.mp ((hout c).mpr hc)
    apply h.best d (List.mem_of_mem_drop hd) _ r hr c hcontent
    intro hmem
    exact List.disjoint_take_drop hnodup le_rfl ((hout d).mp hmem) hd
  · intro h
    have hknown : ∀ r ∈ exchangeSort (·.rerankScore) (mergedResults keyword vector maxResults k),
        ∃ c ∈ (distinctContents keyword vector).take maxResults, r.content = some c := by
      intro r hr
      have hmem := hcontents.subset (List.mem_map_of_mem hr)
      obtain ⟨c, hc, hcontent⟩ := List.mem_map.mp hmem
      exact ⟨c, hc, hcontent.symm⟩
    refine ⟨?_, ?_, ?_, ?_, ?_⟩
    · intro r hr
      obtain ⟨c, hc, hcontent⟩ := hknown r hr
      exact ⟨c, List.mem_of_mem_take hc, hcontent⟩
    · rw [hcontents.nodup_iff]
      exact (hnodup.sublist (List.take_sublist _ _)).map (Option.some_injective _)
    · have hlen := hcontents.length_eq
      rw [List.length_map, List.length_map, List.length_take] at hlen
      exact hlen
    · apply (exchangeSort_pairwise _ _).imp_of_mem
      intro a b ha hb hab c hc d hd
      rwa [rerankScore_of_mem (hperm.subset ha) hc, rerankScore_of_mem (hperm.subset hb) hd] at hab
    · intro d hd hnot r hr c hc
      obtain ⟨c', hc', hcontent⟩ := hknown r hr
      obtain rfl := Option.some.inj (hcontent.symm.trans hc)
      rw [hout] at hnot
      rw [← List.take_append_drop maxResults (distinctContents keyword vector)] at hd
      exact h c' hc' d ((List.mem_append.mp hd).resolve_left hnot)

end Results

/-- A result that has only its content yet. -/
def resultOf (c : Bytes) : SearchResult := ⟨some c, 0, 0, 0⟩

/-- Two rankings that agree, with room for one result. -/
theorem scRerankRrf_best_agree :
    BestResults [resultOf (ascii "a"), resultOf (ascii "b")] [resultOf (ascii "a")] 1 60
        (scRerankRrf [resultOf (ascii "a"), resultOf (ascii "b")] [resultOf (ascii "a")] 1 60) ↔
      FirstAreBest [resultOf (ascii "a"), resultOf (ascii "b")] [resultOf (ascii "a")] 1 60 :=
  scRerankRrf_best_iff _ _ 1 (by norm_num)

/-- With room for one result, the one that comes first takes it from the one with two places. -/
theorem scRerankRrf_drops_best :
    ¬ BestResults [resultOf (ascii "a"), resultOf (ascii "b")] [resultOf (ascii "b")] 1 60
      (scRerankRrf [resultOf (ascii "a"), resultOf (ascii "b")] [resultOf (ascii "b")] 1 60) := by
  rw [scRerankRrf_eq (by norm_num)]
  intro h
  have hout : exchangeSort (·.rerankScore) (mergedResults
      [resultOf (ascii "a"), resultOf (ascii "b")] [resultOf (ascii "b")] 1 60) =
        [⟨some (ascii "a"), 0, 1 / 61, 0⟩] := by
    decide +kernel
  rw [hout] at h
  have hle := h.best (ascii "b") (by decide) (by decide) _ (List.mem_singleton_self _) (ascii "a") rfl
  exact absurd hle (by decide +kernel)

end SeaClaw.Memory
