import SeaClaw.Lib.ExchangeSort
import SeaClaw.Lib.RankFusion
import SeaClaw.Memory.Entry

/-!
# Merging ranked sources

`sc_rrf_merge` of `memory/retrieval/rrf.c`. An entry is identified by its key, or else by its id,
and gets a term for every place it has in a source. The merged entries are sorted by the terms of
their first places, and only between equal ones by the sums that they report. A single source is
copied as it is. Scores are rational.
-/

namespace SeaClaw.Memory

open SeaClaw.Lib RankFusion

/-! ## The code -/

/-- `sc_memory_entry_t` over a kind of strings, with a rational score. -/
@[ext] structure RankedEntry (σ : Type) where
  id : Option σ
  key : Option σ
  content : Option σ
  category : MemoryCategory σ
  timestamp : Option σ
  sessionId : Option σ
  score : ℚ
  deriving DecidableEq

/-- A string that is there and has octets. -/
def present {σ : Type} (size : σ → ℕ) (s : Option σ) : Option σ := s.filter fun t => 0 < size t

/-- `key`, which is what an entry is identified by. -/
def RankedEntry.identity {σ : Type} (size : σ → ℕ) (e : RankedEntry σ) : Option σ :=
  (present size e.key).or (present size e.id)

/-- `hash_key` -/
def hashKey (k : Bytes) : ℕ :=
  k.foldl (fun h b => (h ^^^ b.toNat) * 16777619 % 2 ^ 32) 2166136261 % 256

/-- `rrf_term` of the index `i`. -/
def reciprocalRank (k i : ℕ) : ℚ := 1 / (i + 1 + k : ℕ)

/-- `sc_strndup(alloc, s, s_len)` beside the length. -/
def dupText (s : Bytes) : Text := scStrndup (Text.ofBytes s)

/-- `entry_dup` -/
def entryDup (e : RankedEntry Bytes) (score : ℚ) : RankedEntry Text where
  id := (present List.length e.id).map dupText
  key := (present List.length e.key).map dupText
  content := (present List.length e.content).map dupText
  category := ⟨e.category.tag, e.category.name.map dupText⟩
  timestamp := (present List.length e.timestamp).map dupText
  sessionId := (present List.length e.sessionId).map dupText
  score := score

/-- The octets that a length counts, which may go as far as the terminator. -/
def Text.read (t : Text) : Option Bytes :=
  if t.len ≤ t.octets.length + 1 then some ((t.octets ++ [0]).take t.len) else none

/-- The places of the entries of the sources, one source after the other. -/
def rankedPlaces (k : ℕ) (sources : List (List (RankedEntry Bytes))) :
    List (Place Bytes (RankedEntry Bytes × ℕ)) :=
  sources.flatMap (ranked (RankedEntry.identity List.length) (reciprocalRank k))

/-- A merged entry with the score of its key in the table, which is undefined if its key is read
behind its end. -/
def rescored (s : Fused Bytes (RankedEntry Bytes × ℕ)) (d : RankedEntry Text) :
    Option (RankedEntry Text) :=
  match d.identity Text.len with
  | none => some d
  | some t =>
    t.read.map fun key =>
      match s.sum hashKey key with
      | none => d
      | some q => { d with score := q }

/-- `sc_rrf_merge`, undefined if it reads behind the end of a string. -/
def scRrfMerge (sources : List (List (RankedEntry Bytes))) (k limit : ℕ) :
    Option (List (RankedEntry Text)) :=
  match sources with
  | [] => some []
  | [source] =>
    some ((source.take limit).zipIdx.map fun r => entryDup r.1 (reciprocalRank k r.2))
  | source :: other :: sources =>
    let s := fuse hashKey none (rankedPlaces k (source :: other :: sources))
    (s.kept.mapM fun e => (rescored s (entryDup e.value.1 0)).map fun d => (e.term, d)).map
      fun rows =>
        ((exchangeSort (fun r : ℚ × RankedEntry Text => toLex (r.1, r.2.score)) rows).take limit).map
          (·.2)

/-! ## What is meant -/

/-- What the entries of the sources that have an identity add up to. -/
def fusedScore (k : ℕ) (sources : List (List (RankedEntry Bytes))) (c : Bytes) : ℚ :=
  (sources.map fun l => rankSum (RankedEntry.identity List.length) (reciprocalRank k) l c).sum

/-- The identities in the order in which they come. -/
def identities (sources : List (List (RankedEntry Bytes))) : List Bytes :=
  (sources.flatten.filterMap (RankedEntry.identity List.length)).eraseDups

/-- What a returned entry is identified by, as far as it can be read. -/
def returnedIdentity (r : RankedEntry Text) : Option Bytes := (r.identity Text.len).bind Text.read

/-- The top of the ranking: copies of identified entries, none twice, with their sums, in the order
of these, and none that is left out has a larger one. -/
structure TopRanked (sources : List (List (RankedEntry Bytes))) (k limit : ℕ)
    (out : List (RankedEntry Text)) : Prop where
  known : ∀ r ∈ out, ∃ e ∈ sources.flatten, ∃ c ∈ e.identity List.length,
    returnedIdentity r = some c ∧ r = entryDup e (fusedScore k sources c)
  once : (out.map returnedIdentity).Nodup
  length : out.length = min limit (identities sources).length
  ordered : out.Pairwise fun r s => s.score ≤ r.score
  best : ∀ c ∈ identities sources, some c ∉ out.map returnedIdentity → ∀ r ∈ out,
    fusedScore k sources c ≤ r.score

/-- A merge returns the top of the ranking, and that of a single source what that of it and an empty
one returns. -/
structure MergesRight (sources : List (List (RankedEntry Bytes))) (k limit : ℕ) : Prop where
  top : ∃ out, scRrfMerge sources k limit = some out ∧ TopRanked sources k limit out
  single : ∀ source, sources = [source] →
    scRrfMerge [source] k limit = scRrfMerge [source, []] k limit

/-! ## The condition -/

/-- Identities end at their first NUL. -/
def KeysReadable (sources : List (List (RankedEntry Bytes))) : Prop :=
  ∀ c ∈ identities sources, 0 ∉ c.dropLast

instance (sources : List (List (RankedEntry Bytes))) : Decidable (KeysReadable sources) :=
  inferInstanceAs (Decidable (∀ c ∈ identities sources, 0 ∉ c.dropLast))

/-- The first places, which stand for the identities. -/
def firstPlaces (k : ℕ) (sources : List (List (RankedEntry Bytes))) :
    List (Place Bytes (RankedEntry Bytes × ℕ)) :=
  firsts (rankedPlaces k sources)

/-- Where one of two identities has the better first place and the other one the larger sum, there
are as many as are returned before it, by the first places and then by the sums. -/
def SumsFollow (sources : List (List (RankedEntry Bytes))) (k limit : ℕ) : Prop :=
  ∀ x ∈ firstPlaces k sources, ∀ y ∈ firstPlaces k sources, y.term < x.term →
    fusedScore k sources x.key < fusedScore k sources y.key →
      limit ≤ (firstPlaces k sources).countP fun z => decide (x.term < z.term ∨
        x.term = z.term ∧ fusedScore k sources x.key < fusedScore k sources z.key)

instance (sources : List (List (RankedEntry Bytes))) (k limit : ℕ) :
    Decidable (SumsFollow sources k limit) :=
  inferInstanceAs (Decidable (∀ x ∈ _, ∀ y ∈ _, _ → _ → _))

/-- The entries of a single source that are copied are identified, and come once. -/
def CopiedOnce (sources : List (List (RankedEntry Bytes))) (limit : ℕ) : Prop :=
  ∀ source, sources = [source] → ∀ e ∈ source.take limit, ∃ c ∈ e.identity List.length,
    source.countP (fun d => decide (d.identity List.length = some c)) = 1

/-! ## Strings and copies -/

theorem dupText_eq (c : Bytes) : dupText c = ⟨c.takeWhile (· ≠ 0), c.length⟩ := by
  rw [dupText, Text.ofBytes, scStrndup, List.take_length]

/-- A copy can be read, with its terminator, unless a NUL stands before the last octet. -/
theorem read_dupText (c : Bytes) :
    (dupText c).read = if 0 ∈ c.dropLast then none else some c := by
  rw [dupText_eq, Text.read]
  rcases List.eq_nil_or_concat c with rfl | ⟨d, x, rfl⟩
  · rfl
  · rw [List.concat_eq_append, List.dropLast_concat, List.length_append, List.length_singleton,
      List.takeWhile_append]
    simp only
    by_cases hzero : 0 ∈ d
    · have hcut : (d.takeWhile (· ≠ 0)).length ≠ d.length := by
        intro hlen
        have hstart : d.takeWhile (· ≠ 0) <+: d := List.takeWhile_prefix _
        have hmem := zero_notMem_takeWhile d
        rw [hstart.eq_of_length hlen] at hmem
        exact hmem hzero
      have hle := (List.takeWhile_sublist (l := d) (· ≠ 0)).length_le
      rw [if_pos hzero, if_neg hcut, if_neg (by omega)]
    · have hall : d.takeWhile (· ≠ 0) = d := by
        rw [List.takeWhile_eq_self_iff]
        intro b hb
        rw [decide_eq_true_eq]
        rintro rfl
        exact hzero hb
      rw [if_neg hzero, hall, if_pos rfl]
      by_cases hx : x = 0
      · subst hx
        rw [List.takeWhile_cons_of_neg (by simp), List.append_nil, if_pos le_rfl,
          List.take_of_length_le (by simp)]
      · have hlen : (d ++ [x]).length = d.length + 1 := by
          rw [List.length_append, List.length_singleton]
        rw [List.takeWhile_cons_of_pos (by simpa using hx), List.takeWhile_nil,
          if_pos (by omega), ← hlen, List.take_left]

theorem present_dupText (o : Option Bytes) :
    present Text.len ((present List.length o).map dupText) =
      (present List.length o).map dupText := by
  cases o with
  | none => rfl
  | some s =>
    rw [present, present, Option.filter_some]
    split_ifs with hpos
    · rw [Option.map_some, Option.filter_some, if_pos]
      exact hpos
    · rfl

/-- A copy is identified by the copy of what its entry is identified by. -/
theorem identity_entryDup (e : RankedEntry Bytes) (q : ℚ) :
    (entryDup e q).identity Text.len = (e.identity List.length).map dupText := by
  rw [RankedEntry.identity, RankedEntry.identity, entryDup, present_dupText, present_dupText,
    Option.map_or]

/-- The identity of a copy is read whole, if it can be read. -/
theorem returnedIdentity_entryDup {e : RankedEntry Bytes} {c : Bytes}
    (h : e.identity List.length = some c) (hread : 0 ∉ c.dropLast) (q : ℚ) :
    returnedIdentity (entryDup e q) = some c := by
  rw [returnedIdentity, identity_entryDup, h, Option.map_some, Option.bind_some, read_dupText,
    if_neg hread]

/-! ## Places -/

section Places

variable (k : ℕ) (sources : List (List (RankedEntry Bytes)))

theorem map_key_firstPlaces :
    (firstPlaces k sources).map (·.key) = identities sources := by
  rw [firstPlaces, map_key_firsts, rankedPlaces, List.map_flatMap, identities]
  simp only [map_key_ranked]
  congr 1
  induction sources with
  | nil => rfl
  | cons l sources ih => rw [List.flatMap_cons, ih, List.flatten_cons, List.filterMap_append]

theorem mem_identities {c : Bytes} : c ∈ identities sources ↔
    ∃ e ∈ sources.flatten, e.identity List.length = some c := by
  rw [identities, List.mem_eraseDups, List.mem_filterMap]

theorem total_rankedPlaces (c : Bytes) :
    total (rankedPlaces k sources) c = fusedScore k sources c := by
  rw [rankedPlaces, total_flatMap, fusedScore]
  simp only [total_ranked]

variable {k sources}

/-- A first place is that of an entry of the sources. -/
theorem of_mem_firstPlaces {x : Place Bytes (RankedEntry Bytes × ℕ)} (h : x ∈ firstPlaces k sources) :
    x.value.1 ∈ sources.flatten ∧ x.value.1.identity List.length = some x.key := by
  obtain ⟨l, hl, hx⟩ := List.mem_flatMap.mp (mem_firsts h)
  obtain ⟨hmem, hkey, -⟩ := of_mem_ranked hx
  refine ⟨?_, hkey⟩
  rw [List.mem_flatten]
  refine ⟨l, hl, ?_⟩
  rw [← List.zipIdx_map_fst 0 l]
  exact List.mem_map_of_mem hmem

theorem KeysReadable.of_mem (hread : KeysReadable sources)
    {x : Place Bytes (RankedEntry Bytes × ℕ)} (h : x ∈ firstPlaces k sources) :
    0 ∉ x.key.dropLast := by
  apply hread
  rw [← map_key_firstPlaces k]
  exact List.mem_map_of_mem h

end Places

/-! ## The general merge -/

section General

variable (k : ℕ) (sources : List (List (RankedEntry Bytes)))

/-- The merged entry of a first place. -/
def mergedEntry (x : Place Bytes (RankedEntry Bytes × ℕ)) : RankedEntry Text :=
  entryDup x.value.1 (fusedScore k sources x.key)

/-- The merged entries with the terms of their first places, before they are sorted. -/
def mergedRows : List (ℚ × RankedEntry Text) :=
  (firstPlaces k sources).map fun x => (x.term, mergedEntry k sources x)

/-- What the rows are sorted by. -/
def rowKey (r : ℚ × RankedEntry Text) : ℚ ×ₗ ℚ := toLex (r.1, r.2.score)

/-- The rows that are returned. -/
def topRows (limit : ℕ) : List (ℚ × RankedEntry Text) :=
  (exchangeSort rowKey (mergedRows k sources)).take limit

variable {k sources}

theorem mapM_eq_some_map {α β : Type} {f : α → Option β} {g : α → β} {l : List α}
    (h : ∀ a ∈ l, f a = some (g a)) : l.mapM f = some (l.map g) := by
  induction l with
  | nil => rfl
  | cons a l ih =>
    rw [List.forall_mem_cons] at h
    rw [List.mapM_cons, h.1, ih h.2]
    rfl

theorem mapM_eq_none {α β : Type} {f : α → Option β} {l : List α} (h : ∃ a ∈ l, f a = none) :
    l.mapM f = none := by
  induction l with
  | nil =>
    obtain ⟨a, ha, -⟩ := h
    exact absurd ha List.not_mem_nil
  | cons a l ih =>
    rw [List.mapM_cons]
    cases ha : f a with
    | none => rfl
    | some b =>
      obtain ⟨d, hd, hnone⟩ := h
      rcases List.mem_cons.mp hd with rfl | hd
      · rw [ha] at hnone
        cases hnone
      · rw [ih ⟨d, hd, hnone⟩]
        rfl

/-- The score of a first place, read from the table. -/
theorem rescored_firstPlace {x : Place Bytes (RankedEntry Bytes × ℕ)}
    (h : x ∈ firstPlaces k sources) :
    rescored (fuse hashKey none (rankedPlaces k sources)) (entryDup x.value.1 0) =
      if 0 ∈ x.key.dropLast then none else some (mergedEntry k sources x) := by
  have hsum : (fuse hashKey none (rankedPlaces k sources)).sum hashKey x.key =
      some (fusedScore k sources x.key) := by
    rw [(fuse_spec hashKey none (rankedPlaces k sources)).2, ← total_rankedPlaces]
    exact if_pos (List.mem_map_of_mem h)
  rw [rescored, identity_entryDup, (of_mem_firstPlaces h).2, Option.map_some]
  simp only [read_dupText]
  split_ifs with hzero
  · rfl
  · rw [Option.map_some]
    simp only [hsum]
    rfl

/-- A merge of more than one source returns the top rows, if the identities can be read. -/
theorem scRrfMerge_general (a b : List (RankedEntry Bytes)) (rest : List (List (RankedEntry Bytes)))
    (k limit : ℕ) : scRrfMerge (a :: b :: rest) k limit =
      if KeysReadable (a :: b :: rest) then some ((topRows k (a :: b :: rest) limit).map (·.2))
      else none := by
  have hkept : (fuse hashKey none (rankedPlaces k (a :: b :: rest))).kept =
      firstPlaces k (a :: b :: rest) :=
    (fuse_spec hashKey none (rankedPlaces k (a :: b :: rest))).1
  rw [scRrfMerge]
  simp only [hkept]
  split_ifs with hread
  · rw [mapM_eq_some_map (g := fun x => (x.term, mergedEntry k (a :: b :: rest) x))]
    · rfl
    · intro x hx
      rw [rescored_firstPlace hx, if_neg (hread.of_mem hx)]
      rfl
  · rw [mapM_eq_none]
    · rfl
    · simp only [KeysReadable, ← map_key_firstPlaces k, List.forall_mem_map] at hread
      rw [Classical.not_forall] at hread
      obtain ⟨x, hx⟩ := hread
      rw [Classical.not_imp, not_not] at hx
      refine ⟨x, hx.1, ?_⟩
      rw [rescored_firstPlace hx.1, if_pos hx.2]
      rfl

/-! ## The top of the ranking -/

theorem rowKey_lt_iff (x y : Place Bytes (RankedEntry Bytes × ℕ)) :
    rowKey (x.term, mergedEntry k sources x) < rowKey (y.term, mergedEntry k sources y) ↔
      x.term < y.term ∨
        x.term = y.term ∧ fusedScore k sources x.key < fusedScore k sources y.key :=
  Prod.Lex.toLex_lt_toLex

/-- The rows that are returned are the largest ones if and only if the sums follow the first
places as far as they are returned. -/
theorem topRows_largest_iff (limit : ℕ) :
    ((topRows k sources limit).Pairwise (fun r s => s.2.score ≤ r.2.score) ∧
        ∀ r ∈ topRows k sources limit,
          ∀ s ∈ (exchangeSort rowKey (mergedRows k sources)).drop limit, s.2.score ≤ r.2.score) ↔
      SumsFollow sources k limit := by
  have htie : ∀ r s : ℚ × RankedEntry Text, rowKey r = rowKey s → r.2.score = s.2.score := by
    intro r s h
    exact (Prod.mk.inj (toLex.injective h)).2
  rw [topRows, take_largest_iff rowKey htie (exchangeSort_pairwise rowKey _)]
  have hperm := exchangeSort_perm rowKey (mergedRows k sources)
  simp only [hperm.mem_iff, hperm.countP_eq]
  simp only [mergedRows, List.forall_mem_map, List.countP_map, rowKey_lt_iff, SumsFollow]
  constructor
  · intro h x hx y hy hterm hsum
    by_contra hfew
    have hle := h x hx y hy (Or.inl hterm) (by
      rw [not_le] at hfew
      refine lt_of_eq_of_lt ?_ hfew
      congr 1
      funext z
      simp only [Function.comp_apply, rowKey_lt_iff])
    exact absurd hsum (not_lt.mpr hle)
  · intro h x hx y hy hlt hfew
    rcases hlt with hterm | ⟨-, hsum⟩
    · by_contra hle
      have hmany := h x hx y hy hterm (not_le.mp hle)
      refine absurd hfew (not_lt.mpr (hmany.trans (le_of_eq ?_)))
      congr 1
      funext z
      simp only [Function.comp_apply, rowKey_lt_iff]
    · exact hsum.le

/-- The identities that the rows return. -/
theorem map_returnedIdentity_mergedRows (hread : KeysReadable sources) :
    (mergedRows k sources).map (fun r => returnedIdentity r.2) = (identities sources).map some := by
  rw [← map_key_firstPlaces k, mergedRows, List.map_map, List.map_map]
  apply List.map_congr_left
  intro x hx
  exact returnedIdentity_entryDup (of_mem_firstPlaces hx).2 (hread.of_mem hx) _

/-- The rows that are returned are the top of the ranking if and only if the sums follow. -/
theorem topRanked_topRows_iff (hread : KeysReadable sources) (limit : ℕ) :
    TopRanked sources k limit ((topRows k sources limit).map (·.2)) ↔
      SumsFollow sources k limit := by
  rw [← topRows_largest_iff]
  obtain ⟨sorted, hsorted⟩ : ∃ sorted, sorted = exchangeSort rowKey (mergedRows k sources) :=
    ⟨_, rfl⟩
  have hperm := exchangeSort_perm rowKey (mergedRows k sources)
  rw [topRows, ← hsorted]
  rw [← hsorted] at hperm
  have hids := hperm.map fun r => returnedIdentity r.2
  rw [map_returnedIdentity_mergedRows hread] at hids
  have hnodup : (sorted.map fun r => returnedIdentity r.2).Nodup := by
    rw [hids.nodup_iff, ← map_key_firstPlaces k]
    exact (nodup_map_firsts _).map (Option.some_injective _)
  have hrow : ∀ r ∈ sorted, ∃ x ∈ firstPlaces k sources, r = (x.term, mergedEntry k sources x) := by
    intro r hr
    obtain ⟨x, hx, rfl⟩ := List.mem_map.mp (hperm.subset hr)
    exact ⟨x, hx, rfl⟩
  have hscore : ∀ r ∈ sorted, ∀ c, returnedIdentity r.2 = some c →
      r.2.score = fusedScore k sources c := by
    intro r hr c hc
    obtain ⟨x, hx, rfl⟩ := hrow r hr
    have hid := returnedIdentity_entryDup (of_mem_firstPlaces hx).2 (hread.of_mem hx)
      (fusedScore k sources x.key)
    obtain rfl := Option.some.inj (hid.symm.trans hc)
    rfl
  have htake : (((sorted.take limit).map (·.2)).map returnedIdentity) =
      (sorted.map fun r => returnedIdentity r.2).take limit := by
    rw [List.map_map, List.map_take]
    rfl
  constructor
  · intro h
    refine ⟨List.pairwise_map.mp h.ordered, ?_⟩
    intro r hr s hs
    obtain ⟨x, hx, rfl⟩ := hrow s (List.mem_of_mem_drop hs)
    apply h.best x.key
    · rw [← map_key_firstPlaces k]
      exact List.mem_map_of_mem hx
    · rw [htake]
      intro hin
      have hout : some x.key ∈ (sorted.map fun r => returnedIdentity r.2).drop limit := by
        rw [← List.map_drop, List.mem_map]
        exact ⟨_, hs, returnedIdentity_entryDup (of_mem_firstPlaces hx).2 (hread.of_mem hx) _⟩
      exact List.disjoint_take_drop hnodup le_rfl hin hout
    · exact List.mem_map_of_mem hr
  · rintro ⟨hordered, hbest⟩
    refine ⟨?_, ?_, ?_, List.pairwise_map.mpr hordered, ?_⟩
    · intro r hr
      obtain ⟨row, hrow', rfl⟩ := List.mem_map.mp hr
      obtain ⟨x, hx, rfl⟩ := hrow row (List.mem_of_mem_take hrow')
      obtain ⟨hmem, hid⟩ := of_mem_firstPlaces hx
      exact ⟨_, hmem, x.key, hid, returnedIdentity_entryDup hid (hread.of_mem hx) _, rfl⟩
    · rw [htake]
      exact hnodup.sublist (List.take_sublist _ _)
    · have hlen := hids.length_eq
      rw [List.length_map, List.length_map] at hlen
      rw [List.length_map, List.length_take, hlen]
    · intro c hc hnot r hr
      obtain ⟨row, hrow', rfl⟩ := List.mem_map.mp hr
      have hin : some c ∈ sorted.map fun r => returnedIdentity r.2 := by
        rw [hids.mem_iff]
        exact List.mem_map_of_mem hc
      rw [htake] at hnot
      rw [← List.take_append_drop limit (sorted.map _)] at hin
      have hdrop := (List.mem_append.mp hin).resolve_left hnot
      rw [← List.map_drop, List.mem_map] at hdrop
      obtain ⟨s, hs, hid⟩ := hdrop
      rw [← hscore s (List.mem_of_mem_drop hs) c hid]
      exact hbest row hrow' s hs

end General

/-! ## A single source -/

section Single

variable {source : List (RankedEntry Bytes)} {k limit : ℕ}

/-- What a single source is copied to. -/
def copies (source : List (RankedEntry Bytes)) (k limit : ℕ) : List (RankedEntry Text) :=
  (source.take limit).zipIdx.map fun r => entryDup r.1 (reciprocalRank k r.2)

theorem reciprocalRank_pos (k i : ℕ) : 0 < reciprocalRank k i := by
  rw [reciprocalRank]
  positivity

theorem reciprocalRank_lt {k i j : ℕ} (h : i < j) : reciprocalRank k j < reciprocalRank k i := by
  rw [reciprocalRank, reciprocalRank]
  apply one_div_lt_one_div_of_lt
  · exact_mod_cast (by omega : 0 < i + 1 + k)
  · exact_mod_cast (by omega : i + 1 + k < j + 1 + k)

/-- Another source that is empty changes no place. -/
theorem rankedPlaces_empty : rankedPlaces k [source, []] = rankedPlaces k [source] := by
  rw [rankedPlaces, rankedPlaces, List.flatMap_cons, List.flatMap_singleton,
    List.flatMap_singleton]
  exact List.append_nil _

theorem fusedScore_empty (c : Bytes) : fusedScore k [source, []] c = fusedScore k [source] c := by
  rw [← total_rankedPlaces, ← total_rankedPlaces, rankedPlaces_empty]

theorem mergedRows_empty : mergedRows k [source, []] = mergedRows k [source] := by
  simp only [mergedRows, firstPlaces, mergedEntry, rankedPlaces_empty, fusedScore_empty]

theorem identities_empty : identities [source, []] = identities [source] := by
  simp only [identities, List.flatten_cons, List.flatten_nil, List.append_nil]

theorem keysReadable_empty : KeysReadable [source, []] ↔ KeysReadable [source] := by
  rw [KeysReadable, KeysReadable, identities_empty]

/-- The places of a single source are in order, so its rows are sorted. -/
theorem exchangeSort_mergedRows :
    exchangeSort rowKey (mergedRows k [source]) = mergedRows k [source] := by
  apply exchangeSort_eq rowKey (List.Perm.refl _)
  have hplaces : (rankedPlaces k [source]).Pairwise fun x y => y.term < x.term := by
    rw [rankedPlaces, List.flatMap_singleton]
    exact pairwise_ranked fun i j hij => reciprocalRank_lt hij
  rw [mergedRows, List.pairwise_map]
  exact (hplaces.sublist (firsts_sublist _)).imp fun h => Prod.Lex.toLex_lt_toLex.mpr (Or.inl h)

/-- What the single source together with an empty one returns. -/
theorem topRows_single : topRows k [source, []] limit =
    ((firstPlaces k [source]).take limit).map fun x => (x.term, mergedEntry k [source] x) := by
  rw [topRows, mergedRows_empty, exchangeSort_mergedRows, mergedRows, List.map_take]

theorem fusedScore_single (c : Bytes) : fusedScore k [source] c =
    rankSum (RankedEntry.identity List.length) (reciprocalRank k) source c := by
  rw [fusedScore, List.map_singleton, List.sum_singleton]

/-- The index of a copied entry is its index in the source. -/
theorem mem_zipIdx_of_take {r : RankedEntry Bytes × ℕ} (h : r ∈ (source.take limit).zipIdx) :
    r ∈ source.zipIdx := by
  rw [List.mem_zipIdx_iff_getElem?, List.getElem?_take] at h
  rw [List.mem_zipIdx_iff_getElem?]
  split_ifs at h
  exact h

/-- The places of entries that are all identified and come once are the first ones. -/
theorem take_firstPlaces (h : CopiedOnce [source] limit) : (firstPlaces k [source]).take limit =
    ranked (RankedEntry.identity List.length) (reciprocalRank k) (source.take limit) := by
  obtain ⟨rest, hrest⟩ : ∃ rest, rankedPlaces k [source] =
      ranked (RankedEntry.identity List.length) (reciprocalRank k) (source.take limit) ++ rest ∧
        (source.length ≤ limit → rest = []) := by
    refine ⟨((source.drop limit).zipIdx (0 + (source.take limit).length)).filterMap fun r =>
      (r.1.identity List.length).map fun c => ⟨c, r, reciprocalRank k r.2⟩, ?_, ?_⟩
    · rw [rankedPlaces, List.flatMap_singleton, ranked, ranked]
      conv_lhs => rw [← List.take_append_drop limit source]
      rw [List.zipIdx_append, List.filterMap_append]
    · intro hle
      rw [List.drop_eq_nil_of_le hle]
      rfl
  have hnodup : ((ranked (RankedEntry.identity List.length) (reciprocalRank k)
      (source.take limit)).map (·.key)).Nodup := by
    rw [map_key_ranked, List.nodup_iff_count_le_one]
    intro c
    by_cases hc : c ∈ (source.take limit).filterMap (RankedEntry.identity List.length)
    · obtain ⟨e, he, hid⟩ := List.mem_filterMap.mp hc
      obtain ⟨d, hd, hone⟩ := h source rfl e he
      obtain rfl := Option.some.inj (hid.symm.trans hd)
      have hsame : (fun a : RankedEntry Bytes => a.identity List.length == some c) =
          fun a => decide (a.identity List.length = some c) := by
        funext a
        rw [beq_eq_decide]
      rw [List.count_filterMap, hsame, ← hone]
      exact (List.take_sublist limit source).countP_le
    · rw [List.count_eq_zero_of_not_mem hc]
      exact Nat.zero_le _
  obtain ⟨hplaces, hnil⟩ := hrest
  obtain ⟨rest', hfirsts, hsub⟩ := firsts_append_of_nodup hnodup rest
  have hlen : (ranked (RankedEntry.identity List.length) (reciprocalRank k)
      (source.take limit)).length = (source.take limit).length := by
    have hall : (source.take limit).filterMap (RankedEntry.identity List.length) =
        (source.take limit).map fun e => (e.identity List.length).getD [] := by
      rw [List.filterMap_eq_map_iff_forall_eq_some]
      intro e he
      obtain ⟨c, hc, -⟩ := h source rfl e he
      rw [Option.mem_def.mp hc]
      rfl
    have hkeys := congrArg List.length (map_key_ranked (RankedEntry.identity List.length)
      (reciprocalRank k) (source.take limit))
    rw [hall, List.length_map, List.length_map] at hkeys
    exact hkeys
  rw [firstPlaces, hplaces, hfirsts]
  rw [List.length_take] at hlen
  rcases le_or_gt source.length limit with hle | hlt
  · rw [hnil hle, List.sublist_nil] at hsub
    rw [hsub, List.append_nil, List.take_of_length_le (by omega)]
  · rw [List.take_left' (by omega)]

/-- What is copied of a single source is what it returns together with an empty one if and only if
the copied entries are identified and come once. -/
theorem copies_eq_iff (hread : KeysReadable [source]) :
    copies source k limit = (topRows k [source, []] limit).map (·.2) ↔
      CopiedOnce [source] limit := by
  rw [topRows_single, List.map_map]
  constructor
  · intro h src hsrc e he
    obtain rfl := (List.cons.inj hsrc).1
    obtain ⟨i, hi⟩ : ∃ i, (e, i) ∈ (source.take limit).zipIdx := by
      obtain ⟨i, hlt, heq⟩ := List.mem_iff_getElem.mp he
      refine ⟨i, ?_⟩
      rw [List.mem_zipIdx_iff_getElem?, List.getElem?_eq_getElem hlt, heq]
    have hcopy : entryDup e (reciprocalRank k i) ∈ copies source k limit :=
      List.mem_map.mpr ⟨(e, i), hi, rfl⟩
    rw [h] at hcopy
    obtain ⟨x, hx, heq⟩ := List.mem_map.mp hcopy
    obtain ⟨-, hid⟩ := of_mem_firstPlaces (List.mem_of_mem_take hx)
    have hx' := hread.of_mem (List.mem_of_mem_take hx)
    have hids := congrArg (RankedEntry.identity Text.len) heq
    have hmerged : ((fun x : Place Bytes (RankedEntry Bytes × ℕ) => (x.term,
        mergedEntry k [source] x)) x).2 = entryDup x.value.1 (fusedScore k [source] x.key) := rfl
    rw [Function.comp_apply, hmerged, identity_entryDup, identity_entryDup, hid,
      Option.map_some] at hids
    obtain ⟨c, hc, hcopies⟩ := Option.map_eq_some_iff.mp hids.symm
    have hreadable : 0 ∉ c.dropLast := by
      apply hread
      rw [mem_identities]
      exact ⟨e, by simpa using List.mem_of_mem_take he, hc⟩
    have hsame := congrArg Text.read hcopies
    rw [read_dupText, read_dupText, if_neg hreadable, if_neg hx', Option.some.injEq] at hsame
    have hscore : fusedScore k [source] x.key = reciprocalRank k i :=
      congrArg RankedEntry.score heq
    rw [← hsame, fusedScore_single] at hscore
    exact ⟨c, hc, (rankSum_eq_term_iff (reciprocalRank_pos k) (mem_zipIdx_of_take hi) hc).mp hscore⟩
  · intro h
    rw [take_firstPlaces h, copies, ranked, List.map_filterMap, eq_comm,
      List.filterMap_eq_map_iff_forall_eq_some]
    intro r hr
    have he : r.1 ∈ source.take limit := by
      rw [← List.zipIdx_map_fst 0 (source.take limit)]
      exact List.mem_map_of_mem hr
    obtain ⟨c, hc, hone⟩ := h source rfl r.1 he
    have hsum := (rankSum_eq_term_iff (reciprocalRank_pos k) (mem_zipIdx_of_take hr) hc).mpr hone
    rw [Option.mem_def.mp hc, Option.map_some, Option.map_some, Function.comp_apply, mergedEntry,
      fusedScore_single, hsum]

end Single

/-- A merge returns the top of the ranking, for a single source as together with an empty one, if
and only if the identities can be read, the sums follow the first places as far as they are
returned, and the copied entries of a single source are identified and come once. -/
theorem scRrfMerge_right_iff (sources : List (List (RankedEntry Bytes))) (k limit : ℕ) :
    MergesRight sources k limit ↔
      KeysReadable sources ∧ SumsFollow sources k limit ∧ CopiedOnce sources limit := by
  match sources with
  | [] =>
    refine iff_of_true ⟨⟨[], rfl, ?_⟩, ?_⟩ ⟨?_, ?_, ?_⟩
    · refine ⟨?_, List.nodup_nil, ?_, List.Pairwise.nil, ?_⟩
      · intro r hr
        exact absurd hr List.not_mem_nil
      · exact (Nat.min_zero limit).symm
      · intro c _ _ r hr
        exact absurd hr List.not_mem_nil
    · intro source hsource
      cases hsource
    · intro c hc
      exact absurd hc List.not_mem_nil
    · intro x hx
      exact absurd hx List.not_mem_nil
    · intro source hsource
      cases hsource
  | [source] =>
    have hcopies : scRrfMerge [source] k limit = some (copies source k limit) := rfl
    have hother := scRrfMerge_general source [] [] k limit
    have htop : topRows k [source, []] limit = topRows k [source] limit := by
      rw [topRows, topRows, mergedRows_empty]
    constructor
    · intro h
      have hsingle := h.single source rfl
      rw [hcopies, hother] at hsingle
      split_ifs at hsingle with hread
      rw [keysReadable_empty] at hread
      have heq := Option.some.inj hsingle
      obtain ⟨out, hout, htopped⟩ := h.top
      rw [hcopies, heq, htop] at hout
      obtain rfl := Option.some.inj hout
      exact ⟨hread, (topRanked_topRows_iff hread limit).mp htopped, (copies_eq_iff hread).mp heq⟩
    · rintro ⟨hread, hsums, honce⟩
      have heq := (copies_eq_iff (k := k) hread).mpr honce
      refine ⟨⟨_, hcopies, ?_⟩, ?_⟩
      · rw [heq, htop]
        exact (topRanked_topRows_iff hread limit).mpr hsums
      · intro source' hsource
        obtain rfl := (List.cons.inj hsource).1
        rw [hcopies, hother, if_pos (keysReadable_empty.mpr hread), heq]
  | a :: b :: rest =>
    have hmerge := scRrfMerge_general a b rest k limit
    have hmany : CopiedOnce (a :: b :: rest) limit := by
      intro source hsource
      cases hsource
    constructor
    · rintro ⟨⟨out, hout, htopped⟩, -⟩
      rw [hmerge] at hout
      split_ifs at hout with hread
      obtain rfl := Option.some.inj hout
      exact ⟨hread, (topRanked_topRows_iff hread limit).mp htopped, hmany⟩
    · rintro ⟨hread, hsums, -⟩
      refine ⟨⟨_, hmerge.trans (if_pos hread), ?_⟩, ?_⟩
      · exact (topRanked_topRows_iff hread limit).mpr hsums
      · intro source hsource
        cases hsource

/-- An entry that has only its key. -/
def keyedEntry (key : Bytes) : RankedEntry Bytes := ⟨none, some key, none, ⟨.core, none⟩, none, none, 0⟩

/-- Two sources that have the same entry in second place. -/
def sharedSecond : List (List (RankedEntry Bytes)) :=
  [[keyedEntry (ascii "a"), keyedEntry (ascii "x")], [keyedEntry (ascii "b"), keyedEntry (ascii "x")]]

/-- Of one entry that is returned, one that comes first once beats the one that has nearly twice its
sum. -/
theorem scRrfMerge_first_place : ¬ MergesRight sharedSecond 60 1 := by
  intro h
  obtain ⟨out, hout, htopped⟩ := h.top
  rw [sharedSecond, scRrfMerge_general] at hout
  split_ifs at hout with hread
  obtain rfl := Option.some.inj hout
  exact absurd ((topRanked_topRows_iff hread 1).mp htopped) (by decide +kernel)

end SeaClaw.Memory
