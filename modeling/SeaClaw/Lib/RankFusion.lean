import Mathlib.Algebra.BigOperators.Group.List.Basic
import Mathlib.Algebra.Order.BigOperators.Group.List
import Mathlib.Algebra.Order.Field.Rat
import Mathlib.Data.List.Induction
import SeaClaw.Lib.HashTable

/-!
# Adding up ranks by keys

Rankings are read one place after the other. The first place of a key is kept, as long as there is
room, and its term and the terms of the later places of that key are added up in a table.
-/

namespace SeaClaw.Lib.RankFusion

variable {K V : Type*} [DecidableEq K]

/-- A place of a ranking: its key, what stands there, and what it adds to the key. -/
structure Place (K V : Type*) where
  key : K
  value : V
  term : ℚ

/-- What the places of a key add up to. -/
def total (l : List (Place K V)) (k : K) : ℚ := ((l.filter (·.key = k)).map (·.term)).sum

/-- The first place of each key. -/
def firsts : List (Place K V) → List (Place K V)
  | [] => []
  | e :: l => e :: (firsts l).filter (·.key ≠ e.key)

/-- The places of a ranking whose entries have a key, with the index of each. -/
def ranked {α : Type*} (key : α → Option K) (term : ℕ → ℚ) (l : List α) :
    List (Place K (α × ℕ)) :=
  l.zipIdx.filterMap fun r => (key r.1).map fun k => ⟨k, r, term r.2⟩

/-- What the entries of a ranking that have the key add up to. -/
def rankSum {α : Type*} (key : α → Option K) (term : ℕ → ℚ) (l : List α) (k : K) : ℚ :=
  ((l.zipIdx.filter fun r => key r.1 = some k).map fun r => term r.2).sum

/-- The list, or as much of it as there is room for. -/
def keep {α : Type*} : Option ℕ → List α → List α
  | none, l => l
  | some n, l => l.take n

/-- The table of the terms and the kept places. -/
structure Fused (K V : Type*) where
  table : ℕ → List (K × ℚ)
  kept : List (Place K V)

/-- Nothing is read yet. -/
def Fused.empty : Fused K V := ⟨fun _ => [], []⟩

/-- `node->score += term` -/
def addTerm (term : ℚ) (n : K × ℚ) : K × ℚ := (n.1, n.2 + term)

/-- Reading a place. -/
def Fused.read (hash : K → ℕ) (cap : Option ℕ) (s : Fused K V) (e : Place K V) : Fused K V :=
  match HashTable.find hash Prod.fst s.table e.key with
  | some _ =>
    { s with table := HashTable.modify hash Prod.fst s.table e.key (addTerm e.term) }
  | none =>
    if cap.all (s.kept.length < ·) then
      ⟨HashTable.push s.table (hash e.key) (e.key, e.term), s.kept ++ [e]⟩
    else s

/-- Reading places from the first on. -/
def fuse (hash : K → ℕ) (cap : Option ℕ) (l : List (Place K V)) : Fused K V :=
  l.foldl (Fused.read hash cap) Fused.empty

/-- The sum in the table. -/
def Fused.sum (hash : K → ℕ) (s : Fused K V) (k : K) : Option ℚ :=
  (HashTable.find hash Prod.fst s.table k).map (·.2)

/-! ## First places -/

theorem firsts_sublist (l : List (Place K V)) : (firsts l).Sublist l := by
  induction l with
  | nil => exact List.Sublist.refl _
  | cons e l ih => exact (List.filter_sublist.trans ih).cons_cons e

theorem mem_firsts {e : Place K V} {l : List (Place K V)} (h : e ∈ firsts l) : e ∈ l :=
  (firsts_sublist l).subset h

/-- Every key has a first place. -/
theorem mem_map_firsts {k : K} {l : List (Place K V)} :
    k ∈ (firsts l).map (·.key) ↔ k ∈ l.map (·.key) := by
  induction l with
  | nil => rfl
  | cons d l ih =>
    rw [firsts, List.map_cons, List.map_cons, List.mem_cons, List.mem_cons, ← ih]
    by_cases hk : k = d.key
    · simp [hk]
    · simp only [hk, false_or, List.mem_map, List.mem_filter, decide_eq_true_eq]
      constructor
      · rintro ⟨e, ⟨he, -⟩, rfl⟩
        exact ⟨e, he, rfl⟩
      · rintro ⟨e, he, rfl⟩
        exact ⟨e, ⟨he, hk⟩, rfl⟩

/-- No key has two first places. -/
theorem nodup_map_firsts (l : List (Place K V)) : ((firsts l).map (·.key)).Nodup := by
  induction l with
  | nil => exact List.nodup_nil
  | cons d l ih =>
    rw [firsts, List.map_cons, List.nodup_cons]
    constructor
    · intro h
      obtain ⟨e, he, hkey⟩ := List.mem_map.mp h
      exact absurd hkey (by simpa using (List.mem_filter.mp he).2)
    · exact ih.sublist (List.filter_sublist.map _)

/-- Another place of a key that was there before is not the first one. -/
theorem firsts_concat_of_mem {e : Place K V} {l : List (Place K V)} (h : e.key ∈ l.map (·.key)) :
    firsts (l ++ [e]) = firsts l := by
  induction l with
  | nil => exact absurd h List.not_mem_nil
  | cons d l ih =>
    rw [List.cons_append, firsts, firsts]
    by_cases hmem : e.key ∈ l.map (·.key)
    · rw [ih hmem]
    · obtain hkey : e.key = d.key := by
        rcases List.mem_cons.mp h with h | h
        · exact h
        · exact absurd h hmem
      congr 1
      clear ih h
      induction l with
      | nil => simp [firsts, hkey]
      | cons c l ih =>
        rw [List.map_cons, List.mem_cons, not_or] at hmem
        rw [List.cons_append, firsts, firsts, List.filter_cons, List.filter_cons,
          List.filter_filter, List.filter_filter]
        have hrest := congrArg (List.filter fun p : Place K V => decide (p.key ≠ c.key)) (ih hmem.2)
        rw [List.filter_filter, List.filter_filter] at hrest
        simp only [Bool.and_comm] at hrest ⊢
        rw [hrest]

/-- The first place of a new key comes last. -/
theorem firsts_concat_of_notMem {e : Place K V} {l : List (Place K V)}
    (h : e.key ∉ l.map (·.key)) : firsts (l ++ [e]) = firsts l ++ [e] := by
  induction l with
  | nil => rfl
  | cons d l ih =>
    rw [List.map_cons, List.mem_cons, not_or] at h
    rw [List.cons_append, firsts, firsts, ih h.2, List.filter_append, List.cons_append,
      List.filter_cons_of_pos (by simpa using h.1)]
    rfl

/-- Places without a repeated key are all first ones, whatever comes behind them. -/
theorem firsts_append_of_nodup {l : List (Place K V)} (h : (l.map (·.key)).Nodup)
    (m : List (Place K V)) : ∃ m', firsts (l ++ m) = l ++ m' ∧ m'.Sublist m := by
  induction l with
  | nil => exact ⟨firsts m, rfl, firsts_sublist m⟩
  | cons e l ih =>
    rw [List.map_cons, List.nodup_cons] at h
    obtain ⟨m', heq, hsub⟩ := ih h.2
    have hkeep : l.filter (fun p => decide (p.key ≠ e.key)) = l := by
      rw [List.filter_eq_self]
      intro p hp
      rw [decide_eq_true_eq]
      intro hkey
      exact h.1 (hkey ▸ List.mem_map_of_mem hp)
    refine ⟨m'.filter fun p => decide (p.key ≠ e.key), ?_, List.filter_sublist.trans hsub⟩
    rw [List.cons_append, firsts, heq, List.filter_append, hkeep, List.cons_append]

/-- The first places are those of the keys in their order. -/
theorem map_key_firsts [BEq K] [LawfulBEq K] (l : List (Place K V)) :
    (firsts l).map (·.key) = (l.map (·.key)).eraseDups := by
  induction l using List.reverseRecOn with
  | nil => rfl
  | append_singleton l e ih =>
    rw [List.map_append, List.eraseDups_append, ← ih]
    by_cases h : e.key ∈ l.map (·.key)
    · have hnone : [e.key].removeAll (l.map (·.key)) = [] := by
        rw [List.removeAll, List.filter_cons_of_neg (by simpa using h), List.filter_nil]
      rw [firsts_concat_of_mem h, List.map_singleton, hnone, List.eraseDups_nil, List.append_nil]
    · have hone : [e.key].removeAll (l.map (·.key)) = [e.key] := by
        rw [List.removeAll, List.filter_cons_of_pos (by simpa using h), List.filter_nil]
      rw [firsts_concat_of_notMem h, List.map_append, List.map_singleton, hone]
      rfl

/-! ## Sums -/

theorem total_concat (l : List (Place K V)) (e : Place K V) (k : K) :
    total (l ++ [e]) k = total l k + if e.key = k then e.term else 0 := by
  rw [total, total, List.filter_append, List.map_append, List.sum_append]
  by_cases hk : e.key = k <;> simp [hk]

theorem total_append (l m : List (Place K V)) (k : K) :
    total (l ++ m) k = total l k + total m k := by
  rw [total, total, total, List.filter_append, List.map_append, List.sum_append]

theorem total_of_notMem {l : List (Place K V)} {k : K} (h : k ∉ l.map (·.key)) :
    total l k = 0 := by
  have hnone : l.filter (fun e => decide (e.key = k)) = [] := by
    rw [List.filter_eq_nil_iff]
    intro e he hkey
    exact h (List.mem_map.mpr ⟨e, he, of_decide_eq_true hkey⟩)
  rw [total, hnone, List.map_nil, List.sum_nil]

theorem total_flatMap {α : Type*} (f : α → List (Place K V)) (l : List α) (k : K) :
    total (l.flatMap f) k = (l.map fun a => total (f a) k).sum := by
  induction l with
  | nil => rfl
  | cons a l ih => rw [List.flatMap_cons, total_append, ih, List.map_cons, List.sum_cons]

/-! ## Rankings -/

section Ranked

variable {α : Type*} {key : α → Option K} {term : ℕ → ℚ} {l : List α}

omit [DecidableEq K] in
theorem map_key_ranked (key : α → Option K) (term : ℕ → ℚ) (l : List α) :
    (ranked key term l).map (·.key) = l.filterMap key := by
  have hfst : l.filterMap key = (l.zipIdx.map Prod.fst).filterMap key := by
    rw [List.zipIdx_map_fst]
  rw [hfst, List.filterMap_map, ranked, List.map_filterMap]
  congr 1
  funext r
  cases hkey : key r.1 <;> simp [hkey]

theorem total_ranked (key : α → Option K) (term : ℕ → ℚ) (l : List α) (k : K) :
    total (ranked key term l) k = rankSum key term l k := by
  rw [total, rankSum, ranked]
  congr 1
  generalize l.zipIdx = rs
  induction rs with
  | nil => rfl
  | cons r rs ih =>
    cases hkey : key r.1 with
    | none =>
      rw [List.filterMap_cons_none (by simp [hkey]), List.filter_cons_of_neg (by simp [hkey]), ih]
    | some d =>
      rw [List.filterMap_cons_some (by rw [hkey]; rfl)]
      by_cases hd : d = k
      · rw [List.filter_cons_of_pos (by simp [hd]), List.filter_cons_of_pos (by simp [hkey, hd]),
          List.map_cons, List.map_cons, ih]
      · rw [List.filter_cons_of_neg (by simp [hd]), List.filter_cons_of_neg (by simp [hkey, hd]),
          ih]

omit [DecidableEq K] in
/-- A place is that of an entry with its key. -/
theorem of_mem_ranked {e : Place K (α × ℕ)} (h : e ∈ ranked key term l) :
    e.value ∈ l.zipIdx ∧ key e.value.1 = some e.key ∧ e.term = term e.value.2 := by
  obtain ⟨r, hr, heq⟩ := List.mem_filterMap.mp h
  obtain ⟨k, hk, rfl⟩ := Option.map_eq_some_iff.mp heq
  exact ⟨hr, hk, rfl⟩

omit [DecidableEq K] in
/-- Where the terms decrease, they decrease from place to place. -/
theorem pairwise_ranked (h : ∀ i j, i < j → term j < term i) :
    (ranked key term l).Pairwise fun a b => b.term < a.term := by
  rw [ranked, List.pairwise_filterMap]
  have hidx : l.zipIdx.Pairwise fun a b => a.2 < b.2 := by
    have hmap : (l.zipIdx.map Prod.snd).Pairwise (· < ·) := by
      rw [List.zipIdx_map_snd]
      exact List.pairwise_lt_range'
    exact List.pairwise_map.mp hmap
  refine hidx.imp fun {a b} hab e he d hd => ?_
  obtain ⟨-, -, rfl⟩ := Option.map_eq_some_iff.mp he
  obtain ⟨-, -, rfl⟩ := Option.map_eq_some_iff.mp hd
  exact h _ _ hab

/-- The sum is the term of one of the entries exactly if the key has no other entry. -/
theorem rankSum_eq_term_iff (hpos : ∀ i, 0 < term i) {a : α} {i : ℕ} (hmem : (a, i) ∈ l.zipIdx)
    {k : K} (hkey : key a = some k) :
    rankSum key term l k = term i ↔ l.countP (fun b => key b = some k) = 1 := by
  obtain ⟨ts, hts⟩ : ∃ ts, ts = (l.zipIdx.filter fun r => key r.1 = some k).map fun r => term r.2 :=
    ⟨_, rfl⟩
  have hcount : l.countP (fun b => decide (key b = some k)) = ts.length := by
    have hfst : l.countP (fun b => decide (key b = some k)) =
        (l.zipIdx.map Prod.fst).countP fun b => decide (key b = some k) := by
      rw [List.zipIdx_map_fst]
    rw [hfst, List.countP_map, List.countP_eq_length_filter, hts, List.length_map]
    rfl
  have hin : term i ∈ ts := by
    rw [hts]
    exact List.mem_map.mpr ⟨(a, i), List.mem_filter.mpr ⟨hmem, by simpa using hkey⟩, rfl⟩
  have hall : ∀ t ∈ ts, 0 < t := by
    rw [hts]
    intro t ht
    obtain ⟨r, -, rfl⟩ := List.mem_map.mp ht
    exact hpos _
  rw [rankSum, ← hts, hcount]
  constructor
  · intro hsum
    have hrest : (ts.erase (term i)).sum = 0 := by
      have herase := List.sum_erase hin
      rw [hsum] at herase
      exact add_eq_left.mp herase
    have hnil : ts.erase (term i) = [] := by
      by_contra hne
      have hlt := List.sum_pos _ (fun t ht => hall t (List.mem_of_mem_erase ht)) hne
      exact absurd hrest hlt.ne'
    have hlen := List.length_erase_of_mem hin
    have hlt := List.length_pos_of_mem hin
    rw [hnil, List.length_nil] at hlen
    omega
  · intro hone
    obtain ⟨t, rfl⟩ := List.length_eq_one_iff.mp hone
    rw [List.sum_singleton]
    exact (List.mem_singleton.mp hin).symm

end Ranked

/-! ## Reading -/

theorem keep_sublist {α : Type*} (cap : Option ℕ) (l : List α) : (keep cap l).Sublist l := by
  cases cap with
  | none => exact List.Sublist.refl l
  | some n => exact List.take_sublist n l

/-- As long as there is room everything is kept. -/
theorem keep_concat {α : Type*} {cap : Option ℕ} {l : List α} (a : α)
    (h : cap.all (fun n => decide ((keep cap l).length < n)) = true) :
    keep cap l = l ∧ keep cap (l ++ [a]) = l ++ [a] := by
  cases cap with
  | none => exact ⟨rfl, rfl⟩
  | some n =>
    simp only [Option.all_some, decide_eq_true_eq, keep, List.length_take] at h
    rw [keep, keep]
    refine ⟨List.take_of_length_le (by omega), List.take_of_length_le ?_⟩
    rw [List.length_append, List.length_singleton]
    omega

/-- Without room nothing more is kept. -/
theorem keep_append_of_full {α : Type*} {cap : Option ℕ} {l : List α} (m : List α)
    (h : ¬ cap.all (fun n => decide ((keep cap l).length < n)) = true) :
    keep cap (l ++ m) = keep cap l := by
  cases cap with
  | none => exact absurd rfl h
  | some n =>
    simp only [Option.all_some, decide_eq_true_eq, keep, List.length_take] at h
    rw [keep, keep, List.take_append_of_le_length (by omega)]

section Sum

variable (hash : K → ℕ) (s : Fused K V) (e : Place K V)

theorem sum_modify (k : K) :
    Fused.sum hash { s with table := HashTable.modify hash Prod.fst s.table e.key (addTerm e.term) } k =
      if e.key = k then (s.sum hash k).map (· + e.term) else s.sum hash k := by
  have hfst : ∀ n : K × ℚ, (addTerm e.term n).1 = n.1 := fun _ => rfl
  rw [Fused.sum, Fused.sum]
  split_ifs with hk
  · subst hk
    rw [HashTable.find_modify_self hfst, Option.map_map, Option.map_map]
    rfl
  · rw [HashTable.find_modify_of_ne hfst hk]

theorem sum_push (kept : List (Place K V)) (k : K) :
    Fused.sum hash ⟨HashTable.push s.table (hash e.key) (e.key, e.term), kept⟩ k =
      if e.key = k then some e.term else s.sum hash k := by
  have hself : HashTable.find hash Prod.fst (HashTable.push s.table (hash e.key) (e.key, e.term))
      e.key = some (e.key, e.term) := HashTable.find_push_self rfl
  rw [Fused.sum, Fused.sum]
  split_ifs with hk
  · subst hk
    rw [hself]
    rfl
  · have hne : HashTable.find hash Prod.fst (HashTable.push s.table (hash e.key) (e.key, e.term))
        k = HashTable.find hash Prod.fst s.table k := HashTable.find_push_of_ne _ hk
    rw [hne]

end Sum

/-- The table has the sums of the keys of what is kept, and what is kept are the first places. -/
def Fused.Sums (hash : K → ℕ) (cap : Option ℕ) (l : List (Place K V)) (s : Fused K V) : Prop :=
  s.kept = keep cap (firsts l) ∧ ∀ k, s.sum hash k =
    if k ∈ (keep cap (firsts l)).map (·.key) then some (total l k) else none

/-- One place more. -/
theorem Fused.Sums.read {hash : K → ℕ} {cap : Option ℕ} {l : List (Place K V)} {s : Fused K V}
    (h : s.Sums hash cap l) (e : Place K V) : (s.read hash cap e).Sums hash cap (l ++ [e]) := by
  obtain ⟨hkept, hsum⟩ := h
  have hsub : ∀ {k}, k ∈ (keep cap (firsts l)).map (·.key) → k ∈ l.map (·.key) := fun h =>
    mem_map_firsts.mp (((keep_sublist cap _).map _).subset h)
  have hfind := hsum e.key
  rw [Fused.sum] at hfind
  rw [Fused.read]
  by_cases hmem : e.key ∈ (keep cap (firsts l)).map (·.key)
  · -- another place of a kept key
    rw [if_pos hmem] at hfind
    obtain ⟨n, hn, -⟩ := Option.map_eq_some_iff.mp hfind
    simp only [hn]
    rw [Fused.Sums, firsts_concat_of_mem (hsub hmem)]
    refine ⟨hkept, fun k => ?_⟩
    rw [sum_modify, hsum, total_concat]
    by_cases hk : e.key = k
    · subst hk
      rw [if_pos rfl, if_pos hmem, if_pos hmem, if_pos rfl, Option.map_some]
    · rw [if_neg hk, if_neg hk, add_zero]
  · rw [if_neg hmem, Option.map_eq_none_iff] at hfind
    simp only [hfind, hkept]
    split_ifs with hroom
    · -- the first place of a key
      obtain ⟨hall, hall'⟩ := keep_concat e hroom
      rw [hall] at hmem hsum
      have hnew : e.key ∉ l.map (·.key) := fun h => hmem (mem_map_firsts.mpr h)
      rw [Fused.Sums, firsts_concat_of_notMem hnew, hall', hall]
      refine ⟨rfl, fun k => ?_⟩
      rw [sum_push, total_concat]
      by_cases hk : e.key = k
      · subst hk
        rw [if_pos rfl, if_pos (by simp), if_pos rfl, total_of_notMem hnew, zero_add]
      · have hiff : k ∈ (firsts l ++ [e]).map (·.key) ↔ k ∈ (firsts l).map (·.key) := by
          simp [Ne.symm hk]
        simp only [hiff]
        rw [if_neg hk, if_neg hk, add_zero, hsum]
    · -- no room for another key
      have hkeep : keep cap (firsts (l ++ [e])) = keep cap (firsts l) := by
        by_cases hold : e.key ∈ l.map (·.key)
        · rw [firsts_concat_of_mem hold]
        · rw [firsts_concat_of_notMem hold, keep_append_of_full _ hroom]
      rw [Fused.Sums, hkeep]
      refine ⟨hkept, fun k => ?_⟩
      rw [hsum k, total_concat]
      by_cases hk : e.key = k
      · subst hk
        rw [if_neg hmem, if_neg hmem]
      · rw [if_neg hk, add_zero]

/-- What is kept are the first places, and the table has the sums of their keys. -/
theorem fuse_spec (hash : K → ℕ) (cap : Option ℕ) (l : List (Place K V)) :
    (fuse hash cap l).Sums hash cap l := by
  induction l using List.reverseRecOn with
  | nil =>
    have hkeep : keep cap ([] : List (Place K V)) = [] := by
      cases cap with
      | none => rfl
      | some n => exact List.take_nil
    rw [Fused.Sums, firsts, hkeep]
    exact ⟨rfl, fun k => rfl⟩
  | append_singleton l e ih =>
    have hread : fuse hash cap (l ++ [e]) = (fuse hash cap l).read hash cap e := by
      rw [fuse, List.foldl_append]
      rfl
    rw [hread]
    exact ih.read e

/-- The kept places with the sums of their keys. -/
theorem map_fuse {α : Type*} (hash : K → ℕ) (cap : Option ℕ) (l : List (Place K V))
    (f : Place K V → ℚ → α) :
    ((fuse hash cap l).kept.map fun e => f e (((fuse hash cap l).sum hash e.key).getD e.term)) =
      (keep cap (firsts l)).map fun e => f e (total l e.key) := by
  obtain ⟨hkept, hsum⟩ := fuse_spec hash cap l
  rw [hkept]
  apply List.map_congr_left
  intro e he
  rw [hsum, if_pos (List.mem_map_of_mem he), Option.getD_some]

end SeaClaw.Lib.RankFusion
