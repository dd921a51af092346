import Mathlib.Data.List.Nodup
import Mathlib.Data.List.Perm.Basic

/-!
# Lists of pairs as maps

Pairs with distinct keys. A pair is put in the place of one with its key or at the end, and
one is removed by moving the last pair into its place. Looking up keys sees neither.
-/

namespace SeaClaw.Lib.AssocList

variable {K V : Type*} [DecidableEq K]

/-- The value of the first pair with the key. -/
def find (ps : List (K × V)) (k : K) : Option V := (ps.find? fun p => p.1 = k).map (·.2)

/-- A pair whose key is already there takes the place of the old one. -/
def put (k : K) (v : V) : List (K × V) → List (K × V)
  | [] => [(k, v)]
  | p :: ps => if p.1 = k then (k, v) :: ps else p :: put k v ps

/-- The pairs without the first one with the key, in whose place the last one goes; `none`
when there is no such pair. -/
def swapRemove (k : K) (ps : List (K × V)) : Option (List (K × V)) :=
  (ps.findIdx? fun p => p.1 = k).map fun i =>
    match ps.getLast? with
    | some last => if i ≠ ps.length - 1 then (ps.set i last).dropLast else ps.dropLast
    | none => ps

/-- The pairs without the first one with the key. -/
def erase (k : K) (ps : List (K × V)) : List (K × V) := ps.eraseP fun p => p.1 = k

/-- The keys are distinct. -/
def Distinct (ps : List (K × V)) : Prop := (ps.map Prod.fst).Nodup

@[simp] theorem find_nil (k : K) : find ([] : List (K × V)) k = none := rfl

theorem find_cons (p : K × V) (ps : List (K × V)) (k : K) :
    find (p :: ps) k = if p.1 = k then some p.2 else find ps k := by
  by_cases h : p.1 = k <;> simp [find, h]

theorem find_put (k k' : K) (v : V) (ps : List (K × V)) :
    find (put k v ps) k' = if k' = k then some v else find ps k' := by
  induction ps with
  | nil =>
    rw [put, find_cons]
    simp only [eq_comm]
  | cons p ps ih =>
    rw [put]
    by_cases hp : p.1 = k
    · rw [if_pos hp, find_cons, find_cons, hp]
      by_cases hk : k' = k
      · simp [hk]
      · simp [hk, Ne.symm hk]
    · rw [if_neg hp, find_cons, find_cons, ih]
      by_cases hk : k' = k
      · simp [hk, hp]
      · simp only [hk, if_false]

theorem mem_keys_put {k k' : K} {v : V} {ps : List (K × V)} :
    k' ∈ (put k v ps).map Prod.fst ↔ k' = k ∨ k' ∈ ps.map Prod.fst := by
  induction ps with
  | nil => simp [put]
  | cons p ps ih =>
    rw [put]
    split_ifs with hp
    · simp [hp]
    · rw [List.map_cons, List.mem_cons, ih, List.map_cons, List.mem_cons]
      tauto

theorem Distinct.put {ps : List (K × V)} (h : Distinct ps) (k : K) (v : V) :
    Distinct (put k v ps) := by
  induction ps with
  | nil => simp [Distinct, AssocList.put]
  | cons p ps ih =>
    rw [Distinct, List.map_cons, List.nodup_cons] at h
    rw [AssocList.put]
    split_ifs with hp
    · rw [Distinct, List.map_cons, List.nodup_cons, ← hp]
      exact h
    · rw [Distinct, List.map_cons, List.nodup_cons, mem_keys_put, not_or]
      exact ⟨⟨hp, h.1⟩, ih h.2⟩

/-- Where keys are distinct, looking up is membership. -/
theorem find_eq_some_iff {ps : List (K × V)} (h : Distinct ps) {k : K} {v : V} :
    find ps k = some v ↔ (k, v) ∈ ps := by
  induction ps with
  | nil => simp
  | cons p ps ih =>
    rw [Distinct, List.map_cons, List.nodup_cons] at h
    rw [find_cons, List.mem_cons]
    split_ifs with hp
    · constructor
      · intro hv
        exact Or.inl (Prod.ext hp.symm (Option.some.inj hv).symm)
      · rintro (rfl | hmem)
        · rfl
        · exact absurd (hp ▸ List.mem_map_of_mem hmem) h.1
    · rw [ih h.2]
      refine ⟨Or.inr, ?_⟩
      rintro (rfl | hmem)
      · exact absurd rfl hp
      · exact hmem

/-- Pairs in another order are the same map. -/
theorem find_congr_of_perm {ps qs : List (K × V)} (hps : Distinct ps) (h : ps.Perm qs) (k : K) :
    find ps k = find qs k := by
  have hqs : Distinct qs := (h.map Prod.fst).nodup_iff.mp hps
  apply Option.ext
  intro v
  rw [find_eq_some_iff hps, find_eq_some_iff hqs, h.mem_iff]

theorem find_eq_none_iff {ps : List (K × V)} {k : K} :
    find ps k = none ↔ k ∉ ps.map Prod.fst := by
  induction ps with
  | nil => simp
  | cons p ps ih =>
    rw [find_cons, List.map_cons, List.mem_cons, not_or, ← ih, eq_comm (a := k)]
    by_cases hp : p.1 = k <;> simp [hp]

/-- What is removed is one pair with the key. -/
theorem swapRemove_perm {k : K} {ps qs : List (K × V)} (h : swapRemove k ps = some qs) :
    ∃ v, ps.Perm ((k, v) :: qs) := by
  rw [swapRemove, Option.map_eq_some_iff] at h
  obtain ⟨i, hi, hqs⟩ := h
  obtain ⟨hlt, hkey, -⟩ := List.findIdx?_eq_some_iff_getElem.mp hi
  obtain ⟨init, last, rfl⟩ : ∃ init last, ps = init ++ [last] :=
    ⟨ps.dropLast, ps.getLast (List.ne_nil_of_length_pos (by omega)),
      (List.dropLast_append_getLast _).symm⟩
  rw [List.length_append, List.length_singleton] at hlt
  simp only [List.getLast?_concat, List.length_append, List.length_singleton,
    Nat.add_sub_cancel] at hqs
  by_cases hlast : i = init.length
  · -- the last pair itself is removed
    rw [if_neg (by simpa using hlast), List.dropLast_concat] at hqs
    subst hlast hqs
    refine ⟨last.2, ?_⟩
    have hk : last.1 = k := by simpa using hkey
    rw [← hk]
    exact List.perm_append_singleton last init
  · -- the last pair goes into the place of pair `i`
    have hlt' : i < init.length := by omega
    rw [if_pos (by simpa using hlast), List.set_append_left _ _ hlt', List.dropLast_concat] at hqs
    subst hqs
    have hk : (init[i]).1 = k := by simpa [List.getElem_append_left hlt'] using hkey
    refine ⟨(init[i]).2, ?_⟩
    rw [← hk]
    calc (init ++ [last]).Perm (last :: init) := List.perm_append_singleton last init
      _ = last :: (init.set i (init[i])) := by rw [List.set_getElem_self]
      _ |>.Perm _ := ?_
    rw [List.set_eq_take_append_cons_drop, List.set_eq_take_append_cons_drop, if_pos hlt',
      if_pos hlt']
    exact ((List.perm_middle.cons last).trans (List.Perm.swap _ _ _)).trans
      (List.perm_middle.symm.cons _)

theorem swapRemove_eq_none_iff {k : K} {ps : List (K × V)} :
    swapRemove k ps = none ↔ find ps k = none := by
  rw [swapRemove, Option.map_eq_none_iff, List.findIdx?_eq_none_iff, find_eq_none_iff,
    List.mem_map]
  constructor
  · rintro h ⟨p, hmem, rfl⟩
    simpa using h p hmem
  · intro h p hmem
    rw [decide_eq_false_iff_not]
    exact fun hp => h ⟨p, hmem, hp⟩

/-- Only the key that is removed is gone. -/
theorem find_swapRemove {k : K} {ps qs : List (K × V)} (hps : Distinct ps)
    (h : swapRemove k ps = some qs) (k' : K) :
    find qs k' = if k' = k then none else find ps k' := by
  obtain ⟨v, hperm⟩ := swapRemove_perm h
  have hd : Distinct ((k, v) :: qs) := (hperm.map Prod.fst).nodup_iff.mp hps
  rw [find_congr_of_perm hps hperm, find_cons]
  rw [Distinct, List.map_cons, List.nodup_cons] at hd
  by_cases hk : k' = k
  · rw [if_pos hk, hk]
    exact find_eq_none_iff.mpr hd.1
  · rw [if_neg hk, if_neg (Ne.symm hk)]

theorem Distinct.swapRemove {k : K} {ps qs : List (K × V)} (hps : Distinct ps)
    (h : swapRemove k ps = some qs) : Distinct qs := by
  obtain ⟨v, hperm⟩ := swapRemove_perm h
  have hd : Distinct ((k, v) :: qs) := (hperm.map Prod.fst).nodup_iff.mp hps
  exact (List.nodup_cons.mp hd).2

/-- A new key goes to the end. -/
theorem put_of_find_eq_none {k : K} {v : V} {ps : List (K × V)} (h : find ps k = none) :
    put k v ps = ps ++ [(k, v)] := by
  induction ps with
  | nil => rfl
  | cons p ps ih =>
    rw [find_cons] at h
    split_ifs at h with hp
    rw [put, if_neg hp, ih h, List.cons_append]

theorem find_erase {ps : List (K × V)} (h : Distinct ps) (k k' : K) :
    find (erase k ps) k' = if k' = k then none else find ps k' := by
  induction ps with
  | nil => simp [erase]
  | cons p ps ih =>
    rw [Distinct, List.map_cons, List.nodup_cons] at h
    rw [erase]
    by_cases hp : p.1 = k
    · rw [List.eraseP_cons_of_pos (by simpa using hp), find_cons]
      split_ifs with hk hk'
      · rw [find_eq_none_iff, hk, ← hp]
        exact h.1
      · exact absurd (hk'.symm.trans hp) hk
      · rfl
    · rw [List.eraseP_cons_of_neg (by simpa using hp), find_cons, ← erase, ih h.2, find_cons]
      split_ifs with hk hk' hk'
      · exact absurd (hk.trans hk') hp
      · rfl
      · rfl
      · rfl

theorem Distinct.erase {ps : List (K × V)} (h : Distinct ps) (k : K) : Distinct (erase k ps) :=
  h.sublist (List.eraseP_sublist.map _)

/-! ## Pairs under other names -/

section Map

variable {K' V' : Type*} [DecidableEq K'] {f : K → K'} (hf : Function.Injective f) (g : V → V')
include hf

theorem find_map (ps : List (K × V)) (k : K) :
    find (ps.map (Prod.map f g)) (f k) = (find ps k).map g := by
  induction ps with
  | nil => rfl
  | cons p ps ih =>
    rw [List.map_cons, find_cons, find_cons, ih]
    by_cases hp : p.1 = k
    · simp [hp]
    · simp [hp, hf.ne hp]

theorem put_map (ps : List (K × V)) (k : K) (v : V) :
    put (f k) (g v) (ps.map (Prod.map f g)) = (put k v ps).map (Prod.map f g) := by
  induction ps with
  | nil => rfl
  | cons p ps ih =>
    rw [List.map_cons, put, put, ih]
    by_cases hp : p.1 = k
    · simp [hp]
    · simp [hp, hf.ne hp]

theorem swapRemove_map (ps : List (K × V)) (k : K) :
    swapRemove (f k) (ps.map (Prod.map f g)) =
      (swapRemove k ps).map (List.map (Prod.map f g)) := by
  have hidx : (ps.map (Prod.map f g)).findIdx? (fun p => p.1 = f k) =
      ps.findIdx? fun p => p.1 = k := by
    rw [List.findIdx?_map]
    congr 1
    funext p
    simp [hf.eq_iff]
  rw [swapRemove, swapRemove, hidx, Option.map_map]
  congr 1
  funext i
  rw [Function.comp_apply, List.getLast?_map, List.length_map]
  cases ps.getLast? with
  | none => rfl
  | some last =>
    simp only [Option.map_some]
    split_ifs
    · rw [List.map_dropLast, List.map_set]
    · rw [List.map_dropLast]

omit [DecidableEq K] [DecidableEq K'] in
theorem Distinct.map {ps : List (K × V)} (h : Distinct ps) :
    Distinct (ps.map (Prod.map f g)) := by
  have hfst : (ps.map (Prod.map f g)).map Prod.fst = (ps.map Prod.fst).map f := by
    rw [List.map_map, List.map_map]
    rfl
  rw [Distinct, hfst]
  exact List.Nodup.map hf h

end Map

end SeaClaw.Lib.AssocList
