import SeaClaw.Core.Error
import SeaClaw.Lib.AssocList
import SeaClaw.Lib.Bytes
import SeaClaw.Lib.Machine

/-!
# The vector store in memory

`memory/vector/store_mem.c`. An entry owns three buffers. An insertion under an id that is there
frees them before it asks for new ones, so that an allocation that fails leaves an entry behind
whose buffers are missing or freed.
-/

namespace SeaClaw.Memory.VectorStore

open SeaClaw.Lib

variable {V : Type}

/-! ## The code -/

/-- A pointer to a buffer. -/
inductive Buf (α : Type) where
  | null
  | freed
  | held (contents : α)

/-- `alloc->free`, which may be given a null pointer. -/
def Buf.free {α : Type} : Buf α → Buf α
  | .null => .null
  | .freed => .freed
  | .held _ => .freed

/-- `mem_entry_t` -/
structure MemEntry (V : Type) where
  id : Buf Bytes
  idLen : ℕ
  embedding : Buf (List V)
  embeddingDim : ℕ
  content : Buf Bytes
  contentLen : ℕ

/-- `mem_store_ctx_t`. The entries are those that are counted. -/
structure MemStore (V : Type) where
  entries : List (MemEntry V)
  capacity : ℕ

/-- `new_cap` if the entries fill the array, and else the capacity as it is. -/
def MemStore.newCap (m : MemStore V) : ℕ :=
  if m.entries.length ≥ m.capacity then if m.capacity = 0 then 16 else m.capacity * 2
  else m.capacity

/-- Which allocations of an insertion succeed. -/
structure Answers where
  array : Bool
  id : Bool
  embedding : Bool
  content : Bool

/-- An entry that was never filled. -/
def MemEntry.blank : MemEntry V := ⟨.null, 0, .null, 0, .null, 0⟩

/-- The three calls that free the buffers of an entry. -/
def MemEntry.release (e : MemEntry V) : MemEntry V :=
  { e with id := e.id.free, embedding := e.embedding.free, content := e.content.free }

/-- The allocations of an insertion and the copies into them: the entry, and whether it is whole. -/
def fill (a : Answers) (id : Bytes) (values : List V) (content : Bytes) (e : MemEntry V) :
    MemEntry V × Bool :=
  if a.id = false then ({ e with id := .null }, false)
  else if a.embedding = false then
    (⟨.freed, id.length, .null, values.length, e.content, e.contentLen⟩, false)
  else if content = [] then
    (⟨.held id, id.length, .held values, values.length, .null, 0⟩, true)
  else if a.content = false then
    (⟨.freed, id.length, .freed, values.length, .null, content.length⟩, false)
  else (⟨.held id, id.length, .held values, values.length, .held content, content.length⟩, true)

/-- `e.id_len == id_len && memcmp(e.id, id, id_len) == 0`, which is undefined for an id that is
missing or freed. -/
def MemEntry.hasId (e : MemEntry V) (id : Bytes) : Option Bool :=
  if e.idLen = id.length then
    match e.id with
    | .held b => some (decide (b = id))
    | .null => none
    | .freed => none
  else some false

/-- The index of the first entry with an id. -/
def findSlot : List (MemEntry V) → Bytes → Option (Option ℕ)
  | [], _ => some none
  | e :: es, id =>
    match e.hasId id with
    | none => none
    | some true => some (some 0)
    | some false => (findSlot es id).map fun i => i.map (· + 1)

/-- What a call returns. -/
abbrev Result := Except ScError Unit

/-- `SC_OK` for an entry that is whole. -/
def resultOf (whole : Bool) : Result := if whole then .ok () else .error .outOfMemory

/-- `insert_impl` with all of its arguments. A content that is null is empty. -/
def insertEntry (a : Answers) (id : Bytes) (values : List V) (content : Bytes) (m : MemStore V) :
    Option (MemStore V × Result) :=
  match findSlot m.entries id with
  | none => none
  | some (some i) =>
    some ({ m with entries := m.entries.modify i fun e => (fill a id values content e.release).1 },
      resultOf (fill a id values content (V := V) .blank).2)
  | some none =>
    if m.entries.length ≥ m.capacity ∧ a.array = false then some (m, .error .outOfMemory)
    else if (fill a id values content (V := V) .blank).2 then
      some (⟨m.entries ++ [(fill a id values content .blank).1], m.newCap⟩, .ok ())
    else some (⟨m.entries, m.newCap⟩, .error .outOfMemory)

/-- `remove_impl` with its argument. -/
def removeEntry (id : Bytes) (m : MemStore V) : Option (MemStore V × Result) :=
  match findSlot m.entries id with
  | none => none
  | some (some i) => some ({ m with entries := m.entries.eraseIdx i }, .ok ())
  | some none => some (m, .error .notFound)

/-! ## Runs -/

/-- The calls that change the store. Any pointer may be null. -/
inductive Call (V : Type) where
  | insert (id : Option Bytes) (values : Option (List V)) (content : Option Bytes) (a : Answers)
  | remove (id : Option Bytes)

/-- `insert_impl` and `remove_impl` -/
def step (m : MemStore V) : Call V → Option (MemStore V × Result)
  | .insert (some id) (some values) content a => insertEntry a id values (content.getD []) m
  | .insert none _ _ _ => some (m, .error .invalidArgument)
  | .insert (some _) none _ _ => some (m, .error .invalidArgument)
  | .remove (some id) => removeEntry id m
  | .remove none => some (m, .error .invalidArgument)

/-- What is bound to the ids. -/
abbrev Bindings (V : Type) := Bytes → Option (List V × Bytes)

/-- What a call is meant to do: an insertion that succeeds binds its id, one that fails changes
nothing, and a removal unbinds its id. -/
def meant (b : Bindings V) : Call V → Result → Bindings V
  | .insert (some id) (some values) content _, .ok () =>
    Function.update b id (some (values, content.getD []))
  | .insert (some _) (some _) _ _, .error _ => b
  | .insert none _ _ _, _ => b
  | .insert (some _) none _ _, _ => b
  | .remove (some id), _ => Function.update b id none
  | .remove none, _ => b

/-- The store after a call, beside the bindings that are meant. -/
def stepMeant (p : MemStore V × Bindings V) (c : Call V) : Option (MemStore V × Bindings V) :=
  (step p.1 c).map fun r => (r.1, meant p.2 c r.2)

/-- An entry that holds all that belongs to an id. -/
def entryOf (p : Bytes × (List V × Bytes)) : MemEntry V :=
  ⟨.held p.1, p.1.length, .held p.2.1, p.2.1.length, if p.2.2 = [] then .null else .held p.2.2,
    p.2.2.length⟩

/-- The store represents the bindings by entries with distinct ids. -/
def IsMap (p : MemStore V × Bindings V) : Prop :=
  ∃ ps, p.1.entries = ps.map entryOf ∧ AssocList.Distinct ps ∧ p.2 = AssocList.find ps

/-- An insertion under an id that is bound gets all the memory that it asks for. -/
def Replaces (p : MemStore V × Bindings V) : Call V → Prop
  | .insert (some id) (some _) content a =>
    (p.2 id).isSome → a.id = true ∧ a.embedding = true ∧ (content.getD [] ≠ [] → a.content = true)
  | .insert none _ _ _ => True
  | .insert (some _) none _ _ => True
  | .remove _ => True

/-! ## Slots -/

theorem hasId_entryOf (p : Bytes × (List V × Bytes)) (id : Bytes) :
    (entryOf p).hasId id = some (decide (p.1 = id)) := by
  rw [MemEntry.hasId, entryOf]
  simp only
  split_ifs with hlen
  · rfl
  · rw [decide_eq_false]
    rintro rfl
    exact hlen rfl

/-- Where the buffers are whole the search finds the first pair with the id. -/
theorem findSlot_map (ps : List (Bytes × (List V × Bytes))) (id : Bytes) :
    findSlot (ps.map entryOf) id = some (ps.findIdx? fun p => p.1 = id) := by
  induction ps with
  | nil => rfl
  | cons p ps ih =>
    rw [List.map_cons, findSlot, hasId_entryOf, List.findIdx?_cons]
    by_cases hp : p.1 = id
    · simp [hp]
    · simp [hp, ih]

theorem find_isSome_iff (ps : List (Bytes × (List V × Bytes))) (id : Bytes) :
    (AssocList.find ps id).isSome ↔ (ps.findIdx? fun p => p.1 = id).isSome := by
  rw [AssocList.find, Option.isSome_map, List.find?_isSome, List.findIdx?_isSome, List.any_eq_true]

/-- An entry that is filled holds all that belongs to the id. -/
theorem fill_whole {a : Answers} {id : Bytes} {values : List V} {content : Bytes}
    (e : MemEntry V) (hid : a.id = true) (hembedding : a.embedding = true)
    (hcontent : content ≠ [] → a.content = true) :
    fill a id values content e = (entryOf (id, values, content), true) := by
  rw [fill, if_neg (by simp [hid]), if_neg (by simp [hembedding]), entryOf]
  split_ifs with hnil hfail
  · simp [hnil]
  · exact absurd (hcontent hnil) (by simp [hfail])
  · rfl

/-- An entry that is not filled has lost its id. -/
theorem fill_broken {a : Answers} {id : Bytes} {values : List V} {content : Bytes}
    (e : MemEntry V)
    (h : ¬ (a.id = true ∧ a.embedding = true ∧ (content ≠ [] → a.content = true))) :
    (fill a id values content e).2 = false ∧
      ∀ p, (fill a id values content e).1 ≠ entryOf p := by
  rw [fill]
  split_ifs with hid hembedding hnil hcontent
  · exact ⟨rfl, fun p hp => by cases congrArg MemEntry.id hp⟩
  · exact ⟨rfl, fun p hp => by cases congrArg MemEntry.id hp⟩
  · exact absurd ⟨by simpa using hid, by simpa using hembedding, fun h => absurd hnil h⟩ h
  · exact ⟨rfl, fun p hp => by cases congrArg MemEntry.id hp⟩
  · exact absurd ⟨by simpa using hid, by simpa using hembedding, fun _ => by simpa using hcontent⟩ h

/-- The entry in the place of the first pair with the id. -/
theorem modify_map {ps : List (Bytes × (List V × Bytes))} {id : Bytes} {i : ℕ}
    (h : (ps.findIdx? fun p => p.1 = id) = some i) {f : MemEntry V → MemEntry V}
    {v : List V × Bytes} (hf : ∀ e, f e = entryOf (id, v)) :
    (ps.map entryOf).modify i f = (AssocList.put id v ps).map entryOf := by
  induction ps generalizing i with
  | nil => cases h
  | cons p ps ih =>
    rw [List.findIdx?_cons] at h
    rw [AssocList.put, List.map_cons]
    by_cases hp : p.1 = id
    · rw [if_pos (by simpa using hp)] at h
      obtain rfl := Option.some.inj h
      rw [if_pos hp, List.modify_zero_cons, hf, List.map_cons]
    · rw [if_neg (by simpa using hp)] at h
      obtain ⟨j, hj, rfl⟩ := Option.map_eq_some_iff.mp h
      rw [if_neg hp, List.modify_succ_cons, ih hj, List.map_cons]

theorem eraseIdx_map {ps : List (Bytes × (List V × Bytes))} {id : Bytes} {i : ℕ}
    (h : (ps.findIdx? fun p => p.1 = id) = some i) :
    (ps.map entryOf).eraseIdx i = (AssocList.erase id ps).map entryOf := by
  rw [AssocList.erase, List.eraseP_eq_eraseIdx, h, List.eraseIdx_map]

/-! ## One call -/

section Step

variable {m : MemStore V} {ps : List (Bytes × (List V × Bytes))}

/-- An insertion that meets the condition keeps the map. -/
theorem insertEntry_keeps (hm : m.entries = ps.map entryOf) (hd : AssocList.Distinct ps)
    (a : Answers) (id : Bytes) (values : List V) (content : Bytes)
    (h : (AssocList.find ps id).isSome →
      a.id = true ∧ a.embedding = true ∧ (content ≠ [] → a.content = true)) :
    ∃ m' r, insertEntry a id values content m = some (m', r) ∧
      ∃ qs, m'.entries = qs.map entryOf ∧ AssocList.Distinct qs ∧
        (r = .ok () ∧ AssocList.find qs =
            Function.update (AssocList.find ps) id (some (values, content)) ∨
          (∃ e, r = .error e) ∧ AssocList.find qs = AssocList.find ps) := by
  have hput : AssocList.find (AssocList.put id (values, content) ps) =
      Function.update (AssocList.find ps) id (some (values, content)) := by
    funext k
    rw [AssocList.find_put, Function.update_apply]
  rw [insertEntry, hm, findSlot_map]
  rw [find_isSome_iff] at h
  cases hi : ps.findIdx? fun p => decide (p.1 = id) with
  | some i =>
    obtain ⟨hid, hembedding, hcontent⟩ := h (by rw [hi]; rfl)
    have hfill := fun e => @fill_whole V a id values content e hid hembedding hcontent
    refine ⟨_, _, rfl, AssocList.put id (values, content) ps, ?_, hd.put _ _, Or.inl ⟨?_, hput⟩⟩
    · exact modify_map hi fun e => by rw [hfill]
    · rw [hfill]
      rfl
  | none =>
    simp only
    split_ifs with harray hwhole
    · exact ⟨_, _, rfl, ps, hm, hd, Or.inr ⟨⟨_, rfl⟩, rfl⟩⟩
    · have hnone : AssocList.find ps id = none := by
        rw [← Option.not_isSome_iff_eq_none, find_isSome_iff, hi]
        simp
      have hfill : (fill a id values content (V := V) .blank).1 = entryOf (id, values, content) := by
        by_cases hall : a.id = true ∧ a.embedding = true ∧ (content ≠ [] → a.content = true)
        · rw [fill_whole .blank hall.1 hall.2.1 hall.2.2]
        · rw [(fill_broken .blank hall).1] at hwhole
          cases hwhole
      refine ⟨_, _, rfl, AssocList.put id (values, content) ps, ?_, hd.put _ _, Or.inl ⟨rfl, hput⟩⟩
      simp only
      rw [AssocList.put_of_find_eq_none hnone, List.map_append, List.map_singleton, hfill]
    · exact ⟨_, _, rfl, ps, rfl, hd, Or.inr ⟨⟨_, rfl⟩, rfl⟩⟩

/-- An insertion under a bound id that runs out of memory leaves a broken entry. -/
theorem insertEntry_breaks (hm : m.entries = ps.map entryOf) {a : Answers} {id : Bytes}
    {values : List V} {content : Bytes} (hbound : (AssocList.find ps id).isSome)
    (h : ¬ (a.id = true ∧ a.embedding = true ∧ (content ≠ [] → a.content = true)))
    {m' : MemStore V} {r : Result} (hstep : insertEntry a id values content m = some (m', r)) :
    ∃ e ∈ m'.entries, ∀ p, e ≠ entryOf p := by
  rw [find_isSome_iff] at hbound
  obtain ⟨i, hi⟩ := Option.isSome_iff_exists.mp hbound
  rw [insertEntry, hm, findSlot_map, hi] at hstep
  obtain ⟨rfl, -⟩ := Prod.mk.inj (Option.some.inj hstep)
  obtain ⟨hlt, -⟩ := List.findIdx?_eq_some_iff_findIdx_eq.mp hi
  have hlt' : i < (ps.map (entryOf (V := V))).length := by
    rw [List.length_map]
    exact hlt
  refine ⟨(fill a id values content ((ps.map entryOf)[i]).release).1, ?_, (fill_broken _ h).2⟩
  rw [List.mem_iff_getElem]
  refine ⟨i, by rwa [List.length_modify], ?_⟩
  rw [List.getElem_modify_eq]

theorem removeEntry_keeps (hm : m.entries = ps.map entryOf) (hd : AssocList.Distinct ps)
    (id : Bytes) : ∃ m' r, removeEntry id m = some (m', r) ∧
      ∃ qs, m'.entries = qs.map entryOf ∧ AssocList.Distinct qs ∧
        AssocList.find qs = Function.update (AssocList.find ps) id none := by
  rw [removeEntry, hm, findSlot_map]
  cases hi : ps.findIdx? fun p => decide (p.1 = id) with
  | some i =>
    refine ⟨_, _, rfl, AssocList.erase id ps, eraseIdx_map hi, hd.erase id, ?_⟩
    funext k
    rw [AssocList.find_erase hd, Function.update_apply]
  | none =>
    refine ⟨_, _, rfl, ps, hm, hd, ?_⟩
    have hnone : AssocList.find ps id = none := by
      rw [← Option.not_isSome_iff_eq_none, find_isSome_iff, hi]
      simp
    rw [← hnone, Function.update_eq_self]

end Step

/-- A call that meets the condition keeps the map. -/
theorem IsMap.step {p : MemStore V × Bindings V} {c : Call V} (h : IsMap p) (hc : Replaces p c) :
    ∃ p', stepMeant p c = some p' ∧ IsMap p' := by
  obtain ⟨m, b⟩ := p
  obtain ⟨ps, hm, hd, rfl⟩ := h
  cases c with
  | insert id values content a =>
    cases id with
    | none => exact ⟨_, rfl, ps, hm, hd, rfl⟩
    | some id =>
      cases values with
      | none => exact ⟨_, rfl, ps, hm, hd, rfl⟩
      | some values =>
        obtain ⟨m', r, hstep, qs, hm', hd', hr⟩ :=
          insertEntry_keeps hm hd a id values (content.getD []) hc
        have hcall : VectorStore.step m (.insert (some id) (some values) content a) = some (m', r) :=
          hstep
        refine ⟨_, by rw [stepMeant, hcall, Option.map_some], qs, hm', hd', ?_⟩
        rcases hr with ⟨rfl, hfind⟩ | ⟨⟨e, rfl⟩, hfind⟩
        · exact hfind.symm
        · exact hfind.symm
  | remove id =>
    cases id with
    | none => exact ⟨_, rfl, ps, hm, hd, rfl⟩
    | some id =>
      obtain ⟨m', r, hstep, qs, hm', hd', hfind⟩ := removeEntry_keeps hm hd id
      have hcall : VectorStore.step m (.remove (some id)) = some (m', r) := hstep
      exact ⟨_, by rw [stepMeant, hcall, Option.map_some], qs, hm', hd', hfind.symm⟩

/-- A call that does not meet it leads out of the maps. -/
theorem IsMap.breaks {p p' : MemStore V × Bindings V} {c : Call V} (h : IsMap p)
    (hstep : stepMeant p c = some p') (hc : ¬ Replaces p c) : ¬ IsMap p' := by
  obtain ⟨m, b⟩ := p
  obtain ⟨ps, hm, hd, rfl⟩ := h
  cases c with
  | remove id => exact absurd trivial hc
  | insert id values content a =>
    cases id with
    | none => exact absurd trivial hc
    | some id =>
      cases values with
      | none => exact absurd trivial hc
      | some values =>
        obtain ⟨hbound, hfail⟩ := Classical.not_imp.mp hc
        obtain ⟨⟨m', r⟩, hcall, rfl⟩ := Option.map_eq_some_iff.mp hstep
        obtain ⟨e, he, hbroken⟩ := insertEntry_breaks hm hbound hfail hcall
        rintro ⟨qs, hm', -, -⟩
        simp only at hm'
        rw [hm'] at he
        obtain ⟨q, -, hq⟩ := List.mem_map.mp he
        exact hbroken q hq.symm

/-! ## Every run -/

/-- `sc_vector_store_mem_create`, with nothing bound. -/
def created : MemStore V × Bindings V := (⟨[], 0⟩, fun _ => none)

/-- In a run from an empty store, the store is the map that is meant after every call, if and only
if every insertion under a bound id gets the memory that it asks for. -/
theorem vector_store_map_iff (calls : List (Call V)) :
    Machine.Throughout stepMeant IsMap (created (V := V)) calls ↔
      Machine.EveryStep stepMeant Replaces created calls := by
  apply Machine.throughout_iff_everyStep_of_keeps (I := IsMap)
  · exact fun _ h => h
  · exact fun _ _ h hc => h.step hc
  · exact fun _ _ _ h hstep hc => h.breaks hstep hc
  · exact ⟨[], rfl, List.nodup_nil, rfl⟩

/-- All allocations succeed. -/
def plenty : Answers := ⟨true, true, true, true⟩

/-- The second insertion finds no memory for its embedding, and the content of the first one is
gone. -/
theorem vector_store_loses : ¬ Machine.Throughout stepMeant IsMap (created (V := ℕ))
    [.insert (some (ascii "a")) (some [1]) (some (ascii "x")) plenty,
      .insert (some (ascii "a")) (some [2]) (some (ascii "y")) { plenty with embedding := false }] := by
  rintro ⟨-, p, hp, hmap, q, hq, hmap'⟩
  obtain rfl := Option.some.inj hp
  refine hmap.breaks hq ?_ hmap'
  intro hreplaces
  exact absurd (hreplaces rfl).2.1 (by decide)

end SeaClaw.Memory.VectorStore
