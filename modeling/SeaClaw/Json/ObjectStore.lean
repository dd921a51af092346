import SeaClaw.Json.ClosedTexts
import SeaClaw.Lib.AssocList
import SeaClaw.Lib.CString

/-!
# Objects as maps

An object keeps its pairs in an array that grows by doubling. A binding takes the place of the
old one or goes to the end, and a removal moves the last pair into the gap. To those who look up
keys, an object is the map that its bindings and removals make, the members of its text first.
-/

namespace SeaClaw.Json

open Lib

/-- The fields of an object: its pairs and how many of them there is room for. -/
structure ObjectStore where
  pairs : List (Bytes × Value)
  cap : ℕ

/-- `new_cap`: the room after the next growth. -/
def newCap (cap : ℕ) : ℕ := if cap ≠ 0 then cap * 2 else 4

/-- The object of the parser's loop after one more member. -/
def ObjectStore.parsed (o : ObjectStore) (m : Bytes × Value) : ObjectStore :=
  if (AssocList.find o.pairs m.1).isSome then { o with pairs := AssocList.put m.1 m.2 o.pairs }
  else
    { pairs := o.pairs ++ [m]
      cap := if o.pairs.length ≥ o.cap then newCap o.cap else o.cap }

/-- The object of a text with these members. -/
def parsedObject (ms : List (Bytes × Value)) : ObjectStore := ms.foldl .parsed ⟨[], 0⟩

/-- Room for one more pair of 24 octets, where `grown` says whether memory is found. -/
def ObjectStore.reserve (o : ObjectStore) (grown : Bool) : Except ScError ObjectStore :=
  if o.pairs.length ≥ o.cap then
    if newCap o.cap > (2 ^ 64 - 1) / 24 then .error .outOfMemory
    else if grown then .ok { o with cap := newCap o.cap } else .error .outOfMemory
  else .ok o

/-- `sc_json_object_set`, where `copied` says whether memory for the key is found. -/
def scJsonObjectSet (grown copied : Bool) (o : ObjectStore) (key : CString) (val : Value) :
    Option ScError × ObjectStore :=
  if (AssocList.find o.pairs key.octets).isSome then
    (none, { o with pairs := AssocList.put key.octets val o.pairs })
  else
    match o.reserve grown with
    | .error e => (some e, o)
    | .ok o =>
      if copied then (none, { o with pairs := o.pairs ++ [(key.octets, val)] })
      else (some .outOfMemory, o)

/-- `sc_json_object_remove` -/
def scJsonObjectRemove (o : ObjectStore) (key : CString) : Bool × ObjectStore :=
  match AssocList.swapRemove key.octets o.pairs with
  | some ps => (true, { o with pairs := ps })
  | none => (false, o)

/-! ## Maps by their history -/

/-- A binding of a key, or the removal of its binding. -/
abbrev Change := Bytes × Option Value

/-- The last binding of the key that was not removed since. -/
def lastBinding (changes : List Change) (key : Bytes) : Option Value :=
  (changes.reverse.find? (·.1 = key)).bind (·.2)

@[simp] theorem lastBinding_nil (key : Bytes) : lastBinding [] key = none := rfl

theorem lastBinding_concat (changes : List Change) (change : Change) (key : Bytes) :
    lastBinding (changes ++ [change]) key =
      if key = change.1 then change.2 else lastBinding changes key := by
  rw [lastBinding, List.reverse_append, List.reverse_singleton, List.singleton_append,
    List.find?_cons]
  by_cases h : key = change.1
  · simp only [h, decide_true, if_true, Option.bind_some]
  · simp only [Ne.symm h, decide_false, if_neg h, lastBinding]

/-- The object is the map that the changes make, and its pairs are in their array. -/
structure ObjectStore.Represents (o : ObjectStore) (changes : List Change) : Prop where
  distinct : AssocList.Distinct o.pairs
  room : o.pairs.length ≤ o.cap
  find : ∀ key, AssocList.find o.pairs key = lastBinding changes key

section Changes

variable {o : ObjectStore} {changes : List Change}

theorem put_of_find_none {ps : List (Bytes × Value)} {key : Bytes}
    (h : AssocList.find ps key = none) (val : Value) :
    AssocList.put key val ps = ps ++ [(key, val)] := by
  induction ps with
  | nil => rfl
  | cons p ps ih =>
    rw [AssocList.find_cons] at h
    split_ifs at h with hp
    rw [AssocList.put, if_neg hp, ih h, List.cons_append]

theorem length_put_of_find {ps : List (Bytes × Value)} {key : Bytes}
    (h : (AssocList.find ps key).isSome) (val : Value) :
    (AssocList.put key val ps).length = ps.length := by
  induction ps with
  | nil => cases h
  | cons p ps ih =>
    rw [AssocList.find_cons] at h
    rw [AssocList.put]
    split_ifs at h ⊢ with hp
    · rfl
    · rw [List.length_cons, ih h, List.length_cons]

/-- A binding in the place of an old one or at the end, where there is room for it. -/
theorem ObjectStore.Represents.bind (h : o.Represents changes) {key : Bytes} {val : Value}
    {o' : ObjectStore} (hpairs : o'.pairs = AssocList.put key val o.pairs)
    (hroom : o'.pairs.length ≤ o'.cap) : o'.Represents (changes ++ [(key, some val)]) where
  distinct := by
    rw [hpairs]
    exact h.distinct.put key val
  room := hroom
  find key' := by rw [hpairs, AssocList.find_put, lastBinding_concat, h.find]

/-- More room changes nothing. -/
theorem ObjectStore.Represents.of_pairs (h : o.Represents changes) {o' : ObjectStore}
    (hpairs : o'.pairs = o.pairs) (hcap : o.cap ≤ o'.cap) : o'.Represents changes where
  distinct := by
    rw [hpairs]
    exact h.distinct
  room := by
    rw [hpairs]
    exact h.room.trans hcap
  find key := by rw [hpairs, h.find]

theorem lt_newCap (cap : ℕ) : cap < newCap cap := by
  rw [newCap]
  split_ifs <;> omega

/-- A growth leaves the pairs alone and makes room for one more. -/
theorem ObjectStore.reserve_spec {grown : Bool} {o' : ObjectStore}
    (h : o.reserve grown = .ok o') (hroom : o.pairs.length ≤ o.cap) :
    o'.pairs = o.pairs ∧ o.cap ≤ o'.cap ∧ o.pairs.length < o'.cap := by
  rw [reserve] at h
  have hlt := lt_newCap o.cap
  split_ifs at h with hfull hmax hgrown
  · cases h
    exact ⟨rfl, hlt.le, hroom.trans_lt hlt⟩
  · cases h
    exact ⟨rfl, le_rfl, by omega⟩

theorem ObjectStore.Represents.parsed (h : o.Represents changes) (m : Bytes × Value) :
    (o.parsed m).Represents (changes ++ [(m.1, some m.2)]) := by
  have hroom := h.room
  have hlt := lt_newCap o.cap
  by_cases hfind : (AssocList.find o.pairs m.1).isSome
  · rw [ObjectStore.parsed, if_pos hfind]
    apply h.bind rfl
    rw [length_put_of_find hfind]
    exact hroom
  · rw [ObjectStore.parsed, if_neg hfind]
    rw [Option.not_isSome_iff_eq_none] at hfind
    apply h.bind (put_of_find_none hfind m.2).symm
    rw [List.length_append, List.length_singleton]
    show o.pairs.length + 1 ≤ if o.pairs.length ≥ o.cap then newCap o.cap else o.cap
    split_ifs <;> omega

/-- The object of a text is the map of its members, the last one of a key first. -/
theorem parsedObject_represents (ms : List (Bytes × Value)) :
    (parsedObject ms).Represents (ms.map fun m => (m.1, some m.2)) := by
  induction ms using List.reverseRecOn with
  | nil => exact ⟨List.nodup_nil, le_rfl, fun key => rfl⟩
  | append_singleton ms m ih =>
    rw [parsedObject, List.foldl_append, List.map_append]
    exact ih.parsed m

/-- What a call of `sc_json_object_set` does: it binds the key, or it fails and binds nothing. -/
theorem ObjectStore.Represents.set (h : o.Represents changes) (grown copied : Bool)
    (key : CString) (val : Value) :
    (scJsonObjectSet grown copied o key val).2.Represents
      (if (scJsonObjectSet grown copied o key val).1 = none then
        changes ++ [(key.octets, some val)] else changes) := by
  by_cases hfind : (AssocList.find o.pairs key.octets).isSome
  · rw [scJsonObjectSet, if_pos hfind, if_pos rfl]
    apply h.bind rfl
    rw [length_put_of_find hfind]
    exact h.room
  · rw [scJsonObjectSet, if_neg hfind]
    rw [Option.not_isSome_iff_eq_none] at hfind
    cases hreserve : o.reserve grown with
    | error e => exact h
    | ok o' =>
      obtain ⟨hpairs, hcap, hroom⟩ := ObjectStore.reserve_spec hreserve h.room
      cases copied with
      | false => exact h.of_pairs hpairs hcap
      | true =>
        have hput : o'.pairs ++ [(key.octets, val)] = AssocList.put key.octets val o.pairs := by
          rw [put_of_find_none hfind, hpairs]
        apply h.bind hput
        show (o'.pairs ++ [(key.octets, val)]).length ≤ o'.cap
        rw [List.length_append, List.length_singleton, hpairs]
        exact hroom

/-- What a call of `sc_json_object_remove` does: the key is bound no more. -/
theorem ObjectStore.Represents.remove (h : o.Represents changes) (key : CString) :
    (scJsonObjectRemove o key).2.Represents (changes ++ [(key.octets, none)]) := by
  rw [scJsonObjectRemove]
  cases hremove : AssocList.swapRemove key.octets o.pairs with
  | none =>
    refine ⟨h.distinct, h.room, ?_⟩
    intro key'
    rw [lastBinding_concat, h.find]
    split_ifs with hkey
    · rw [hkey, ← h.find, AssocList.swapRemove_eq_none_iff.mp hremove]
    · rfl
  | some ps =>
    refine ⟨h.distinct.swapRemove hremove, ?_, ?_⟩
    · obtain ⟨v, hperm⟩ := AssocList.swapRemove_perm hremove
      have hlen := hperm.length_eq
      have hroom := h.room
      rw [List.length_cons] at hlen
      show ps.length ≤ o.cap
      omega
    · intro key'
      rw [lastBinding_concat, AssocList.find_swapRemove h.distinct hremove, h.find]

end Changes

/-! ## Runs -/

/-- A call on an object. -/
inductive ObjectCall where
  | set (key : CString) (val : Value) (grown copied : Bool)
  | remove (key : CString)

/-- The object after a call. -/
def ObjectCall.apply (o : ObjectStore) : ObjectCall → ObjectStore
  | .set key val grown copied => (scJsonObjectSet grown copied o key val).2
  | .remove key => (scJsonObjectRemove o key).2

/-- The change that a call makes, if it succeeds. -/
def ObjectCall.changes (o : ObjectStore) : ObjectCall → List Change
  | .set key val grown copied =>
    if (scJsonObjectSet grown copied o key val).1 = none then [(key.octets, some val)] else []
  | .remove key => [(key.octets, none)]

/-- The object after a sequence of calls. -/
def runCalls (o : ObjectStore) (calls : List ObjectCall) : ObjectStore :=
  calls.foldl ObjectCall.apply o

/-- The changes of a sequence of calls. -/
def changesOf : ObjectStore → List ObjectCall → List Change
  | _, [] => []
  | o, call :: calls => call.changes o ++ changesOf (call.apply o) calls

theorem ObjectStore.Represents.apply {o : ObjectStore} {changes : List Change}
    (h : o.Represents changes) (call : ObjectCall) :
    (call.apply o).Represents (changes ++ call.changes o) := by
  cases call with
  | set key val grown copied =>
    have hset := h.set grown copied key val
    rw [ObjectCall.changes]
    split_ifs at hset ⊢ with hok
    · exact hset
    · rw [List.append_nil]
      exact hset
  | remove key => exact h.remove key

theorem ObjectStore.Represents.run {o : ObjectStore} {changes : List Change}
    (h : o.Represents changes) (calls : List ObjectCall) :
    (runCalls o calls).Represents (changes ++ changesOf o calls) := by
  induction calls generalizing o changes with
  | nil =>
    rw [changesOf, List.append_nil]
    exact h
  | cons call calls ih =>
    rw [changesOf, ← List.append_assoc]
    exact ih (h.apply call)

/-! ## The objects of a text -/

/-- The object with these pairs is the value or is inside it. -/
inductive Occurs (pairs : List (Bytes × Value)) : Value → Prop where
  | here : Occurs pairs (.object pairs)
  | item {v : Value} {vs : List Value} (hmem : v ∈ vs) (h : Occurs pairs v) :
    Occurs pairs (.array vs)
  | member {key : Bytes} {v : Value} {ps : List (Bytes × Value)} (hmem : (key, v) ∈ ps)
    (h : Occurs pairs v) : Occurs pairs (.object ps)

/-- Somewhere in the slice there is the text of an object with these members. -/
def SpelledIn (t s : Bytes) (ms : List (Bytes × Value)) : Prop :=
  ∃ d u rest, ch '{' :: u <:+ s ∧ ReadsMembers t d u ms rest

theorem SpelledIn.of_suffix {t r s : Bytes} {ms : List (Bytes × Value)} (h : SpelledIn t r ms)
    (hr : r <:+ s) : SpelledIn t s ms := by
  obtain ⟨d, u, rest, hu, hm⟩ := h
  exact ⟨d, u, rest, hu.trans hr, hm⟩

theorem dropWs_suffix (s : Bytes) : dropWs s <:+ s := List.dropWhile_suffix _

theorem suffix_of_dropWs {s u : Bytes} {b : UInt8} (h : dropWs s = b :: u) : u <:+ s :=
  (List.suffix_cons b u).trans (h ▸ dropWs_suffix s)

theorem suffix_of_dropWs_append {s u word : Bytes} (h : dropWs s = word ++ u) : u <:+ s :=
  (List.suffix_append word u).trans (h ▸ dropWs_suffix s)

theorem stringLoop_suffix {u : Bytes} {buf : StrBuf} {str rest : Bytes}
    (h : stringLoop u buf = .closed str rest) : rest <:+ u := by
  fun_induction stringLoop u buf with
  | case1 => cases h
  | case2 buf s =>
    cases h
    exact List.suffix_cons _ _
  | case3 => cases h
  | case4 =>
    rename_i ih
    apply (ih h).trans
    exact ⟨[_, _, _, _, _, _], rfl⟩
  | case5 => cases h
  | case6 => cases h
  | case7 => cases h
  | case8 =>
    rename_i ih
    exact ((ih h).trans (List.suffix_cons _ _)).trans (List.suffix_cons _ _)
  | case9 => cases h
  | case10 => cases h
  | case11 b s buf hq he hc ih => exact (ih h).trans (List.suffix_cons _ _)

section Suffix

variable {t : Bytes}

mutual
/-- What a value leaves is the end of the slice. -/
theorem ReadsValue.suffix {d : ℕ} {s rest : Bytes} {v : Value} :
    ReadsValue t d s v rest → rest <:+ s
  | .string hs hl => (stringLoop_suffix hl).trans (suffix_of_dropWs hs)
  | .number hs _ _ _ _ => (List.drop_suffix _ _).trans (hs ▸ dropWs_suffix s)
  | .true hs => suffix_of_dropWs_append hs
  | .false hs => suffix_of_dropWs_append hs
  | .null hs => suffix_of_dropWs_append hs
  | .emptyArray hs _ hu => (suffix_of_dropWs hu).trans (suffix_of_dropWs hs)
  | .array hs _ _ hi => (hi.suffix.trans (dropWs_suffix _)).trans (suffix_of_dropWs hs)
  | .emptyObject hs _ hu => (suffix_of_dropWs hu).trans (suffix_of_dropWs hs)
  | .object hs _ _ hm => (hm.suffix.trans (dropWs_suffix _)).trans (suffix_of_dropWs hs)

theorem ReadsItems.suffix {d : ℕ} {s rest : Bytes} {vs : List Value} :
    ReadsItems t d s vs rest → rest <:+ s
  | .last hv hu => (suffix_of_dropWs hu).trans hv.suffix
  | .trailing hv hu hw => ((suffix_of_dropWs hw).trans (suffix_of_dropWs hu)).trans hv.suffix
  | .cons hv hu _ hvs =>
    ((hvs.suffix.trans (dropWs_suffix _)).trans (suffix_of_dropWs hu)).trans hv.suffix

theorem ReadsMembers.suffix {d : ℕ} {s rest : Bytes} {ms : List (Bytes × Value)} :
    ReadsMembers t d s ms rest → rest <:+ s
  | .close hs => suffix_of_dropWs hs
  | .last hs hk hr hv hx =>
    ((((suffix_of_dropWs hx).trans hv.suffix).trans (suffix_of_dropWs hr)).trans
      (stringLoop_suffix hk)).trans (suffix_of_dropWs hs)
  | .cons hs hk hr hv hx hms =>
    ((((hms.suffix.trans (suffix_of_dropWs hx)).trans hv.suffix).trans
      (suffix_of_dropWs hr)).trans (stringLoop_suffix hk)).trans (suffix_of_dropWs hs)
end

/-- White space in front of the members does not matter. -/
theorem ReadsMembers.of_dropWs {d : ℕ} {s rest : Bytes} {ms : List (Bytes × Value)}
    (h : ReadsMembers t d (dropWs s) ms rest) : ReadsMembers t d s ms rest := by
  cases h with
  | close hs => exact .close (by rw [← hs, dropWs_dropWs])
  | last hs hk hr hv hx => exact .last (by rw [← hs, dropWs_dropWs]) hk hr hv hx
  | cons hs hk hr hv hx hms => exact .cons (by rw [← hs, dropWs_dropWs]) hk hr hv hx hms

theorem mem_putPair {p : Bytes × Value} {key : Bytes} {v : Value} {ps : List (Bytes × Value)}
    (h : p ∈ putPair key v ps) : p = (key, v) ∨ p ∈ ps := by
  induction ps with
  | nil =>
    rw [putPair, List.mem_singleton] at h
    exact Or.inl h
  | cons q ps ih =>
    rw [putPair] at h
    split_ifs at h with hq
    · rw [List.mem_cons] at h ⊢
      tauto
    · rw [List.mem_cons] at h ⊢
      tauto

theorem mem_storePairs {p : Bytes × Value} {ps ms : List (Bytes × Value)}
    (h : p ∈ storePairs ps ms) : p ∈ ps ∨ p ∈ ms := by
  induction ms generalizing ps with
  | nil => exact Or.inl h
  | cons m ms ih =>
    rcases ih h with hput | hms
    · rcases mem_putPair hput with rfl | hps
      · exact Or.inr List.mem_cons_self
      · exact Or.inl hps
    · exact Or.inr (List.mem_cons_of_mem m hms)

/-- In the slice there is the text of the object with these pairs. -/
def PairsSpelledIn (t s : Bytes) (pairs : List (Bytes × Value)) : Prop :=
  ∃ ms, SpelledIn t s ms ∧ storePairs [] ms = pairs

theorem PairsSpelledIn.of_suffix {r s : Bytes} {pairs : List (Bytes × Value)}
    (h : PairsSpelledIn t r pairs) (hr : r <:+ s) : PairsSpelledIn t s pairs := by
  obtain ⟨ms, hms, hpairs⟩ := h
  exact ⟨ms, hms.of_suffix hr, hpairs⟩

variable (pairs : List (Bytes × Value))

mutual
/-- An object inside a value is spelled inside the text of the value. -/
theorem ReadsValue.occurs {d : ℕ} {s rest : Bytes} {v : Value} :
    ReadsValue t d s v rest → Occurs pairs v → PairsSpelledIn t s pairs
  | .array hs hd hu hi => by
    have hitems := hi.occurs
    intro ho
    cases ho with
    | item hmem ho =>
      exact (hitems _ hmem ho).of_suffix ((dropWs_suffix _).trans (suffix_of_dropWs hs))
  | .emptyArray hs hd hu => by
    intro ho
    cases ho with
    | item hmem ho => exact absurd hmem List.not_mem_nil
  | .emptyObject hs hd hu => by
    intro ho
    cases ho with
    | here => exact ⟨[], ⟨d, _, _, hs ▸ dropWs_suffix s, .close hu⟩, rfl⟩
    | member hmem ho => exact absurd hmem List.not_mem_nil
  | .object hs hd hu hm => by
    have hmembers := hm.occurs
    intro ho
    cases ho with
    | here => exact ⟨_, ⟨_, _, _, hs ▸ dropWs_suffix s, hm.of_dropWs⟩, rfl⟩
    | member hmem ho =>
      have hms := (mem_storePairs hmem).resolve_left List.not_mem_nil
      exact (hmembers _ hms ho).of_suffix ((dropWs_suffix _).trans (suffix_of_dropWs hs))
  | .string _ _ => fun ho => by cases ho
  | .number _ _ _ _ _ => fun ho => by cases ho
  | .true _ => fun ho => by cases ho
  | .false _ => fun ho => by cases ho
  | .null _ => fun ho => by cases ho

theorem ReadsItems.occurs {d : ℕ} {s rest : Bytes} {vs : List Value} :
    ReadsItems t d s vs rest → ∀ v ∈ vs, Occurs pairs v → PairsSpelledIn t s pairs
  | .last hv hu => by
    have hvalue := hv.occurs
    intro w hmem ho
    rw [List.mem_singleton.mp hmem] at ho
    exact hvalue ho
  | .trailing hv hu hw => by
    have hvalue := hv.occurs
    intro w hmem ho
    rw [List.mem_singleton.mp hmem] at ho
    exact hvalue ho
  | .cons hv hu _ hvs => by
    have hvalue := hv.occurs
    have hitems := hvs.occurs
    intro w hmem ho
    rcases List.mem_cons.mp hmem with heq | hmem
    · rw [heq] at ho
      exact hvalue ho
    · exact (hitems w hmem ho).of_suffix
        (((dropWs_suffix _).trans (suffix_of_dropWs hu)).trans hv.suffix)

theorem ReadsMembers.occurs {d : ℕ} {s rest : Bytes} {ms : List (Bytes × Value)} :
    ReadsMembers t d s ms rest → ∀ m ∈ ms, Occurs pairs m.2 → PairsSpelledIn t s pairs
  | .close hs => fun m hmem => absurd hmem List.not_mem_nil
  | .last hs hk hr hv hx => by
    have hvalue := hv.occurs
    intro m hmem ho
    rw [List.mem_singleton.mp hmem] at ho
    exact (hvalue ho).of_suffix
      (((suffix_of_dropWs hr).trans (stringLoop_suffix hk)).trans (suffix_of_dropWs hs))
  | .cons hs hk hr hv hx hms => by
    have hvalue := hv.occurs
    have hmembers := hms.occurs
    have hsuffix :=
      ((suffix_of_dropWs hr).trans (stringLoop_suffix hk)).trans (suffix_of_dropWs hs)
    intro m hmem ho
    rcases List.mem_cons.mp hmem with heq | hmem
    · rw [heq] at ho
      exact (hvalue ho).of_suffix hsuffix
    · exact (hmembers m hmem ho).of_suffix
        (((suffix_of_dropWs hx).trans hv.suffix).trans hsuffix)
end

end Suffix

theorem putPair_eq_put (key : Bytes) (v : Value) (ps : List (Bytes × Value)) :
    putPair key v ps = AssocList.put key v ps := by
  induction ps with
  | nil => rfl
  | cons p ps ih => rw [putPair, AssocList.put, ih]

theorem parsed_pairs (o : ObjectStore) (m : Bytes × Value) :
    (o.parsed m).pairs = putPair m.1 m.2 o.pairs := by
  rw [putPair_eq_put, ObjectStore.parsed]
  by_cases hfind : (AssocList.find o.pairs m.1).isSome
  · rw [if_pos hfind]
  · rw [if_neg hfind]
    rw [Option.not_isSome_iff_eq_none] at hfind
    exact (put_of_find_none hfind m.2).symm

/-- The loop of the parser stores the members in the array as it stores them in the value. -/
theorem parsedObject_pairs (ms : List (Bytes × Value)) :
    (parsedObject ms).pairs = storePairs [] ms := by
  induction ms using List.reverseRecOn with
  | nil => rfl
  | append_singleton ms m ih =>
    rw [parsedObject, List.foldl_append, storePairs, List.foldl_append]
    rw [parsedObject, storePairs] at ih
    simp only [List.foldl_cons, List.foldl_nil, parsed_pairs, ih]

theorem get_eq_find (ps : List (Bytes × Value)) (key : Bytes) :
    scJsonObjectGet (.object ps) key = AssocList.find ps key := rfl

/-- Every object of a text that is parsed, and what a sequence of calls makes of it: distinct
keys, no more pairs than there is room for, and under each key the last binding by the members of
its text or by a call that was not removed since. -/
theorem object_is_map {s t : Bytes} {v : Value} {c : Cursor} (h : scJsonParse s t = .ok v c)
    {pairs : List (Bytes × Value)} (hoccurs : Occurs pairs v) :
    ∃ ms, SpelledIn t s ms ∧ (parsedObject ms).pairs = pairs ∧ ∀ calls,
      ((runCalls (parsedObject ms) calls).pairs.map Prod.fst).Nodup ∧
      (runCalls (parsedObject ms) calls).pairs.length ≤ (runCalls (parsedObject ms) calls).cap ∧
      ∀ key : CString,
        scJsonObjectGet (.object (runCalls (parsedObject ms) calls).pairs) key.octets =
          lastBinding ((ms.map fun m => (m.1, some m.2)) ++ changesOf (parsedObject ms) calls)
            key.octets := by
  rcases reads_or_number h with ⟨rest, hread⟩ | ⟨x, rfl⟩
  · obtain ⟨ms, hspelled, hpairs⟩ := hread.occurs pairs hoccurs
    refine ⟨ms, hspelled, ?_, ?_⟩
    · rw [parsedObject_pairs, hpairs]
    · intro calls
      have hrun := (parsedObject_represents ms).run calls
      refine ⟨hrun.distinct, hrun.room, ?_⟩
      intro key
      rw [get_eq_find, hrun.find]
  · cases hoccurs

/-- A key that the text gives twice, with the white space that a text may have. -/
def repeatedKey : Bytes := ascii "\x7b\"a\": true, \"a\": false\x7d"

theorem reads_repeatedKey :
    ReadsValue [] 0 repeatedKey (.object [(ascii "a", .bool false)]) [] := by
  have hfirst : stringLoop (ascii "a\": true, \"a\": false\x7d") StrBuf.empty =
      .closed (ascii "a") (ascii ": true, \"a\": false\x7d") := by decide +kernel
  have hsecond : stringLoop (ascii "a\": false\x7d") StrBuf.empty =
      .closed (ascii "a") (ascii ": false\x7d") := by decide +kernel
  have hfalse : ReadsValue [] 1 (ascii " false\x7d") (.bool false) (ascii "\x7d") :=
    .false (show dropWs (ascii " false\x7d") = ascii "false" ++ ascii "\x7d" by decide)
  have htrue : ReadsValue [] 1 (ascii " true, \"a\": false\x7d") (.bool true)
      (ascii ", \"a\": false\x7d") :=
    .true (show dropWs (ascii " true, \"a\": false\x7d") =
      ascii "true" ++ ascii ", \"a\": false\x7d" by decide)
  have hlast : ReadsMembers [] 1 (ascii " \"a\": false\x7d") [(ascii "a", .bool false)] [] :=
    .last (by decide) hsecond (by decide) hfalse (by decide)
  have hmembers : ReadsMembers [] 1 (ascii "\"a\": true, \"a\": false\x7d")
      [(ascii "a", .bool true), (ascii "a", .bool false)] [] :=
    .cons (by decide) hfirst (by decide) htrue (by decide) hlast
  have hopen : dropWs repeatedKey = ch '\x7b' :: ascii "\"a\": true, \"a\": false\x7d" := by
    decide
  exact .object hopen (by decide) (by decide) hmembers

theorem object_is_map_repeated :
    ∃ ms, SpelledIn [] repeatedKey ms ∧
      (parsedObject ms).pairs = [(ascii "a", .bool false)] ∧ ∀ calls,
      ((runCalls (parsedObject ms) calls).pairs.map Prod.fst).Nodup ∧
      (runCalls (parsedObject ms) calls).pairs.length ≤ (runCalls (parsedObject ms) calls).cap ∧
      ∀ key : CString,
        scJsonObjectGet (.object (runCalls (parsedObject ms) calls).pairs) key.octets =
          lastBinding ((ms.map fun m => (m.1, some m.2)) ++ changesOf (parsedObject ms) calls)
            key.octets :=
  object_is_map (reads_repeatedKey.parse _ le_rfl) .here

end SeaClaw.Json
