import SeaClaw.Json.RoundTrip
import SeaClaw.Lib.AssocList
import SeaClaw.Memory.LruRuns

/-!
# Snapshots of the memory

`memory/lifecycle/snapshot.c`. The entries of an engine are written to a file as one JSON array and
stored again from it. Memory is there, and what is asked of the file system succeeds.
-/

namespace SeaClaw.Memory

open SeaClaw.Lib SeaClaw.Lib.LinkedList SeaClaw.Lib.Lru SeaClaw.Json

/-! ## The code -/

/-- A string that is there is a member of the object of its entry. -/
def setString (key : String) (s : Option Bytes) (pairs : List (Bytes × Value)) :
    List (Bytes × Value) :=
  match s with
  | some s => putPair (ascii key) (.string s) pairs
  | none => pairs

/-- One round of the loop of `sc_memory_snapshot_export`. A listed category has a name in memory
that was written to only where it is a custom one; nothing is known of what is read elsewhere. -/
def exportEntry (e : MemoryEntry Bytes) : Option Value :=
  e.category.name.map fun name =>
    .object (setString "session_id" (e.sessionId.filter (· ≠ []))
      (setString "category" (some name)
        (setString "timestamp" e.timestamp
          (setString "content" e.content
            (setString "key" e.key [])))))

/-- `sc_memory_snapshot_export`: the file, from what the engine lists. -/
def scMemorySnapshotExport (listed : Option (List (MemoryEntry Bytes))) : Option Bytes :=
  listed.bind fun es => (es.mapM exportEntry).map fun items => scJsonStringify (.array items)

/-- What an item of the array gives to store: a key, a content, a category and a session. -/
def importItem (item : Value) : Option (Bytes × Bytes × MemoryCategory Bytes × Option Bytes) :=
  match scJsonGetString item (ascii "key"), scJsonGetString item (ascii "content") with
  | some key, some content =>
    let category : MemoryCategory Bytes :=
      match scJsonGetString item (ascii "category") with
      | some name => if name.length > 0 then ⟨.custom, some name⟩ else ⟨.core, none⟩
      | none => ⟨.core, none⟩
    some (key, content, category, scJsonGetString item (ascii "session_id"))
  | _, _ => none

/-- The loop of `sc_memory_snapshot_import`, at the readings of the clock. -/
def importLoop (now : ℕ → ℤ) : ℕ → List Value → LruMemory → Option LruMemory
  | _, [], mem => some mem
  | i, item :: items, mem =>
    match importItem item with
    | none => importLoop now (i + 1) items mem
    | some (key, content, category, sessionId) =>
      (implStore mem key content (some category) sessionId (now i)).bind
        (importLoop now (i + 1) items)

/-- The longest file that is read. -/
def snapshotFileMax : ℕ := 1024 * 1024 * 64

/-- `sc_memory_snapshot_import`; `none` is what the C code does not define. -/
def scMemorySnapshotImport (now : ℕ → ℤ) (file : Bytes) (mem : LruMemory) :
    Option (Except ScError Unit × LruMemory) :=
  if file.length ≤ 0 ∨ file.length > snapshotFileMax then some (.error .io, mem)
  else
    match scJsonParse file [0] with
    | .ok (.array items) _ => (importLoop now 0 items mem).map fun mem => (.ok (), mem)
    | .ok _ _ => some (.error .jsonParse, mem)
    | .err e _ => some (.error e, mem)
    | .overread _ => none
    | .outOfFuel => none

/-! ## What an entry becomes -/

/-- The members of an entry with all of its strings. -/
def membersOf (key content timestamp name : Bytes) (sessionId : Option Bytes) :
    List (Bytes × Value) :=
  [(ascii "key", .string key), (ascii "content", .string content),
    (ascii "timestamp", .string timestamp), (ascii "category", .string name)] ++
      ((sessionId.filter (· ≠ [])).map fun s => (ascii "session_id", Value.string s)).toList

/-- An entry of the engine whose category has a name is exported with all of its strings. -/
theorem exportEntry_shown {e : LruEntry} {name : Bytes} (hname : (shown e).category.name = some name) :
    exportEntry (shown e) = some (.object (membersOf e.key.octets e.content.octets
      e.updatedAt.octets name (e.sessionId.map (·.octets)))) := by
  rw [exportEntry, hname, Option.map_some]
  congr 2
  simp only [shown, membersOf, setString]
  cases h : (e.sessionId.map (·.octets)).filter (· ≠ []) with
  | none => rfl
  | some s => rfl

theorem nodup_memberNames : ([ascii "key", ascii "content", ascii "timestamp", ascii "category"] ++
    [ascii "session_id"]).Nodup := by decide

theorem distinct_membersOf (key content timestamp name : Bytes) (sessionId : Option Bytes) :
    AssocList.Distinct (membersOf key content timestamp name sessionId) := by
  rw [AssocList.Distinct, membersOf]
  cases sessionId.filter (· ≠ []) with
  | none => exact nodup_memberNames.sublist (List.sublist_append_left _ [ascii "session_id"])
  | some s => exact nodup_memberNames

/-- The values of a snapshot come back from its text. -/
theorem plain_membersOf (key content timestamp name : Bytes) (sessionId : Option Bytes) :
    Value.Plain (.object (membersOf key content timestamp name sessionId)) := by
  refine ⟨distinct_membersOf key content timestamp name sessionId, ?_⟩
  rw [membersOf]
  cases sessionId.filter (· ≠ []) with
  | none => exact ⟨trivial, trivial, trivial, trivial, trivial⟩
  | some s => exact ⟨trivial, trivial, trivial, trivial, trivial, trivial⟩

/-- A text without NUL is read from an object as it is. -/
theorem scJsonGetString_of_mem {pairs : List (Bytes × Value)} {k s : Bytes}
    (hdistinct : AssocList.Distinct pairs) (hmem : (k, .string s) ∈ pairs) (hs : 0 ∉ s) :
    scJsonGetString (.object pairs) k = some s := by
  have hfind : scJsonObjectGet (.object pairs) k = some (.string s) :=
    (AssocList.find_eq_some_iff hdistinct).mpr hmem
  have hkeep : cString s = s := by
    rw [cString, List.takeWhile_eq_self_iff]
    intro b hb
    exact decide_eq_true fun hzero => hs (hzero ▸ hb)
  rw [scJsonGetString, hfind]
  dsimp only
  rw [hkeep]

/-- What is read back from the members of an entry. -/
theorem importItem_membersOf {key content timestamp name : Bytes} {sessionId : Option Bytes}
    (hkey : 0 ∉ key) (hcontent : 0 ∉ content) (hname : 0 ∉ name)
    (hsession : ∀ s ∈ sessionId, 0 ∉ s) :
    importItem (.object (membersOf key content timestamp name sessionId)) =
      some (key, content, if name.length > 0 then ⟨.custom, some name⟩ else ⟨.core, none⟩,
        sessionId.filter (· ≠ [])) := by
  have hdistinct := distinct_membersOf key content timestamp name sessionId
  have hget : scJsonGetString (.object (membersOf key content timestamp name sessionId))
      (ascii "session_id") = sessionId.filter (· ≠ []) := by
    cases h : sessionId.filter (· ≠ []) with
    | none =>
      have hnone : scJsonObjectGet (.object (membersOf key content timestamp name sessionId))
          (ascii "session_id") = none := by
        apply AssocList.find_eq_none_iff.mpr
        rw [membersOf, h]
        have hnodup := List.nodup_append.mp nodup_memberNames
        intro hmem
        exact hnodup.2.2 _ hmem _ (List.mem_singleton_self _) rfl
      rw [scJsonGetString, hnone]
    | some s =>
      apply scJsonGetString_of_mem hdistinct
      · rw [membersOf, h]
        exact List.mem_append_right _ (List.mem_singleton_self _)
      · exact hsession s (Option.mem_def.mpr (Option.filter_eq_some_iff.mp h).1)
  rw [importItem, scJsonGetString_of_mem hdistinct (by simp [membersOf]) hkey,
    scJsonGetString_of_mem hdistinct (by simp [membersOf]) hcontent, hget]
  dsimp only
  rw [scJsonGetString_of_mem hdistinct (by simp [membersOf]) hname]

/-!
# Which entries a snapshot restores

The entries of an engine are stored one after the other in an empty engine with room for them. What
each of them becomes is decided by its category: only a custom one with a name is written.
-/

/-- What a snapshot is to keep of an entry. -/
def keptParts (v : MemoryEntry Bytes) : Option Bytes × Option Bytes × MemoryCategory Bytes :=
  (v.content, v.sessionId, v.category)

/-- A snapshot of the engine restores every key in an empty engine, and no other. -/
def SnapshotRestores (now : ℕ → ℤ) (maxEntries : ℕ) (mem : LruMemory) : Prop :=
  ∃ file mem', scMemorySnapshotExport (implList mem none none) = some file ∧
    scMemorySnapshotImport now file (scMemoryLruCreate maxEntries) = some (.ok (), mem') ∧
    ∀ key : CString, ∃ v v', (implGet mem key.octets).map Prod.snd = some v ∧
      (implGet mem' key.octets).map Prod.snd = some v' ∧ v'.map keptParts = v.map keptParts

/-! ## The stores of an import -/

/-- The name that is written for the category of an entry. -/
def nameOf (e : LruEntry) : Bytes := ((shown e).category.name).getD []

/-- The value that is written for an entry. -/
def itemOf (e : LruEntry) : Value :=
  .object (membersOf e.key.octets e.content.octets e.updatedAt.octets (nameOf e)
    (e.sessionId.map (·.octets)))

/-- The category that is stored for an entry. -/
def importedCategory (e : LruEntry) : MemoryCategory Bytes :=
  if (nameOf e).length > 0 then ⟨.custom, some (nameOf e)⟩ else ⟨.core, none⟩

/-- The entry that an import stores. -/
def importedEntry (now : ℤ) (e : LruEntry) : MemoryEntry Bytes :=
  stored e.key e.content (some (importedCategory e))
    ((e.sessionId.map (·.octets)).filter (· ≠ [])) now

/-- An engine that holds what an import stored for some entries, and has room for more. -/
structure Imported (now : ℕ → ℤ) (maxEntries : ℕ) (es : List LruEntry) (s : LruRun) : Prop where
  sound : ∃ l fs, Represents s l fs
  size : s.mem.maxEntries = maxEntries
  value : ∀ k v, s.uses.value k = some v ↔
    ∃ i e, es[i]? = some e ∧ e.key = k ∧ v = importedEntry (now i) e
  time : s.uses.time = es.length
  used : ∀ k, s.uses.used k ≤ es.length

theorem imported_create (now : ℕ → ℤ) (maxEntries : ℕ) :
    Imported now maxEntries [] ⟨scMemoryLruCreate maxEntries, Uses.empty⟩ := by
  refine ⟨⟨[], [], represents_create maxEntries⟩, rfl, ?_, rfl, fun k => le_rfl⟩
  intro k v
  simp [Uses.empty]

/-- The keys that are held are those of the entries. -/
theorem Imported.held {now : ℕ → ℤ} {maxEntries : ℕ} {es : List LruEntry} {s : LruRun}
    (h : Imported now maxEntries es s) (k : CString) :
    k ∈ s.uses.held ↔ k ∈ es.map LruEntry.key := by
  simp only [Uses.held, Set.mem_ofPred_eq, h.value, List.mem_map]
  constructor
  · rintro ⟨v, i, e, hi, hkey, -⟩
    exact ⟨e, List.mem_of_getElem? hi, hkey⟩
  · rintro ⟨e, he, hkey⟩
    obtain ⟨i, hi⟩ := List.mem_iff_getElem?.mp he
    exact ⟨_, i, e, hi, hkey, rfl⟩

theorem getElem?_concat_eq_some {es : List LruEntry} {e f : LruEntry} {i : ℕ} :
    (es ++ [e])[i]? = some f ↔ es[i]? = some f ∨ i = es.length ∧ e = f := by
  rcases Nat.lt_trichotomy i es.length with hi | rfl | hi
  · rw [List.getElem?_append_left hi]
    simp [hi.ne]
  · simp
  · rw [List.getElem?_eq_none (by simpa using hi), List.getElem?_eq_none hi.le]
    simp [hi.ne']

/-- One more entry is stored. -/
theorem Imported.store {now : ℕ → ℤ} {maxEntries : ℕ} {es : List LruEntry} {s : LruRun}
    (h : Imported now maxEntries es s) (hlt : maxEntries < 2 ^ 64) (hroom : es.length < maxEntries)
    {e : LruEntry} (hkeys : ((es ++ [e]).map LruEntry.key).Nodup) :
    ∃ s', implStore s.mem e.key.octets e.content.octets (some (importedCategory e))
        ((e.sessionId.map (·.octets)).filter (· ≠ [])) (now es.length) = some s'.mem ∧
      Imported now maxEntries (es ++ [e]) s' := by
  obtain ⟨l, fs, hrep⟩ := h.sound
  rw [List.map_append, List.map_singleton, List.nodup_append] at hkeys
  have hnew : e.key ∉ es.map LruEntry.key := fun hmem =>
    hkeys.2.2 _ hmem _ (List.mem_singleton_self _) rfl
  have hkey : e.key ∉ s.uses.held := fun hheld => hnew ((h.held _).mp hheld)
  have hcard : s.uses.held.ncard = es.length := by
    have hset : s.uses.held = ↑(es.map LruEntry.key).toFinset := by
      ext k
      rw [h.held, Finset.mem_coe, List.mem_toFinset]
    rw [hset, Set.ncard_coe_finset, List.toFinset_card_of_nodup hkeys.1, List.length_map]
  have hstay : ∀ x, ¬ s.uses.Evicts s.mem.maxEntries e.key x := by
    rintro x ⟨-, hfull, -⟩
    rw [hcard, h.size] at hfull
    omega
  have habove : NumbersAbove s e.key := by
    intro x _ _ _
    have hused := h.used x
    rw [h.time, Nat.mod_eq_of_lt (by omega), Nat.mod_eq_of_lt (by omega)]
    omega
  obtain ⟨mem', l', fs', hstore, hmax, hrep'⟩ := hrep.store_new hkey (by rw [h.size]; omega)
    (by rw [h.size]; exact hlt) (importedCategory e) habove e.content
    ((e.sessionId.map (·.octets)).filter (· ≠ [])) (now es.length)
  refine ⟨_, hstore, ⟨l', fs', hrep'⟩, hmax.trans h.size, ?_, ?_, ?_⟩
  · intro k v
    have hput : (s.uses.put s.mem.maxEntries e.key (importedEntry (now es.length) e)).value k =
        if k = e.key then some (importedEntry (now es.length) e) else s.uses.value k := by
      simp only [Uses.put, if_neg (hstay k)]
    dsimp only
    rw [← importedEntry, hput]
    by_cases hk : k = e.key
    · rw [if_pos hk]
      constructor
      · rintro hv
        exact ⟨es.length, e, getElem?_concat_eq_some.mpr (Or.inr ⟨rfl, rfl⟩), hk.symm,
          (Option.some.inj hv).symm⟩
      · rintro ⟨i, f, hi, hfk, rfl⟩
        rcases getElem?_concat_eq_some.mp hi with hi | ⟨rfl, rfl⟩
        · exact absurd (List.mem_map_of_mem (List.mem_of_getElem? hi)) (hfk.trans hk ▸ hnew)
        · rfl
    · rw [if_neg hk, h.value]
      constructor
      · rintro ⟨i, f, hi, hfk, hv⟩
        exact ⟨i, f, getElem?_concat_eq_some.mpr (Or.inl hi), hfk, hv⟩
      · rintro ⟨i, f, hi, hfk, hv⟩
        rcases getElem?_concat_eq_some.mp hi with hi | ⟨-, rfl⟩
        · exact ⟨i, f, hi, hfk, hv⟩
        · exact absurd hfk.symm hk
  · rw [List.length_append, List.length_singleton, ← h.time]
    rfl
  · intro k
    rw [List.length_append, List.length_singleton]
    by_cases hk : k = e.key
    · have hupdate : (s.uses.put s.mem.maxEntries e.key (importedEntry (now es.length) e)).used k =
          s.uses.time + 1 := by
        rw [hk]
        exact Function.update_self _ _ _
      exact (hupdate.trans (congrArg (· + 1) h.time)).le
    · have hupdate : (s.uses.put s.mem.maxEntries e.key (importedEntry (now es.length) e)).used k =
          s.uses.used k := Function.update_of_ne hk _ _
      exact hupdate.le.trans ((h.used k).trans (Nat.le_succ _))

/-- The loop over the items of some entries stores each of them. -/
theorem Imported.loop {now : ℕ → ℤ} {maxEntries : ℕ} {done es : List LruEntry} {s : LruRun}
    (h : Imported now maxEntries done s) (hlt : maxEntries < 2 ^ 64)
    (hroom : done.length + es.length ≤ maxEntries)
    (hkeys : ((done ++ es).map LruEntry.key).Nodup) (hnames : ∀ e ∈ es, 0 ∉ nameOf e) :
    ∃ s', importLoop now done.length (es.map itemOf) s.mem = some s'.mem ∧
      Imported now maxEntries (done ++ es) s' := by
  induction es generalizing done s with
  | nil =>
    rw [List.append_nil]
    exact ⟨s, rfl, h⟩
  | cons e es ih =>
    rw [List.length_cons] at hroom
    rw [List.forall_mem_cons] at hnames
    rw [← List.singleton_append, ← List.append_assoc] at hkeys
    obtain ⟨s₁, hstore, h₁⟩ := h.store hlt (by omega)
      (hkeys.sublist ((List.sublist_append_left _ _).map _))
    obtain ⟨s', hloop, h'⟩ := ih h₁ (by rw [List.length_append, List.length_singleton]; omega)
      hkeys hnames.2
    refine ⟨s', ?_, by rwa [List.append_assoc] at h'⟩
    have hsession : ∀ x ∈ e.sessionId.map (·.octets), 0 ∉ x := by
      intro x hx
      obtain ⟨c, -, rfl⟩ := Option.map_eq_some_iff.mp hx
      exact c.noNul
    rw [List.map_cons, importLoop, itemOf,
      importItem_membersOf e.key.noNul e.content.noNul hnames.1 hsession]
    rw [List.length_append, List.length_singleton] at hloop
    dsimp only
    rw [← importedCategory, hstore, Option.bind_some, hloop]

/-! ## The file -/

section Snapshot

variable {s : LruRun} {l : List ℕ} {es : List LruEntry}

/-- A listing without a filter has every entry. -/
theorem Represents.implList_all (h : Represents s l es) :
    Memory.implList s.mem none none = some (es.map shown) := by
  obtain ⟨ns, hns, rfl⟩ := h.linked.nodes
  have hcollect : collect LruEntry.lruNext s.mem.next s.mem.heap s.mem.lruHead = some ns := by
    obtain ⟨ns', hread, hns'⟩ := h.linked.doubly.forward.collect h.linked.length_le_next
    rwa [(List.map_injective_iff.mpr (Option.some_injective _)) (hns.symm.trans hns')]
  have hentry : ∀ n ∈ ns, listEntry none none n = some [shown n] := by
    intro n hn
    rw [listEntry, categoryMatches, Option.bind_some, h.entryOut_eq (List.mem_map_of_mem hn)]
    rfl
  rw [Memory.implList, hcollect, Option.bind_some, mapM_eq_some hentry, Option.map_some, List.map_map]
  congr 1
  clear hcollect hentry hns h
  induction ns with
  | nil => rfl
  | cons n ns ih => rw [List.map_cons, List.flatten_cons, ih, List.map_cons]; rfl

/-- A list is written only where the name of every category was. -/
theorem names_of_export {vs : List (MemoryEntry Bytes)} {items : List Value}
    (h : vs.mapM exportEntry = some items) : ∀ v ∈ vs, ∃ name, v.category.name = some name := by
  induction vs generalizing items with
  | nil => exact fun v hv => absurd hv List.not_mem_nil
  | cons v vs ih =>
    rw [List.mapM_cons] at h
    obtain ⟨item, hitem, hrest⟩ := Option.bind_eq_some_iff.mp h
    obtain ⟨items', hitems, -⟩ := Option.bind_eq_some_iff.mp hrest
    obtain ⟨name, hname, -⟩ := Option.map_eq_some_iff.mp hitem
    exact List.forall_mem_cons.mpr ⟨⟨name, hname⟩, ih hitems⟩

theorem plainItems_itemOf (es : List LruEntry) : PlainItems (es.map itemOf) := by
  induction es with
  | nil => exact trivial
  | cons e es ih => exact ⟨plain_membersOf _ _ _ _ _, ih⟩

theorem itemsDepth_itemOf (es : List LruEntry) : itemsDepth (es.map itemOf) ≤ 1 := by
  induction es with
  | nil => exact Nat.zero_le 1
  | cons e es ih =>
    have hitem : (itemOf e).depth ≤ 1 := by
      rw [itemOf, membersOf]
      cases (e.sessionId.map (·.octets)).filter (· ≠ []) with
      | none => exact le_rfl
      | some s => exact le_rfl
    exact max_le hitem ih

/-- Entries with names are written and stored again. -/
theorem Represents.snapshot (h : Represents s l es)
    (hnamed : ∀ e ∈ es, (shown e).category.name = some (nameOf e))
    (hnames : ∀ e ∈ es, 0 ∉ nameOf e) (now : ℕ → ℤ) {cap : ℕ} (hcap : s.mem.count ≤ cap)
    (hlt : cap < 2 ^ 64)
    (hfile : ∀ file, scMemorySnapshotExport (Memory.implList s.mem none none) = some file →
      file.length ≤ snapshotFileMax) :
    ∃ file s', scMemorySnapshotExport (Memory.implList s.mem none none) = some file ∧
      scMemorySnapshotImport now file (scMemoryLruCreate cap) = some (.ok (), s'.mem) ∧
      Imported now cap es s' := by
  have hexport : scMemorySnapshotExport (Memory.implList s.mem none none) =
      some (scJsonStringify (.array (es.map itemOf))) := by
    have hitems : (es.map shown).mapM exportEntry = some (es.map itemOf) := by
      rw [List.mapM_map]
      exact mapM_eq_some fun e he => exportEntry_shown (hnamed e he)
    rw [h.implList_all, scMemorySnapshotExport, Option.bind_some, hitems, Option.map_some]
  have hroom : es.length ≤ cap := by
    rw [← h.linked.length_eq, ← h.count]
    exact hcap
  obtain ⟨s', hloop, himported⟩ := (imported_create now cap).loop hlt
    (by rw [List.length_nil, Nat.zero_add]; exact hroom) h.linked.distinct hnames
  refine ⟨_, s', hexport, ?_, himported⟩
  have hparse : scJsonParse (scJsonStringify (.array (es.map itemOf))) [0] =
      .ok (.array (es.map itemOf)) ⟨[], [0], 0, 0⟩ := by
    refine scJsonParse_of_follows ?_ ?_ (follows_cons (by decide) [])
    · rw [Value.Plain]
      exact plainItems_itemOf es
    · have hdepth := itemsDepth_itemOf es
      rw [Value.depth, jsonMaxDepth]
      omega
  have hsize := hfile _ hexport
  have hpos : 0 < (scJsonStringify (.array (es.map itemOf))).length := by
    rw [scJsonStringify, stringifyValue]
    exact Nat.succ_pos _
  rw [scMemorySnapshotImport, if_neg (by omega), hparse]
  dsimp only
  rw [List.length_nil] at hloop
  rw [hloop, Option.map_some]

/-- A session comes back unless it is empty. -/
theorem storedSession_filter (sessionId : Option CString) :
    (storedSession ((sessionId.map (·.octets)).filter (· ≠ []))).map (·.octets) =
      sessionId.map (·.octets) ↔ sessionId.map (·.octets) ≠ some [] := by
  cases sessionId with
  | none => exact iff_of_true rfl (Option.some_ne_none _).symm
  | some c =>
    rw [Option.map_some]
    by_cases hnil : c.octets = []
    · rw [hnil]
      exact iff_of_false (Option.some_ne_none _).symm fun h => h rfl
    · have hfilter : (some c.octets).filter (· ≠ []) = some c.octets := by
        simp only [Option.filter_some, hnil, ne_eq, not_false_eq_true, decide_true, if_true]
      rw [hfilter, storedSession, if_pos (List.length_pos_iff.mpr hnil), Option.map_some,
        ofBytes_octets]
      exact iff_of_true rfl fun h => hnil (Option.some.inj h)

/-- The category with a name comes back unless the name is empty. -/
theorem readBack_importedCategory {e : LruEntry}
    (hnamed : (shown e).category.name = some (nameOf e)) :
    readBack (some (importedCategory e)) = (shown e).category ↔
      ∃ name, (shown e).category = ⟨.custom, some name⟩ ∧ name ≠ [] := by
  have htag : (shown e).category.tag = .custom := by
    by_contra hne
    have hnone : (shown e).category.name = none := if_neg hne
    rw [hnone] at hnamed
    cases hnamed
  have hcategory : (shown e).category = ⟨.custom, some (nameOf e)⟩ := by
    rw [← htag, ← hnamed]
  rw [hcategory, importedCategory]
  by_cases hnil : nameOf e = []
  · rw [hnil]
    refine iff_of_false ?_ ?_
    · intro heq
      exact Option.some_ne_none _ (congrArg MemoryCategory.name heq).symm
    · rintro ⟨name, heq, hne⟩
      exact hne (Option.some.inj (congrArg MemoryCategory.name heq)).symm
  · rw [if_pos (List.length_pos_iff.mpr hnil)]
    exact iff_of_true rfl ⟨_, rfl, hnil⟩

/-- What comes back of an entry that was written. -/
theorem keptParts_importedEntry {e : LruEntry} (now : ℤ)
    (hnamed : (shown e).category.name = some (nameOf e)) :
    keptParts (importedEntry now e) = keptParts (shown e) ↔
      (∃ name, (shown e).category = ⟨.custom, some name⟩ ∧ name ≠ []) ∧
        (shown e).sessionId ≠ some [] := by
  rw [← readBack_importedCategory hnamed]
  have hsession : (shown e).sessionId ≠ some [] ↔
      (storedSession ((e.sessionId.map (·.octets)).filter (· ≠ []))).map (·.octets) =
        (shown e).sessionId := (storedSession_filter e.sessionId).symm
  rw [hsession, keptParts, keptParts, Prod.mk.injEq, Prod.mk.injEq]
  constructor
  · rintro ⟨-, hs, hc⟩
    exact ⟨hc, hs⟩
  · rintro ⟨hc, hs⟩
    exact ⟨rfl, hs, hc⟩

end Snapshot

/-! ## Which engines come back -/

/-- The entry of a key that is held. -/
theorem Represents.value_iff {s : LruRun} {l : List ℕ} {es : List LruEntry}
    (h : Represents s l es) (k : CString) (v : MemoryEntry Bytes) :
    s.uses.value k = some v ↔ ∃ e ∈ es, e.key = k ∧ shown e = v := by
  rw [h.ordered.value]
  simp only [List.mem_map, LruEntry.pair, Prod.mk.injEq]

/-- Where every entry has a name, an engine is restored if each entry comes back as it was. -/
theorem Represents.restores_iff_kept {s : LruRun} {l : List ℕ} {es : List LruEntry}
    (h : Represents s l es) (hnamed : ∀ e ∈ es, (shown e).category.name = some (nameOf e))
    (hnul : ∀ e ∈ es, 0 ∉ nameOf e) {cap : ℕ} (hcap : s.mem.count ≤ cap) (hlt : cap < 2 ^ 64)
    (hfile : ∀ file, scMemorySnapshotExport (Memory.implList s.mem none none) = some file →
      file.length ≤ snapshotFileMax) (now : ℕ → ℤ) :
    SnapshotRestores now cap s.mem ↔
      ∀ i e, es[i]? = some e → keptParts (importedEntry (now i) e) = keptParts (shown e) := by
  obtain ⟨file, t, hexport, himport, ht⟩ := h.snapshot hnamed hnul now hcap hlt hfile
  obtain ⟨l', es', ht'⟩ := ht.sound
  constructor
  · rintro ⟨file', mem', hexport', himport', hkeys⟩ i e hi
    obtain rfl := Option.some.inj (hexport.symm.trans hexport')
    obtain rfl : t.mem = mem' := (Prod.mk.inj (Option.some.inj (himport.symm.trans himport'))).2
    obtain ⟨v, v', hget, hget', heq⟩ := hkeys e.key
    rw [h.lookup, (h.value_iff _ _).mpr ⟨e, List.mem_of_getElem? hi, rfl, rfl⟩] at hget
    rw [ht'.lookup, (ht.value _ _).mpr ⟨i, e, hi, rfl, rfl⟩] at hget'
    obtain rfl := Option.some.inj hget
    obtain rfl := Option.some.inj hget'
    exact Option.some.inj heq
  · intro hkept
    refine ⟨file, t.mem, hexport, himport, fun key => ⟨_, _, h.lookup key, ht'.lookup key, ?_⟩⟩
    cases hvalue : s.uses.value key with
    | none =>
      have hnone : t.uses.value key = none := by
        rw [Option.eq_none_iff_forall_ne_some]
        intro v hv
        obtain ⟨i, e, hi, hkey, -⟩ := (ht.value _ _).mp hv
        have hheld := (h.value_iff key (shown e)).mpr ⟨e, List.mem_of_getElem? hi, hkey, rfl⟩
        rw [hvalue] at hheld
        cases hheld
      rw [hnone]
    | some v =>
      obtain ⟨e, he, hkey, rfl⟩ := (h.value_iff _ _).mp hvalue
      obtain ⟨i, hi⟩ := List.mem_iff_getElem?.mp he
      rw [(ht.value _ _).mpr ⟨i, e, hi, hkey, rfl⟩, Option.map_some, hkept i e hi,
        Option.map_some]

/-- A snapshot restores an engine, whatever the calls before were, if and only if every entry has
a custom category with a name that is not empty, and no empty session. -/
theorem snapshotRestores_iff {maxEntries : ℕ} (hpos : 1 ≤ maxEntries) (hmax : maxEntries < 2 ^ 64)
    {ops : List LruOp} {s : LruRun}
    (hops : Machine.EveryStep lruStep KeepsEntries ⟨scMemoryLruCreate maxEntries, Uses.empty⟩ ops)
    (hrun : Machine.run lruStep ⟨scMemoryLruCreate maxEntries, Uses.empty⟩ ops = some s)
    (hnames : ∀ key v name, s.uses.value key = some v → v.category.name = some name → 0 ∉ name)
    {cap : ℕ} (hcap : s.mem.count ≤ cap) (hlt : cap < 2 ^ 64)
    (hfile : ∀ file, scMemorySnapshotExport (implList s.mem none none) = some file →
      file.length ≤ snapshotFileMax) (now : ℕ → ℤ) :
    SnapshotRestores now cap s.mem ↔ ∀ key v, s.uses.value key = some v →
      (∃ name, v.category = ⟨.custom, some name⟩ ∧ name ≠ []) ∧ v.sessionId ≠ some [] := by
  obtain ⟨s', hrun', ⟨l, es, h⟩, -⟩ := (hops.throughout (I := SoundEngine)
    (fun _ _ hs hop => hs.step hop) (soundEngine_create hpos hmax)).run
  obtain rfl : s' = s := Option.some.inj (hrun'.symm.trans hrun)
  have hheld : ∀ e ∈ es, s'.uses.value e.key = some (shown e) := fun e he =>
    (h.value_iff _ _).mpr ⟨e, he, rfl, rfl⟩
  have hnul : (∀ e ∈ es, (shown e).category.name = some (nameOf e)) → ∀ e ∈ es, 0 ∉ nameOf e :=
    fun hnamed e he => hnames _ _ _ (hheld e he) (hnamed e he)
  constructor
  · intro hrestores key v hvalue
    have hnamed : ∀ e ∈ es, (shown e).category.name = some (nameOf e) := by
      obtain ⟨file, -, hexport, -⟩ := hrestores
      rw [h.implList_all] at hexport
      obtain ⟨items, hitems, -⟩ := Option.map_eq_some_iff.mp hexport
      intro e he
      obtain ⟨name, hname⟩ := names_of_export hitems _ (List.mem_map_of_mem he)
      rw [nameOf, hname, Option.getD_some]
    have hkept := (h.restores_iff_kept hnamed (hnul hnamed) hcap hlt hfile now).mp hrestores
    obtain ⟨e, he, -, rfl⟩ := (h.value_iff _ _).mp hvalue
    obtain ⟨i, hi⟩ := List.mem_iff_getElem?.mp he
    exact (keptParts_importedEntry (now i) (hnamed e he)).mp (hkept i e hi)
  · intro hall
    have hnamed : ∀ e ∈ es, (shown e).category.name = some (nameOf e) := by
      intro e he
      obtain ⟨⟨name, hcategory, -⟩, -⟩ := hall _ _ (hheld e he)
      rw [nameOf, hcategory, Option.getD_some]
    refine (h.restores_iff_kept hnamed (hnul hnamed) hcap hlt hfile now).mpr fun i e hi => ?_
    have he := List.mem_of_getElem? hi
    exact (keptParts_importedEntry (now i) (hnamed e he)).mpr (hall _ _ (hheld e he))

/-- An engine with one note, in a category of the user. -/
theorem snapshotRestores_iff_note :
    ∃ s, Machine.run lruStep ⟨scMemoryLruCreate 2, Uses.empty⟩
      [.store (.ofBytes (ascii "k")) (.ofBytes (ascii "v")) (some ⟨.custom, some (ascii "n")⟩)
        (some (ascii "s")) 0] = some s ∧ SnapshotRestores (fun _ => 0) 1 s.mem := by
  have hexport : (implStore (scMemoryLruCreate 2) (CString.ofBytes (ascii "k")).octets
      (CString.ofBytes (ascii "v")).octets (some ⟨.custom, some (ascii "n")⟩) (some (ascii "s"))
        0).map (fun mem => ((scMemorySnapshotExport (implList mem none none)).map List.length,
          mem.count)) = some (some 75, 1) := by
    rfl
  obtain ⟨mem, hmem, hsize⟩ := Option.map_eq_some_iff.mp hexport
  obtain ⟨hlength, hcount⟩ := Prod.mk.inj hsize
  let uses : Uses CString (MemoryEntry Bytes) := Uses.empty.put 2 (.ofBytes (ascii "k"))
    (stored (.ofBytes (ascii "k")) (.ofBytes (ascii "v")) (some ⟨.custom, some (ascii "n")⟩)
      (some (ascii "s")) 0)
  have hrun : Machine.run lruStep ⟨scMemoryLruCreate 2, Uses.empty⟩
      [.store (.ofBytes (ascii "k")) (.ofBytes (ascii "v")) (some ⟨.custom, some (ascii "n")⟩)
        (some (ascii "s")) 0] = some ⟨mem, uses⟩ := by
    rw [Machine.run, lruStep, hmem]
    rfl
  -- the key that was stored is the only one that is held
  have hvalue : ∀ key v, uses.value key = some v →
      v.category = ⟨.custom, some (ascii "n")⟩ ∧ v.sessionId = some (ascii "s") := by
    intro key v hv
    by_cases hkey : key = .ofBytes (ascii "k")
    · rw [hkey, Uses.value_put_self] at hv
      obtain rfl := Option.some.inj hv
      exact ⟨rfl, rfl⟩
    · rcases Uses.mem_held_of_put ⟨v, hv⟩ with heq | ⟨w, hw⟩
      · exact absurd heq hkey
      · exact absurd hw (Option.some_ne_none _).symm
  refine ⟨_, hrun, (snapshotRestores_iff (by decide) (by norm_num) ?_ hrun ?_
    hcount.le (by norm_num) ?_ (fun _ => 0)).mpr ?_⟩
  · refine ⟨⟨⟨_, rfl, fun _ h => absurd h (Option.some_ne_none _)⟩, numbersAbove_of_only ?_⟩,
      fun _ _ => trivial⟩
    rintro x ⟨v, hv⟩
    exact absurd hv (Option.some_ne_none _).symm
  · intro key v name hv hname
    rw [(hvalue key v hv).1] at hname
    obtain rfl := Option.some.inj hname
    decide
  · intro file hfile
    rw [hfile] at hlength
    rw [Option.some.inj hlength]
    decide
  · intro key v hv
    obtain ⟨hcategory, hsession⟩ := hvalue key v hv
    rw [hcategory, hsession]
    exact ⟨⟨_, rfl, by decide⟩, by decide⟩

/-- The category of a note of the day is not written: what is read for its name is not known. -/
theorem snapshot_of_daily_undefined :
    ∃ s, Machine.run lruStep ⟨scMemoryLruCreate 2, Uses.empty⟩
      [.store (.ofBytes (ascii "k")) (.ofBytes (ascii "v")) (some ⟨.daily, none⟩) none 0] =
        some s ∧ ¬ SnapshotRestores (fun _ => 0) 1 s.mem := by
  have hexport : (implStore (scMemoryLruCreate 2) (CString.ofBytes (ascii "k")).octets
      (CString.ofBytes (ascii "v")).octets (some ⟨.daily, none⟩) none 0).map
        (fun mem => scMemorySnapshotExport (implList mem none none)) = some none := by
    rfl
  obtain ⟨mem, hmem, hnone⟩ := Option.map_eq_some_iff.mp hexport
  refine ⟨⟨mem, _⟩, by rw [Machine.run, lruStep, hmem]; rfl, ?_⟩
  rintro ⟨file, mem', hfile, -⟩
  rw [hnone] at hfile
  cases hfile

end SeaClaw.Memory
