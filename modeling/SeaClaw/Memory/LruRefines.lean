import SeaClaw.Lib.Lru
import SeaClaw.Lib.Machine
import SeaClaw.Memory.LruLists

/-!
# The LRU engine as a map of recent uses

Every sequence of calls against the map that forgets the least recently used key. The engine
keeps to it as long as each store has a category, no custom category without a name comes to an
entry that had one, and the number of a use is above those of the entries that stay, where
numbers are counted in 64 bits.
-/

namespace SeaClaw.Memory

open SeaClaw.Lib SeaClaw.Lib.LinkedList SeaClaw.Lib.Lru

/-! ## Calls with the map -/

/-- The engine, and the map that it is to be. -/
structure LruRun where
  mem : LruMemory
  uses : Uses CString (MemoryEntry Bytes)

/-- A call. Keys and contents have no NUL. -/
inductive LruOp where
  | store (key content : CString) (category : Option (MemoryCategory Bytes))
      (sessionId : Option Bytes) (now : ℤ)
  | get (key : CString)
  | forget (key : CString)
  | listing (category : Option (MemoryCategory Bytes)) (sessionId : Option Bytes)
  | recalling (query : Bytes) (limit : ℕ) (sessionId : Option Bytes)

/-- A category as it is read back: a missing one is the core category, and only a custom one has
a name. -/
def readBack (category : Option (MemoryCategory Bytes)) : MemoryCategory Bytes :=
  match category with
  | none => ⟨.core, none⟩
  | some c => ⟨c.tag, if c.tag = .custom then c.name else none⟩

/-- What is to be read back after a store. -/
def stored (key content : CString) (category : Option (MemoryCategory Bytes))
    (sessionId : Option Bytes) (now : ℤ) : MemoryEntry Bytes where
  id := some key.octets
  key := some key.octets
  content := some content.octets
  category := readBack category
  timestamp := some (nowTimestamp now).octets
  sessionId := (storedSession sessionId).map (·.octets)
  score := .nan false

/-- One call, in the engine and in the map. -/
noncomputable def lruStep (s : LruRun) : LruOp → Option LruRun
  | .store key content category sessionId now =>
    (implStore s.mem key.octets content.octets category sessionId now).map fun mem =>
      ⟨mem, s.uses.put s.mem.maxEntries key (stored key content category sessionId now)⟩
  | .get key => (implGet s.mem key.octets).map fun r => ⟨r.1, s.uses.touch key⟩
  | .forget key => (implForget s.mem key.octets).map fun r => ⟨r.1, s.uses.erase key⟩
  | .listing category sessionId => (implList s.mem category sessionId).map fun _ => s
  | .recalling query limit sessionId => (implRecall s.mem query limit sessionId).map fun _ => s

/-- The addresses behind the buckets. -/
def InBuckets (mem : LruMemory) (a : ℕ) : Prop :=
  ∃ b < lruBuckets, Reach LruEntry.hashNext mem.heap (mem.buckets b) a

/-- An empty session is any session. -/
def OfSession (sessionId : Option Bytes) (v : MemoryEntry Bytes) : Prop :=
  ∀ s, sessionId = some s → s ≠ [] → v.sessionId = some s

/-- A custom category is that of its name, and no category is any of them. -/
def OfCategory (category : Option (MemoryCategory Bytes)) (v : MemoryEntry Bytes) : Prop :=
  ∀ c, category = some c → c.tag = v.category.tag ∧
    (c.tag = .custom → ∃ name, c.name = some name ∧ v.category.name = some name)

/-- The query occurs in the key or in the content. -/
def Mentions (query : Bytes) (v : MemoryEntry Bytes) : Prop :=
  (∃ k, v.key = some k ∧ query <:+: k) ∨ ∃ c, v.content = some c ∧ query <:+: c

/-- The pairs of the map whose value satisfies `P`, the latest use first. -/
structure InRecency (uses : Uses CString (MemoryEntry Bytes)) (P : MemoryEntry Bytes → Prop)
    (ps : List (CString × MemoryEntry Bytes)) : Prop where
  mem : ∀ k v, (k, v) ∈ ps ↔ uses.value k = some v ∧ P v
  recent : ps.Pairwise fun p q => uses.used q.1 < uses.used p.1

/-- The engine holds what the map holds: the same entries are behind the buckets, behind the
head and behind the tail, one for each key, and their number is the count. A look-up finds what
the map has, and lists are in the order of the last use. -/
structure IsLruEngine (s : LruRun) : Prop where
  head : ∀ a, Reach LruEntry.lruNext s.mem.heap s.mem.lruHead a ↔ InBuckets s.mem a
  tail : ∀ a, Reach LruEntry.lruPrev s.mem.heap s.mem.lruTail a ↔ InBuckets s.mem a
  live : ∀ a, InBuckets s.mem a → ∃ e, s.mem.heap a = some e
  keys : ∀ a b e f, InBuckets s.mem a → InBuckets s.mem b → s.mem.heap a = some e →
    s.mem.heap b = some f → e.key = f.key → a = b
  held : ∀ k, k ∈ s.uses.held ↔ ∃ a e, InBuckets s.mem a ∧ s.mem.heap a = some e ∧ e.key = k
  count : Set.ncard {a | InBuckets s.mem a} = s.mem.count
  bound : s.mem.count ≤ s.mem.maxEntries
  get : ∀ key : CString, (implGet s.mem key.octets).map Prod.snd = some (s.uses.value key)
  listing : ∀ category sessionId, ∃ ps,
    InRecency s.uses (fun v => OfCategory category v ∧ OfSession sessionId v) ps ∧
      implList s.mem category sessionId = some (ps.map Prod.snd)
  recalling : ∀ query limit sessionId, ∃ ps,
    InRecency s.uses (fun v => OfSession sessionId v ∧ Mentions query v) ps ∧
      implRecall s.mem query limit sessionId = some ((ps.take limit).map Prod.snd)

/-- The number of a use of the key is above those of the other keys that stay. -/
def NumbersAbove (s : LruRun) (key : CString) : Prop :=
  ∀ x ∈ s.uses.held, x ≠ key → ¬ s.uses.Evicts s.mem.maxEntries key x →
    s.uses.used x % 2 ^ 64 < (s.uses.time + 1) % 2 ^ 64

/-- The entry of the key has never had the name of a custom category. -/
def NeverNamed (s : LruRun) (key : CString) : Prop :=
  ∀ a e, findEntry s.mem key.octets = some (some a) → s.mem.heap a = some e → e.category.name = none

/-- A store has a category, which has a name if it is custom and the entry has had one; and a
use gets a number above those of the entries that stay. -/
def KeepsEntries (s : LruRun) : LruOp → Prop
  | .store key _ category _ _ =>
    (∃ c, category = some c ∧ (c.tag = .custom → c.name = none → NeverNamed s key)) ∧
      NumbersAbove s key
  | .get key => key ∈ s.uses.held → NumbersAbove s key
  | _ => True

/-! ## What is read from an entry -/

/-- The category is custom, and its name has been freed. -/
def NameLost (c : MemoryCategory NameBlock) : Prop :=
  c.tag = .custom ∧ ∃ block, c.name = some block ∧ block.freed = true

/-- What is read from an entry whose name is not lost. -/
def shown (e : LruEntry) : MemoryEntry Bytes where
  id := some e.key.octets
  key := some e.key.octets
  content := some e.content.octets
  category := ⟨e.category.tag, if e.category.tag = .custom then e.category.name.map (·.name) else none⟩
  timestamp := some e.updatedAt.octets
  sessionId := e.sessionId.map (·.octets)
  score := .nan false

/-- An entry as a pair of the map. -/
def LruEntry.pair (e : LruEntry) : CString × MemoryEntry Bytes := (e.key, shown e)

theorem shown_data (e : LruEntry) : shown e.data = shown e := rfl

theorem map_pair_fst' (es : List LruEntry) :
    (es.map LruEntry.pair).map Prod.fst = es.map LruEntry.key := by
  rw [List.map_map]
  rfl

section Categories

variable {c : MemoryCategory NameBlock} {e : LruEntry}

theorem categoryToOut_eq (h : ¬ NameLost c) : categoryToOut c =
    some ⟨c.tag, if c.tag = .custom then c.name.map (·.name) else none⟩ := by
  obtain ⟨tag, name⟩ := c
  cases tag <;> cases name with
  | none => rfl
  | some block => simp_all [categoryToOut, NameLost]

theorem entryOut_eq (h : ¬ NameLost e.category) : entryOut e = some (shown e) := by
  rw [entryOut, categoryToOut_eq h]
  rfl

/-- A name that has been freed is not read. -/
theorem entryOut_eq_none (h : NameLost e.category) : entryOut e = none := by
  obtain ⟨htag, block, hname, hfreed⟩ := h
  simp only [entryOut, categoryToOut, htag, hname, hfreed, if_true, Option.map_none]

theorem freeName_isSome (h : ¬ NameLost c) : (freeName c).isSome := by
  obtain ⟨tag, name⟩ := c
  cases tag <;> cases name with
  | none => rfl
  | some block => simp_all [freeName, NameLost]

/-- A name stays in the entry when it is freed. -/
theorem freeName_name {c' : MemoryCategory NameBlock} (h : freeName c = some c') :
    (∃ block, c'.name = some block) ↔ ∃ block, c.name = some block := by
  obtain ⟨tag, name⟩ := c
  cases tag <;> cases name <;> simp_all [freeName] <;> aesop

theorem dupCategory_not_lost {cat : MemoryCategory Bytes} {out : MemoryCategory NameBlock}
    (h : cat.tag = .custom → cat.name = none → out.name = none) :
    ¬ NameLost (dupCategory cat out) ∧
      (dupCategory cat out).tag = cat.tag ∧
      (cat.tag = .custom → (dupCategory cat out).name.map (·.name) = cat.name) := by
  obtain ⟨tag, name⟩ := cat
  cases tag <;> cases name <;> simp_all [dupCategory, NameLost]

/-- A custom category without a name leaves the one that was freed. -/
theorem dupCategory_lost {cat : MemoryCategory Bytes} {out : MemoryCategory NameBlock}
    (htag : cat.tag = .custom) (hname : cat.name = none) {block : NameBlock}
    (hout : out.name = some block) (hfreed : block.freed = true) :
    NameLost (dupCategory cat out) := by
  obtain ⟨tag, name⟩ := cat
  subst htag hname
  exact ⟨rfl, block, hout, hfreed⟩

theorem categoryMatches_eq (h : ¬ NameLost e.category) (category : Option (MemoryCategory Bytes)) :
    ∃ ok, categoryMatches category e.category = some ok ∧
      (ok = true ↔ OfCategory category (shown e)) := by
  obtain _ | ⟨tag, name⟩ := category
  · exact ⟨true, rfl, by simp [OfCategory]⟩
  · by_cases htag : tag = e.category.tag
    · by_cases hcustom : tag = .custom
      · have hc : e.category.tag = .custom := htag ▸ hcustom
        cases hn : name with
        | none =>
          refine ⟨false, by simp [categoryMatches, htag, hc], ?_⟩
          simp [OfCategory, shown, hc, htag]
        | some n =>
          cases hb : e.category.name with
          | none =>
            refine ⟨false, by simp [categoryMatches, htag, hc, hb], ?_⟩
            simp [OfCategory, shown, hc, htag, hb]
          | some block =>
            have hlive : block.freed = false := by
              by_contra hf
              exact h ⟨hc, block, hb, by simpa using hf⟩
            refine ⟨decide (n = block.name), ?_, ?_⟩
            · simp only [categoryMatches, htag, hc, hb, hlive]
              by_cases hlen : n.length = block.name.length
              · simp [hlen]
              · have hne : n ≠ block.name := fun he => hlen (he ▸ rfl)
                simp [hlen, hne]
            · simp [OfCategory, shown, hc, htag, hb, eq_comm]
      · have hc : e.category.tag ≠ .custom := htag ▸ hcustom
        refine ⟨true, by simp [categoryMatches, htag, hc], ?_⟩
        simp [OfCategory, shown, hc, htag]
    · refine ⟨false, by simp [categoryMatches, htag], ?_⟩
      simp [OfCategory, shown, htag]

theorem sessionMatches_iff (sessionId : Option Bytes) (e : LruEntry) :
    sessionMatches sessionId e = true ↔ OfSession sessionId (shown e) := by
  obtain _ | s := sessionId
  · simp [sessionMatches, OfSession]
  · cases s with
    | nil => simp [sessionMatches, OfSession]
    | cons b s => simp [sessionMatches, OfSession, shown]

theorem recallMatches_iff (query : Bytes) (sessionId : Option Bytes) (e : LruEntry) :
    recallMatches query sessionId e = true ↔
      OfSession sessionId (shown e) ∧ Mentions query (shown e) := by
  simp only [recallMatches, Bool.and_eq_true, Bool.or_eq_true, sessionMatches_iff,
    containsSubstring_iff, Mentions, shown, Option.some.injEq, exists_eq_left']

end Categories

/-! ## The engine stands for the map -/

/-- The engine has the entries `es` at the addresses `l`, and these are the pairs of the map. -/
structure Represents (s : LruRun) (l : List ℕ) (es : List LruEntry) : Prop where
  linked : Linked s.mem l es
  count : s.mem.count = l.length
  bound : l.length ≤ s.mem.maxEntries
  ordered : Ordered (es.map LruEntry.pair) s.uses
  named : ∀ e ∈ es, ¬ NameLost e.category
  access : ∀ e ∈ es, e.lastAccess = s.uses.used e.key % 2 ^ 64
  counter : s.mem.accessCounter = s.uses.time % 2 ^ 64
  recent : es.Pairwise fun e f => f.lastAccess < e.lastAccess

section Represents

variable {s : LruRun} {l l' l₁ l₂ : List ℕ} {es es' es₁ es₂ : List LruEntry} {e : LruEntry} {a : ℕ}
  {key : CString}

theorem Represents.mem_held (h : Represents s l es) :
    key ∈ s.uses.held ↔ key ∈ es.map LruEntry.key := by
  rw [h.ordered.mem_held, map_pair_fst']

/-- Where the entry of a key stands. -/
theorem Represents.split (h : Represents s l es) (hkey : key ∈ s.uses.held) :
    ∃ es₁ e es₂ l₁ a l₂, es = es₁ ++ e :: es₂ ∧ l = l₁ ++ a :: l₂ ∧ l₁.length = es₁.length ∧
      e.key = key := by
  obtain ⟨e, he, rfl⟩ := List.mem_map.mp (h.mem_held.mp hkey)
  obtain ⟨es₁, es₂, rfl⟩ := List.append_of_mem he
  obtain ⟨l₁, a, l₂, rfl, hlen⟩ := h.linked.split
  exact ⟨es₁, e, es₂, l₁, a, l₂, rfl, rfl, hlen, rfl⟩

/-- A key of the rest is another one. -/
theorem Represents.key_ne (h : Represents s l (es₁ ++ e :: es₂)) :
    e.key ∉ (es₁ ++ es₂).map LruEntry.key := by
  have hkeys := h.linked.distinct
  rw [List.map_append, List.map_cons, List.nodup_middle, List.nodup_cons] at hkeys
  rw [List.map_append]
  exact hkeys.1

/-- The chains of the buckets hold the nodes of the list. -/
theorem Linked.inBuckets_iff {mem : LruMemory} (h : Linked mem l es) :
    InBuckets mem a ↔ a ∈ l := by
  constructor
  · rintro ⟨b, -, hr⟩
    obtain ⟨c, hc, hmem⟩ := h.hashed b
    exact ((hmem a).mp ((hc.reach_iff a).mp hr)).1
  · intro ha
    obtain ⟨n, hn, -⟩ := h.entry ha
    obtain ⟨c, hc, hmem⟩ := h.hashed (lruHashKey n.key.octets)
    refine ⟨_, lruHashKey_lt _, (hc.reach_iff a).mpr ((hmem a).mpr ⟨ha, ?_⟩)⟩
    rw [placeOf, hn, Option.map_some]

/-- The entries that pass a test, in their order. -/
theorem Represents.inRecency (h : Represents s l es) {P : MemoryEntry Bytes → Prop}
    {test : LruEntry → Bool} (htest : ∀ e ∈ es, test e = true ↔ P (shown e)) :
    InRecency s.uses P ((es.filter test).map LruEntry.pair) := by
  constructor
  · intro k v
    rw [h.ordered.value]
    simp only [List.mem_map, List.mem_filter]
    constructor
    · rintro ⟨e, ⟨he, ht⟩, hpair⟩
      obtain ⟨rfl, rfl⟩ := Prod.mk.inj hpair
      exact ⟨⟨e, he, rfl⟩, (htest e he).mp ht⟩
    · rintro ⟨⟨e, he, hpair⟩, hP⟩
      obtain ⟨rfl, rfl⟩ := Prod.mk.inj hpair
      exact ⟨e, ⟨he, (htest e he).mpr hP⟩, rfl⟩
  · have hrecent := h.ordered.recent
    rw [map_pair_fst', List.pairwise_map] at hrecent
    rw [List.pairwise_map]
    exact hrecent.sublist List.filter_sublist

/-- Reading all of some entries whose names are not lost. -/
theorem mapM_eq_some {α β : Type} {f : α → Option β} {g : α → β} {xs : List α}
    (h : ∀ x ∈ xs, f x = some (g x)) : xs.mapM f = some (xs.map g) := by
  induction xs with
  | nil => rfl
  | cons x xs ih =>
    rw [List.mapM_cons, h x List.mem_cons_self, ih fun y hy => h y (List.mem_cons_of_mem _ hy)]
    rfl

/-- The nodes at the addresses of the list. -/
theorem Linked.nodes {mem : LruMemory} (h : Linked mem l es) :
    ∃ ns : List LruEntry, l.map mem.heap = ns.map some ∧ ns.map LruEntry.data = es := by
  obtain ⟨ns, -, hns⟩ := h.doubly.forward.collect le_rfl
  refine ⟨ns, hns, ?_⟩
  have hmap := congrArg (List.map (Option.map LruEntry.data)) hns
  rw [List.map_map, Function.comp_def, List.map_map] at hmap
  have hes := h.entries.symm.trans hmap
  have hsome : (some ∘ LruEntry.data : LruEntry → Option LruEntry) =
      (Option.map LruEntry.data ∘ some) := rfl
  rw [← hsome, ← List.map_map] at hes
  exact ((List.map_injective_iff.mpr (Option.some_injective _)) hes).symm

/-- The chains of the buckets, one after the other, hold the nodes of the list. -/
theorem Linked.chains {mem : LruMemory} (h : Linked mem l es) {ns : List LruEntry}
    (hns : l.map mem.heap = ns.map some) :
    ∃ nss, ((List.range lruBuckets).mapM fun b =>
      collect LruEntry.hashNext mem.next mem.heap (mem.buckets b)) = some nss ∧
        nss.flatten.Perm ns := by
  choose c hc hmem using h.hashed
  have hread : ∀ b, ∃ g, collect LruEntry.hashNext mem.next mem.heap (mem.buckets b) = some g ∧
      (c b).map mem.heap = g.map some := fun b =>
    (hc b).collect (h.length_chain_le (hc b) fun a ha => ((hmem b a).mp ha).1)
  choose g hg hcg using hread
  refine ⟨_, mapM_eq_some fun b _ => hg b, ?_⟩
  have hnodup : ((List.range lruBuckets).flatMap c).Nodup := by
    rw [List.nodup_flatMap]
    refine ⟨fun b _ => (hc b).nodup, ?_⟩
    refine List.nodup_range.pairwise_of_forall_ne fun b _ b' _ hne a ha ha' => hne ?_
    have hplace := ((hmem b a).mp ha).2
    rw [((hmem b' a).mp ha').2] at hplace
    exact (Option.some.inj hplace).symm
  have hperm : ((List.range lruBuckets).flatMap c).Perm l := by
    rw [List.perm_ext_iff_of_nodup hnodup h.doubly.nodup]
    intro a
    simp only [List.mem_flatMap, List.mem_range]
    constructor
    · rintro ⟨b, -, ha⟩
      exact ((hmem b a).mp ha).1
    · intro ha
      obtain ⟨n, hn, -⟩ := h.entry ha
      refine ⟨_, lruHashKey_lt n.key.octets, (hmem _ a).mpr ⟨ha, ?_⟩⟩
      rw [placeOf, hn, Option.map_some]
  have hmap := (hperm.map mem.heap).filterMap id
  rw [hns, List.map_flatMap] at hmap
  simp only [hcg, ← List.map_flatMap, List.filterMap_map, Function.id_comp] at hmap
  rw [← List.flatMap_def]
  simpa using hmap

/-- What is read from a node of the list. -/
theorem Represents.entryOut_eq (h : Represents s l es) {n : LruEntry} (hn : n.data ∈ es) :
    entryOut n = some (shown n) :=
  Memory.entryOut_eq (e := n) fun hlost => h.named n.data hn hlost

/-- The loop over the list. -/
theorem Represents.implList (h : Represents s l es) (category : Option (MemoryCategory Bytes))
    (sessionId : Option Bytes) : ∃ ps,
    InRecency s.uses (fun v => OfCategory category v ∧ OfSession sessionId v) ps ∧
      implList s.mem category sessionId = some (ps.map Prod.snd) := by
  obtain ⟨ns, hns, rfl⟩ := h.linked.nodes
  have hok : ∀ e ∈ ns.map LruEntry.data, ∃ ok, categoryMatches category e.category = some ok ∧
      (ok = true ↔ OfCategory category (shown e)) := fun e he =>
    categoryMatches_eq (h.named e he) category
  set test : LruEntry → Bool := fun e =>
    (categoryMatches category e.category).getD false && sessionMatches sessionId e with htest
  refine ⟨_, @Represents.inRecency _ _ _ h _ test fun e he => ?_, ?_⟩
  · obtain ⟨ok, hcat, hiff⟩ := hok e he
    simp only [htest, hcat, Option.getD_some, Bool.and_eq_true, hiff, sessionMatches_iff]
  · have hcollect : collect LruEntry.lruNext s.mem.next s.mem.heap s.mem.lruHead = some ns := by
      obtain ⟨ns', hread, hns'⟩ := h.linked.doubly.forward.collect h.linked.length_le_next
      have heq := hns.symm.trans hns'
      rw [(List.map_injective_iff.mpr (Option.some_injective _)) heq]
      exact hread
    have hentry : ∀ n ∈ ns, listEntry category sessionId n =
        some (if test n.data then [shown n] else []) := by
      intro n hn
      have hmem := List.mem_map_of_mem (f := LruEntry.data) hn
      obtain ⟨ok, hcat, -⟩ := hok _ hmem
      have hshow := h.entryOut_eq hmem
      have hcat' : categoryMatches category n.category = some ok := hcat
      have htest' : test n.data = (ok && sessionMatches sessionId n) := by
        simp only [htest, hcat, Option.getD_some]
        rfl
      rw [listEntry, hcat', Option.bind_some, htest', hshow]
      split <;> rfl
    rw [Memory.implList, hcollect, Option.bind_some, mapM_eq_some hentry, Option.map_some]
    congr 1
    simp only [List.map_map, Function.comp_def, LruEntry.pair]
    clear hcollect hentry hns hok h
    induction ns with
    | nil => rfl
    | cons n ns ih =>
      simp only [List.map_cons, List.flatten_cons, ih, List.filter_cons]
      split <;> rfl

/-- The loops over the buckets, the sorting and the cut. -/
theorem Represents.implRecall (h : Represents s l es) (query : Bytes) (limit : ℕ)
    (sessionId : Option Bytes) : ∃ ps,
    InRecency s.uses (fun v => OfSession sessionId v ∧ Mentions query v) ps ∧
      implRecall s.mem query limit sessionId = some ((ps.take limit).map Prod.snd) := by
  obtain ⟨ns, hns, rfl⟩ := h.linked.nodes
  obtain ⟨nss, hnss, hperm⟩ := h.linked.chains hns
  refine ⟨_, h.inRecency fun e _ => recallMatches_iff query sessionId e, ?_⟩
  have hsorted : (ns.filter (recallMatches query sessionId)).Pairwise fun e f =>
      f.lastAccess < e.lastAccess := by
    have hrecent := h.recent
    rw [List.pairwise_map] at hrecent
    exact hrecent.sublist List.filter_sublist
  have hshow : ∀ n ∈ (ns.filter (recallMatches query sessionId)).take limit,
      entryOut n = some (shown n) := by
    intro n hn
    have hmem := (List.mem_filter.mp (List.mem_of_mem_take hn)).1
    exact h.entryOut_eq (List.mem_map_of_mem (f := LruEntry.data) hmem)
  have hfilter : (ns.map LruEntry.data).filter (recallMatches query sessionId) =
      (ns.filter (recallMatches query sessionId)).map LruEntry.data := by
    rw [List.filter_map]
    rfl
  simp only [Memory.implRecall, hnss, Option.bind_some]
  rw [exchangeSort_eq LruEntry.lastAccess (hperm.filter _) hsorted, mapM_eq_some hshow, hfilter]
  congr 1
  simp only [List.map_take, List.map_map]
  rfl

end Represents

end SeaClaw.Memory
