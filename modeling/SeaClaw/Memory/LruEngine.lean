import SeaClaw.Lib.CBuffer
import SeaClaw.Lib.DoublyLinked
import SeaClaw.Lib.ExchangeSort
import SeaClaw.Lib.Printf
import SeaClaw.Memory.Entry

/-!
# The LRU memory engine

The entries are nodes of two structures at once: the chains of a hash table, and a doubly linked
list in the order of the last use. They live at addresses that are numbered in the order of
allocation. What the C code does not define has no outcome: following a pointer to memory that
was freed, a null pointer where there has to be a category, or a loop that does not end.
-/

namespace SeaClaw.Memory

open SeaClaw.Lib SeaClaw.Lib.LinkedList

/-- `SC_LRU_BUCKETS` -/
def lruBuckets : ℕ := 64

/-- The name of a custom category in a block of its own, which may have been freed while the
pointer to it stays. -/
structure NameBlock where
  name : Bytes
  freed : Bool
  deriving DecidableEq

/-- `lru_entry_t` -/
structure LruEntry where
  key : CString
  content : CString
  category : MemoryCategory NameBlock
  sessionId : Option CString
  createdAt : CString
  updatedAt : CString
  lastAccess : ℕ
  hashNext : Option ℕ
  lruPrev : Option ℕ
  lruNext : Option ℕ

/-- `sc_lru_memory_t`, with the entries in memory and the next address. -/
structure LruMemory where
  heap : ℕ → Option LruEntry
  buckets : ℕ → Option ℕ
  lruHead : Option ℕ
  lruTail : Option ℕ
  count : ℕ
  maxEntries : ℕ
  accessCounter : ℕ
  next : ℕ

/-- `contains_substring` -/
def containsSubstring (haystack needle : Bytes) : Bool :=
  if needle.length = 0 then true
  else if haystack.length < needle.length then false
  else (List.range (haystack.length - needle.length + 1)).any fun i =>
    (haystack.drop i).take needle.length = needle

/-- `hash_key`, in 32 bits; a NUL ends the key. -/
def lruHashKey (key : Bytes) : ℕ :=
  (key.takeWhile (· ≠ 0)).foldl (fun h c => (h * 31 + c.toNat) % 2 ^ 32) 5381 % lruBuckets

theorem lruHashKey_lt (key : Bytes) : lruHashKey key < lruBuckets := Nat.mod_lt _ (by decide)

/-- `find_entry` -/
def findEntry (mem : LruMemory) (key : Bytes) : Option (Option ℕ) :=
  findNode LruEntry.hashNext (fun e => e.key.octets = key) mem.next mem.heap
    (mem.buckets (lruHashKey key))

/-- The links of the list in the order of use. -/
def lruLinks : Links ℕ LruEntry where
  next := LruEntry.lruNext
  prev := LruEntry.lruPrev
  setNext p e := { e with lruNext := p }
  setPrev p e := { e with lruPrev := p }
  next_setNext _ _ := rfl
  prev_setNext _ _ := rfl
  prev_setPrev _ _ := rfl
  next_setPrev _ _ := rfl

/-- The entries with the two ends of the list. -/
def LruMemory.ends (mem : LruMemory) : Ends ℕ LruEntry := ⟨mem.heap, mem.lruHead, mem.lruTail⟩

/-- The memory with another list. -/
def LruMemory.withEnds (mem : LruMemory) (d : Ends ℕ LruEntry) : LruMemory :=
  { mem with heap := d.heap, lruHead := d.head, lruTail := d.tail }

/-- `unlink_lru` -/
def unlinkLru (mem : LruMemory) (e : ℕ) : Option LruMemory :=
  (unlink lruLinks mem.ends e).map mem.withEnds

/-- `link_mru` -/
def linkMru (mem : LruMemory) (e : ℕ) : Option LruMemory :=
  (linkFront lruLinks mem.ends e).map mem.withEnds

/-- The loop that takes an entry out of its bucket. -/
def removeFromBucket (mem : LruMemory) (b e : ℕ) : Option LruMemory :=
  (unchain LruEntry.hashNext (fun p e => { e with hashNext := p }) e mem.next mem.heap
    (mem.buckets b) none (mem.buckets b)).map fun r =>
      { mem with heap := r.1, buckets := Function.update mem.buckets b r.2 }

/-- The name of a custom category is freed, and the pointer to it stays. -/
def freeName (cat : MemoryCategory NameBlock) : Option (MemoryCategory NameBlock) :=
  match cat.tag, cat.name with
  | .custom, some block =>
    if block.freed then none else some { cat with name := some { block with freed := true } }
  | _, _ => some cat

/-- `free_stored_entry`, and the entry itself. -/
def freeStoredEntry (mem : LruMemory) (e : ℕ) : Option LruMemory :=
  (mem.heap e).bind fun entry => (freeName entry.category).map fun _ =>
    { mem with heap := Function.update mem.heap e none }

/-- An entry is taken out of both structures and freed. -/
def dropEntry (mem : LruMemory) (b e : ℕ) : Option LruMemory :=
  (removeFromBucket mem b e).bind fun mem => (unlinkLru mem e).bind fun mem =>
    (freeStoredEntry mem e).map fun mem => { mem with count := Lib.sizeSub mem.count 1 }

/-- `evict_lru` -/
def evictLru (mem : LruMemory) : Option LruMemory :=
  match mem.lruTail with
  | none => some mem
  | some victim =>
    (mem.heap victim).bind fun e => dropEntry mem (lruHashKey e.key.octets) victim

/-- `while (self->count >= self->max_entries) evict_lru(self);` -/
def evictWhileFull : ℕ → LruMemory → Option LruMemory
  | 0, _ => none
  | fuel + 1, mem =>
    if mem.maxEntries ≤ mem.count then (evictLru mem).bind (evictWhileFull fuel) else some mem

/-- `next_access` -/
def nextAccess (mem : LruMemory) : LruMemory :=
  { mem with accessCounter := (mem.accessCounter + 1) % 2 ^ 64 }

/-- `now_timestamp` -/
def nowTimestamp (now : ℤ) : CString := .ofBytes (fmtInt now)

/-- `dup_category`: only the name of a custom category is written. -/
def dupCategory (cat : MemoryCategory Bytes) (out : MemoryCategory NameBlock) :
    MemoryCategory NameBlock :=
  match cat.tag, cat.name with
  | .custom, some name => ⟨.custom, some ⟨name, false⟩⟩
  | tag, _ => ⟨tag, out.name⟩

/-- `category_to_out`; a name that is not written is `none`. -/
def categoryToOut (src : MemoryCategory NameBlock) : Option (MemoryCategory Bytes) :=
  match src.tag, src.name with
  | .custom, some block => if block.freed then none else some ⟨.custom, some block.name⟩
  | tag, _ => some ⟨tag, none⟩

/-- The entry that the caller gets. -/
def entryOut (e : LruEntry) : Option (MemoryEntry Bytes) :=
  (categoryToOut e.category).map fun category =>
    { id := some e.key.octets
      key := some e.key.octets
      content := some e.content.octets
      category := category
      timestamp := some e.updatedAt.octets
      sessionId := e.sessionId.map (·.octets)
      score := .nan false }

/-- The copy of a session id, if it is not empty. -/
def storedSession (sessionId : Option Bytes) : Option CString :=
  match sessionId with
  | some s => if s.length > 0 then some (.ofBytes s) else none
  | none => none

/-- The entry `e` moves to the front of the list. -/
def toFront (mem : LruMemory) (e : ℕ) : Option LruMemory :=
  (unlinkLru mem e).bind fun mem => linkMru mem e

/-- The memory with an entry written at an address. -/
def LruMemory.write (mem : LruMemory) (a : ℕ) (e : LruEntry) : LruMemory :=
  { mem with heap := Function.update mem.heap a (some e) }

/-- The new entry of `impl_store`, at the next address. -/
def insertEntry (mem : LruMemory) (key content : Bytes) (category : MemoryCategory Bytes)
    (sessionId : Option Bytes) (now : ℤ) : Option LruMemory :=
  let mem := nextAccess mem
  let b := lruHashKey key
  let e := mem.next
  (linkMru { (mem.write e
      { key := .ofBytes key
        content := .ofBytes content
        category := dupCategory category ⟨.core, none⟩
        sessionId := storedSession sessionId
        createdAt := nowTimestamp now
        updatedAt := nowTimestamp now
        lastAccess := mem.accessCounter
        hashNext := mem.buckets b
        lruPrev := none
        lruNext := none }) with
    buckets := Function.update mem.buckets b (some e)
    next := mem.next + 1 } e).map fun mem => { mem with count := (mem.count + 1) % 2 ^ 64 }

/-- `impl_store` -/
def implStore (mem : LruMemory) (key content : Bytes) (category : Option (MemoryCategory Bytes))
    (sessionId : Option Bytes) (now : ℤ) : Option LruMemory :=
  (findEntry mem key).bind fun found =>
    match found with
    | some existing =>
      (mem.heap existing).bind fun e => (freeName e.category).bind fun freed =>
        -- the category is read through its pointer
        category.bind fun category =>
          let mem := nextAccess mem
          toFront (mem.write existing { e with
            content := .ofBytes content
            updatedAt := nowTimestamp now
            category := dupCategory category freed
            sessionId := storedSession sessionId
            lastAccess := mem.accessCounter }) existing
    | none =>
      if mem.maxEntries = 0 then some mem
      else (evictWhileFull (mem.count + 1) mem).bind fun mem => category.bind fun category =>
        insertEntry mem key content category sessionId now

/-- `impl_get`, with what the caller gets. -/
def implGet (mem : LruMemory) (key : Bytes) : Option (LruMemory × Option (MemoryEntry Bytes)) :=
  (findEntry mem key).bind fun found =>
    match found with
    | none => some (mem, none)
    | some e =>
      (mem.heap e).bind fun entry =>
        let mem := nextAccess mem
        (toFront (mem.write e { entry with lastAccess := mem.accessCounter }) e).bind fun mem =>
          (mem.heap e).bind fun entry => (entryOut entry).map fun out => (mem, some out)

/-- `impl_forget`, with whether an entry was deleted. -/
def implForget (mem : LruMemory) (key : Bytes) : Option (LruMemory × Bool) :=
  (findEntry mem key).bind fun found =>
    match found with
    | none => some (mem, false)
    | some e => (dropEntry mem (lruHashKey key) e).map fun mem => (mem, true)

/-- The test for the session of an entry, which an empty session passes over. -/
def sessionMatches (sessionId : Option Bytes) (e : LruEntry) : Bool :=
  match sessionId with
  | some s => if s.length > 0 then e.sessionId.map (·.octets) = some s else true
  | none => true

/-- `category_matches` -/
def categoryMatches (filter : Option (MemoryCategory Bytes)) (entry : MemoryCategory NameBlock) :
    Option Bool :=
  match filter with
  | none => some true
  | some filter =>
    if filter.tag ≠ entry.tag then some false
    else if filter.tag = .custom then
      match filter.name, entry.name with
      | some name, some block =>
        if name.length ≠ block.name.length then some false
        else if block.freed then none
        else some (name = block.name)
      | _, _ => some false
    else some true

/-- One round of the loop of `impl_list`. -/
def listEntry (category : Option (MemoryCategory Bytes)) (sessionId : Option Bytes)
    (e : LruEntry) : Option (List (MemoryEntry Bytes)) :=
  (categoryMatches category e.category).bind fun ok =>
    if ok && sessionMatches sessionId e then (entryOut e).map fun out => [out] else some []

/-- `impl_list` -/
def implList (mem : LruMemory) (category : Option (MemoryCategory Bytes))
    (sessionId : Option Bytes) : Option (List (MemoryEntry Bytes)) :=
  (collect LruEntry.lruNext mem.next mem.heap mem.lruHead).bind fun es =>
    (es.mapM (listEntry category sessionId)).map List.flatten

/-- The tests of `impl_recall` on an entry. -/
def recallMatches (query : Bytes) (sessionId : Option Bytes) (e : LruEntry) : Bool :=
  sessionMatches sessionId e &&
    (containsSubstring e.key.octets query || containsSubstring e.content.octets query)

/-- `impl_recall` -/
def implRecall (mem : LruMemory) (query : Bytes) (limit : ℕ) (sessionId : Option Bytes) :
    Option (List (MemoryEntry Bytes)) :=
  ((List.range lruBuckets).mapM fun b =>
      collect LruEntry.hashNext mem.next mem.heap (mem.buckets b)).bind fun chains =>
    let found := chains.flatten.filter (recallMatches query sessionId)
    ((exchangeSort LruEntry.lastAccess found).take limit).mapM entryOut

/-- `sc_memory_lru_create` -/
def scMemoryLruCreate (maxEntries : ℕ) : LruMemory :=
  ⟨fun _ => none, fun _ => none, none, none, 0, maxEntries, 0, 0⟩

/-- The loop over the places of the needle is the search for it. -/
theorem containsSubstring_iff (haystack needle : Bytes) :
    containsSubstring haystack needle = true ↔ needle <:+: haystack := by
  unfold containsSubstring
  split_ifs with hzero hlt
  · rw [List.length_eq_zero_iff] at hzero
    subst hzero
    simp
  · refine iff_of_false not_false fun h => ?_
    have := h.length_le
    omega
  · simp only [List.any_eq_true, List.mem_range, decide_eq_true_eq]
    constructor
    · rintro ⟨i, -, hi⟩
      rw [← hi]
      exact ((List.take_prefix _ _).isInfix).trans (List.drop_suffix i haystack).isInfix
    · rintro ⟨s, t, rfl⟩
      refine ⟨s.length, ?_, ?_⟩
      · simp only [List.length_append]
        omega
      · rw [List.append_assoc, List.drop_left, List.take_left]

end SeaClaw.Memory
