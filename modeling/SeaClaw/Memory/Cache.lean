import SeaClaw.Memory.Entry

/-!
# The memory cache

An array of slots in the order of their last use, with a flag for each that is used and a
count. Every string that the cache owns has a block of its own, named by its number in the
order of allocation. A write outside of the array has no outcome.
-/

namespace SeaClaw.Memory

open SeaClaw.Lib

/-- A string in a block that the cache allocated. -/
structure Owned where
  block : ℕ
  text : Text
  deriving DecidableEq

/-- `cache_slot_t` -/
structure CacheSlot where
  key : Option Owned
  used : Bool
  entry : MemoryEntry Owned
  deriving DecidableEq

/-- `struct sc_memory_cache`, with the number of the next block. -/
structure MemoryCache where
  slots : List CacheSlot
  maxEntries : ℕ
  count : ℕ
  next : ℕ
  deriving DecidableEq

/-- `key_eq` with the key of the slot. -/
def CacheSlot.hasKey (slot : CacheSlot) (key : Bytes) : Bool :=
  slot.key.map (·.text) = some (.ofBytes key)

/-- The copy of a string in a block. -/
def copyText (block : ℕ) (s : Text) : Owned := ⟨block, scStrndup s⟩

/-- `entry_copy`, with six blocks for the strings that are there. -/
def entryCopy (src : MemoryEntry Text) (next : ℕ) : MemoryEntry Owned where
  id := src.id.map (copyText next)
  key := src.key.map (copyText (next + 1))
  content := src.content.map (copyText (next + 2))
  category := ⟨src.category.tag, src.category.name.map (copyText (next + 3))⟩
  timestamp := src.timestamp.map (copyText (next + 4))
  sessionId := src.sessionId.map (copyText (next + 5))
  score := src.score

/-- `slot_free`: the slot is not used any more, though its pointers are still there. -/
def slotFree (slot : CacheSlot) : CacheSlot := { slot with used := false }

/-- `move_to_front` -/
def moveToFront (slots : List CacheSlot) (idx : ℕ) : List CacheSlot :=
  match slots[idx]? with
  | some tmp => tmp :: (slots.take idx ++ slots.drop (idx + 1))
  | none => slots

/-- `shift_right`: the slots `1` to `n` become those that were `0` to `n - 1`. -/
def shiftRight (slots : List CacheSlot) (n : ℕ) : Option (List CacheSlot) :=
  if n = 0 then some slots
  else if n < slots.length then some (slots.take 1 ++ slots.take n ++ slots.drop (n + 1))
  else none

/-- `shift_left(slots + base, n)`: the slots from `base` on, `n - 1` of them, become those
after them. -/
def shiftLeft (slots : List CacheSlot) (base n : ℕ) : Option (List CacheSlot) :=
  if n ≤ 1 then some slots
  else if base + n ≤ slots.length then
    some (slots.take base ++ (slots.drop (base + 1)).take (n - 1) ++ slots.drop (base + n - 1))
  else none

/-- The difference of two `size_t`. -/
def sizeSub (a b : ℕ) : ℕ := (a + 2 ^ 64 - b) % 2 ^ 64

/-- A slot of zeros. -/
def CacheSlot.zero : CacheSlot := ⟨none, false, ⟨none, none, none, ⟨.core, none⟩, none, none, .round false 0⟩⟩

/-- `sc_memory_cache_create` -/
def scMemoryCacheCreate (maxEntries : ℕ) : Option MemoryCache :=
  if maxEntries = 0 then none
  else some ⟨List.replicate maxEntries .zero, maxEntries, 0, 0⟩

/-- The loop over the slots, for the first used one with the key. -/
def findSlot (cache : MemoryCache) (key : Bytes) : Option ℕ :=
  cache.slots.findIdx? fun slot => slot.used && slot.hasKey key

/-- `sc_memory_cache_get`, with the copy for the caller. -/
def scMemoryCacheGet (cache : MemoryCache) (key : Bytes) :
    MemoryCache × Option (MemoryEntry Owned) :=
  match findSlot cache key with
  | none => (cache, none)
  | some i =>
    let slots := moveToFront cache.slots i
    ({ cache with slots := slots, next := cache.next + 6 },
      slots.head?.map fun slot => entryCopy (slot.entry.map (·.text)) cache.next)

/-- The end of `sc_memory_cache_put`: slot `0` gets the key and a copy of the entry. -/
def MemoryCache.fillFront (cache : MemoryCache) (key : Bytes) (entry : MemoryEntry Bytes) :
    MemoryCache :=
  { cache with
    slots := cache.slots.set 0 ⟨some ⟨cache.next, .ofBytes key⟩, true,
      entryCopy (entry.map .ofBytes) (cache.next + 1)⟩
    count := (cache.count + 1) % 2 ^ 64
    next := cache.next + 7 }

/-- `sc_memory_cache_put` -/
def scMemoryCachePut (cache : MemoryCache) (key : Bytes) (entry : MemoryEntry Bytes) :
    Option MemoryCache :=
  match findSlot cache key with
  | some i =>
    -- the slot is used again, but it has not left the count
    some ({ cache with slots := moveToFront (cache.slots.modify i slotFree) i }.fillFront key entry)
  | none =>
    let cache :=
      if cache.maxEntries ≤ cache.count then
        { cache with
          slots := cache.slots.modify (cache.maxEntries - 1) slotFree
          count := sizeSub cache.count 1 }
      else cache
    (shiftRight cache.slots cache.count).map fun slots =>
      { cache with slots := slots }.fillFront key entry

/-- `sc_memory_cache_invalidate` -/
def scMemoryCacheInvalidate (cache : MemoryCache) (key : Bytes) : Option MemoryCache :=
  match findSlot cache key with
  | none => some cache
  | some i =>
    (shiftLeft (cache.slots.modify i slotFree) i (sizeSub cache.count i)).map fun slots =>
      { cache with slots := slots, count := sizeSub cache.count 1 }

/-- `sc_memory_cache_clear` -/
def scMemoryCacheClear (cache : MemoryCache) : MemoryCache :=
  { cache with slots := cache.slots.map slotFree, count := 0 }

end SeaClaw.Memory
