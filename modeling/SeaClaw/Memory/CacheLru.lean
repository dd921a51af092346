import SeaClaw.Lib.Lru
import SeaClaw.Lib.Machine
import SeaClaw.Memory.Cache

/-!
# The memory cache as a map of recent uses

Every sequence of calls against the map that forgets the least recently used key. The cache
keeps to it as long as no key is put a second time while it is held, no string has a NUL and
only the last slot is invalidated.
-/

namespace SeaClaw.Memory

open SeaClaw.Lib SeaClaw.Lib.Lru

/-! ## Calls with the map -/

/-- The cache, and the map that it is to be. -/
structure CacheRun where
  cache : MemoryCache
  uses : Uses Bytes (MemoryEntry Text)

/-- A call. -/
inductive CacheOp where
  | put (key : Bytes) (entry : MemoryEntry Bytes)
  | get (key : Bytes)
  | invalidate (key : Bytes)
  | clear

/-- One call, in the cache and in the map. -/
noncomputable def cacheStep (s : CacheRun) : CacheOp → Option CacheRun
  | .put key entry => (scMemoryCachePut s.cache key entry).map fun cache =>
      ⟨cache, s.uses.put s.cache.maxEntries key (entry.map .ofBytes)⟩
  | .get key => some ⟨(scMemoryCacheGet s.cache key).1, s.uses.touch key⟩
  | .invalidate key => (scMemoryCacheInvalidate s.cache key).map fun cache =>
      ⟨cache, s.uses.erase key⟩
  | .clear => some ⟨scMemoryCacheClear s.cache, s.uses.clear⟩

/-- The octets of a slot's key. -/
def CacheSlot.keyOctets (slot : CacheSlot) : Bytes := (slot.key.map (·.text.octets)).getD []

/-- The blocks that a slot owns. -/
def CacheSlot.blocks (slot : CacheSlot) : List ℕ :=
  slot.key.toList.map (·.block) ++ slot.entry.strings.map (·.block)

/-- The cache holds the keys and entries of the map: the count is that of its keys, the used
slots are the first ones, with distinct keys and distinct strings, and a look-up finds what
the map has. -/
structure IsLru (s : CacheRun) : Prop where
  count : s.cache.count = s.uses.held.ncard
  bound : s.cache.count ≤ s.cache.maxEntries
  used : ∀ i slot, s.cache.slots[i]? = some slot → (slot.used = true ↔ i < s.cache.count)
  keys : ((s.cache.slots.take s.cache.count).map CacheSlot.keyOctets).Nodup
  strings : ((s.cache.slots.take s.cache.count).flatMap CacheSlot.blocks).Nodup
  get : ∀ key, (scMemoryCacheGet s.cache key).2.map (·.map (·.text)) = s.uses.value key

/-- A put brings a key that is not held, with strings that have no NUL, and what is
invalidated is not held or was used before all others. -/
def KeepsOrder (s : CacheRun) : CacheOp → Prop
  | .put key entry => key ∉ s.uses.held ∧ ∀ t ∈ entry.strings, 0 ∉ t
  | .invalidate key => key ∈ s.uses.held → s.uses.Oldest key
  | _ => True

/-! ## Moves in the array -/

theorem moveToFront_middle (l₁ l₂ : List CacheSlot) (slot : CacheSlot) :
    moveToFront (l₁ ++ slot :: l₂) l₁.length = slot :: (l₁ ++ l₂) := by
  simp [moveToFront]

/-- The slots in front of a free one move over it. -/
theorem shiftRight_middle (l₁ l₂ : List CacheSlot) (slot front : CacheSlot) :
    (shiftRight (l₁ ++ slot :: l₂) l₁.length).map (·.set 0 front) =
      some (front :: (l₁ ++ l₂)) := by
  cases l₁ with
  | nil => rfl
  | cons a l₁ => simp [shiftRight]

theorem shiftLeft_one (slots : List CacheSlot) (base : ℕ) :
    shiftLeft slots base 1 = some slots := rfl

/-- The slots after the one at `base` move over it, and the last of them stays behind as well. -/
theorem shiftLeft_middle (l₁ l₂ rest : List CacheSlot) (slot last : CacheSlot) :
    shiftLeft (l₁ ++ slot :: (l₂ ++ last :: rest)) l₁.length (l₂.length + 2) =
      some (l₁ ++ (l₂ ++ [last]) ++ last :: rest) := by
  have hbound : l₁.length + (l₂.length + 2) ≤
      (l₁ ++ slot :: (l₂ ++ last :: rest)).length := by
    simp
  have hsplit : l₁ ++ slot :: (l₂ ++ last :: rest) = (l₁ ++ [slot]) ++ ((l₂ ++ [last]) ++ rest) := by
    simp
  have hdrop : (l₁ ++ slot :: (l₂ ++ last :: rest)).drop (l₁.length + 1) =
      (l₂ ++ [last]) ++ rest := by
    rw [hsplit, List.drop_left' (by simp)]
  have hlast : (l₁ ++ slot :: (l₂ ++ last :: rest)).drop (l₁.length + (l₂.length + 2) - 1) =
      last :: rest := by
    have : l₁ ++ slot :: (l₂ ++ last :: rest) = (l₁ ++ slot :: l₂) ++ last :: rest := by simp
    rw [this, List.drop_left' (by simp)]
  rw [shiftLeft, if_neg (by omega), if_pos hbound, hdrop, hlast,
    List.take_left' rfl, List.take_left' (by simp)]

theorem modify_middle (l₁ l₂ : List CacheSlot) (slot : CacheSlot) (f : CacheSlot → CacheSlot) :
    (l₁ ++ slot :: l₂).modify l₁.length f = l₁ ++ f slot :: l₂ := by
  induction l₁ with
  | nil => rfl
  | cons a l₁ ih =>
    rw [List.cons_append, List.length_cons, List.modify_succ_cons, ih, List.cons_append]

theorem sizeSub_of_le {a b : ℕ} (h : b ≤ a) (ha : a < 2 ^ 64) : sizeSub a b = a - b := by
  rw [sizeSub, show a + 2 ^ 64 - b = (a - b) + 2 ^ 64 by omega, Nat.add_mod_right,
    Nat.mod_eq_of_lt (by omega)]

/-! ## What the slots hold -/

/-- The key and the entry of a slot. -/
def CacheSlot.pair (slot : CacheSlot) : Bytes × MemoryEntry Text :=
  (slot.keyOctets, slot.entry.map (·.text))

/-- A slot with a key and a copied entry. -/
def CacheSlot.Filled (slot : CacheSlot) : Prop :=
  slot.used = true ∧ slot.hasKey slot.keyOctets = true ∧
    (slot.entry.map (·.text)).map scStrndup = slot.entry.map (·.text)

/-- The first slots are used and the others are not; the used ones are the map. -/
structure Holds (s : CacheRun) (used rest : List CacheSlot) : Prop where
  slots : s.cache.slots = used ++ rest
  filled : ∀ slot ∈ used, slot.Filled
  free : ∀ slot ∈ rest, slot.used = false
  count : used.length = s.cache.count
  room : s.cache.slots.length = s.cache.maxEntries
  ordered : Ordered (used.map CacheSlot.pair) s.uses
  strings : (used.flatMap CacheSlot.blocks).Nodup
  past : ∀ b ∈ used.flatMap CacheSlot.blocks, b < s.cache.next

theorem keyOctets_of_hasKey {slot : CacheSlot} {key : Bytes} (h : slot.hasKey key = true) :
    slot.keyOctets = key := by
  simp only [CacheSlot.hasKey, decide_eq_true_eq, Option.map_eq_some_iff] at h
  obtain ⟨o, ho, htext⟩ := h
  simp only [CacheSlot.keyOctets, ho, Option.map_some, Option.getD_some, htext, Text.ofBytes]

theorem map_pair_fst (used : List CacheSlot) :
    (used.map CacheSlot.pair).map Prod.fst = used.map CacheSlot.keyOctets := by
  rw [List.map_map]
  rfl

section Holds

variable {s : CacheRun} {used rest : List CacheSlot}

theorem Holds.count_le (h : Holds s used rest) : s.cache.count ≤ s.cache.maxEntries := by
  rw [← h.count, ← h.room, h.slots, List.length_append]
  exact Nat.le_add_right _ _

theorem Holds.mem_held (h : Holds s used rest) (key : Bytes) :
    key ∈ s.uses.held ↔ key ∈ used.map CacheSlot.keyOctets := by
  rw [h.ordered.mem_held, map_pair_fst]

/-- A key that is not held is not found. -/
theorem Holds.findSlot_eq_none (h : Holds s used rest) {key : Bytes} (hkey : key ∉ s.uses.held) :
    findSlot s.cache key = none := by
  rw [h.mem_held] at hkey
  rw [findSlot, h.slots, List.findIdx?_eq_none_iff]
  intro slot hslot
  rcases List.mem_append.mp hslot with hslot | hslot
  · by_contra hne
    rw [Bool.not_eq_false, Bool.and_eq_true] at hne
    refine hkey ?_
    rw [← keyOctets_of_hasKey hne.2]
    exact List.mem_map_of_mem hslot
  · rw [h.free slot hslot, Bool.false_and]

/-- A key that is held is found in its slot. -/
theorem Holds.findSlot_eq_some (h : Holds s used rest) {l₁ l₂ : List CacheSlot}
    {slot : CacheSlot} (hused : used = l₁ ++ slot :: l₂) :
    findSlot s.cache slot.keyOctets = some l₁.length := by
  subst hused
  have hkeys : slot.keyOctets ∉ l₁.map CacheSlot.keyOctets := by
    have hnodup := h.ordered.keys
    rw [map_pair_fst, List.map_append, List.map_cons, List.nodup_append] at hnodup
    exact fun hmem => hnodup.2.2 _ hmem _ List.mem_cons_self rfl
  have hslot := h.filled slot (by simp)
  rw [findSlot, h.slots, List.append_assoc, List.findIdx?_append, List.findIdx?_eq_none_iff.mpr,
    List.cons_append, List.findIdx?_cons, hslot.1, hslot.2.1]
  · simp
  · intro x hx
    by_contra hne
    rw [Bool.not_eq_false, Bool.and_eq_true] at hne
    refine hkeys ?_
    rw [← keyOctets_of_hasKey hne.2]
    exact List.mem_map_of_mem hx

theorem Holds.split (h : Holds s used rest) {key : Bytes} (hkey : key ∈ s.uses.held) :
    ∃ l₁ slot l₂, used = l₁ ++ slot :: l₂ ∧ slot.keyOctets = key := by
  rw [h.mem_held] at hkey
  obtain ⟨slot, hslot, hoctets⟩ := List.mem_map.mp hkey
  obtain ⟨l₁, l₂, rfl⟩ := List.append_of_mem hslot
  exact ⟨l₁, slot, l₂, rfl, hoctets⟩

end Holds

/-! ## Copies -/

theorem map_text_entryCopy (src : MemoryEntry Text) (next : ℕ) :
    (entryCopy src next).map (·.text) = src.map scStrndup := by
  simp only [entryCopy, MemoryEntry.map, Option.map_map]
  rfl

theorem blocks_copyText (o : Option Text) (b : ℕ) :
    ((o.map (copyText b)).toList.map (·.block)).Sublist [b] := by
  cases o with
  | none => exact List.nil_sublist _
  | some t => exact List.Sublist.refl _

/-- The strings of a copy have blocks of their own. -/
theorem blocks_entryCopy (src : MemoryEntry Text) (next : ℕ) :
    ((entryCopy src next).strings.map (·.block)).Sublist (List.range' next 6) := by
  simp only [MemoryEntry.strings, entryCopy, List.map_append]
  exact (((((blocks_copyText _ _).append (blocks_copyText _ _)).append
    (blocks_copyText _ _)).append (blocks_copyText _ _)).append
    (blocks_copyText _ _)).append (blocks_copyText _ _)

/-- The slot that a put fills. -/
def frontSlot (key : Bytes) (entry : MemoryEntry Bytes) (next : ℕ) : CacheSlot :=
  ⟨some ⟨next, .ofBytes key⟩, true, entryCopy (entry.map .ofBytes) (next + 1)⟩

section Front

variable (key : Bytes) (entry : MemoryEntry Bytes) (next : ℕ)

@[simp] theorem keyOctets_frontSlot : (frontSlot key entry next).keyOctets = key := rfl

theorem pair_frontSlot :
    (frontSlot key entry next).pair = (key, (entry.map .ofBytes).map scStrndup) := by
  rw [CacheSlot.pair, keyOctets_frontSlot, frontSlot, map_text_entryCopy]

theorem filled_frontSlot : (frontSlot key entry next).Filled := by
  refine ⟨rfl, decide_eq_true rfl, ?_⟩
  rw [frontSlot, map_text_entryCopy, MemoryEntry.map_map, Function.comp_def]
  simp only [scStrndup_scStrndup]

theorem blocks_frontSlot :
    (frontSlot key entry next).blocks.Sublist (List.range' next 7) := by
  rw [List.range'_succ]
  exact (blocks_entryCopy _ _).cons_cons next

/-- What is found for a key that was put is what was put, when no string has a NUL. -/
theorem map_scStrndup_eq_iff :
    (entry.map Text.ofBytes).map scStrndup = entry.map .ofBytes ↔ ∀ t ∈ entry.strings, 0 ∉ t := by
  have hstrings : (entry.map Text.ofBytes).strings = entry.strings.map .ofBytes := by
    simp only [MemoryEntry.strings, MemoryEntry.map, Option.toList_map, List.map_append]
  rw [MemoryEntry.map_eq_self_iff, hstrings]
  simp only [List.forall_mem_map, scStrndup_ofBytes]

end Front

/-! ## One call -/

section Calls

variable {s : CacheRun} {used rest : List CacheSlot} {key : Bytes} {entry : MemoryEntry Bytes}

/-- What is looked up is what the map has. -/
theorem Holds.get (h : Holds s used rest) (key : Bytes) :
    (scMemoryCacheGet s.cache key).2.map (·.map (·.text)) = s.uses.value key := by
  by_cases hkey : key ∈ s.uses.held
  · obtain ⟨l₁, slot, l₂, hused, rfl⟩ := h.split hkey
    have hslots : s.cache.slots = l₁ ++ slot :: (l₂ ++ rest) := by
      rw [h.slots, hused, List.append_assoc, List.cons_append]
    have hvalue : s.uses.value slot.keyOctets = some (slot.entry.map (·.text)) := by
      rw [h.ordered.value, hused]
      exact List.mem_map_of_mem (f := CacheSlot.pair) (by simp)
    simp only [scMemoryCacheGet, h.findSlot_eq_some hused, hslots, moveToFront_middle,
      List.head?_cons, Option.map_some, map_text_entryCopy, hvalue]
    rw [(h.filled slot (by simp [hused])).2.2]
  · rw [scMemoryCacheGet, h.findSlot_eq_none hkey]
    refine (Option.eq_none_iff_forall_ne_some.mpr fun v hv => ?_).symm
    exact hkey ⟨v, hv⟩

theorem Holds.isLru (h : Holds s used rest) : IsLru s := by
  have htake : s.cache.slots.take s.cache.count = used := by
    rw [h.slots, ← h.count, List.take_left' rfl]
  refine ⟨?_, ?_, ?_, ?_, ?_, h.get⟩
  · rw [h.ordered.ncard_held, List.length_map, h.count]
  · exact h.count_le
  · intro i slot hi
    rw [h.slots] at hi
    rw [← h.count]
    by_cases hlt : i < used.length
    · rw [List.getElem?_append_left hlt] at hi
      exact iff_of_true (h.filled slot (List.mem_of_getElem? hi)).1 hlt
    · rw [List.getElem?_append_right (by omega)] at hi
      refine iff_of_false ?_ hlt
      rw [h.free slot (List.mem_of_getElem? hi)]
      exact Bool.false_ne_true
  · rw [htake, ← map_pair_fst]
    exact h.ordered.keys
  · rw [htake]
    exact h.strings

/-- A look-up moves a slot to the front. -/
theorem Holds.cacheGet (h : Holds s used rest) (key : Bytes) :
    ∃ used', Holds ⟨(scMemoryCacheGet s.cache key).1, s.uses.touch key⟩ used' rest := by
  by_cases hkey : key ∈ s.uses.held
  · obtain ⟨l₁, slot, l₂, rfl, rfl⟩ := h.split hkey
    have hslots : s.cache.slots = l₁ ++ slot :: (l₂ ++ rest) := by
      rw [h.slots, List.append_assoc, List.cons_append]
    have hperm : (slot :: (l₁ ++ l₂)).Perm (l₁ ++ slot :: l₂) := List.perm_middle.symm
    refine ⟨slot :: (l₁ ++ l₂), ?_⟩
    simp only [scMemoryCacheGet, h.findSlot_eq_some rfl, hslots, moveToFront_middle]
    constructor
    · simp
    · exact fun x hx => h.filled x (hperm.mem_iff.mp hx)
    · exact h.free
    · rw [hperm.length_eq]
      exact h.count
    · have := h.room
      rw [hslots] at this
      simp only [List.length_append, List.length_cons] at this ⊢
      omega
    · have hord := h.ordered
      rw [List.map_append, List.map_cons] at hord
      rw [List.map_cons, List.map_append]
      exact hord.touch
    · exact (hperm.flatMap_right _).nodup_iff.mpr h.strings
    · intro b hb
      have := h.past b ((hperm.flatMap_right _).mem_iff.mp hb)
      dsimp only
      omega
  · refine ⟨used, ?_⟩
    rw [scMemoryCacheGet, h.findSlot_eq_none hkey, Uses.touch, if_neg hkey]
    exact h

/-- A cache that is emptied. -/
theorem Holds.clear (h : Holds s used rest) :
    Holds ⟨scMemoryCacheClear s.cache, s.uses.clear⟩ [] (s.cache.slots.map slotFree) := by
  refine ⟨rfl, by simp, ?_, rfl, ?_, ordered_nil s.uses, List.nodup_nil, by simp⟩
  · simp [slotFree]
  · rw [scMemoryCacheClear, List.length_map]
    exact h.room

/-- A free slot after the used ones lets them move up, and slot `0` is filled. -/
theorem fillFront_shiftRight (cache : MemoryCache) {l m : List CacheSlot} {slot : CacheSlot}
    (hslots : cache.slots = l ++ slot :: m) (hcount : cache.count = l.length)
    (hlt : l.length + 1 < 2 ^ 64) (key : Bytes) (entry : MemoryEntry Bytes) :
    ((shiftRight cache.slots cache.count).map fun slots =>
      { cache with slots := slots }.fillFront key entry) =
    some { cache with
      slots := frontSlot key entry cache.next :: (l ++ m)
      count := l.length + 1
      next := cache.next + 7 } := by
  obtain ⟨slots, hshift, hset⟩ :=
    Option.map_eq_some_iff.mp (shiftRight_middle l m slot (frontSlot key entry cache.next))
  rw [hslots, hcount, hshift, Option.map_some, Option.some.injEq]
  simp only [MemoryCache.fillFront, Nat.mod_eq_of_lt hlt]
  rw [← hset]
  rfl

/-- Slots that become those of the map once slot `0` is filled. -/
theorem Holds.fill {cache : MemoryCache} {l m : List CacheSlot} (h : Holds s used rest)
    (hl : l.Sublist used) (hm : ∀ slot ∈ m, slot.used = false)
    (hslots : cache.slots = frontSlot key entry s.cache.next :: (l ++ m))
    (hcount : cache.count = l.length + 1) (hroom : cache.slots.length = cache.maxEntries)
    (hnext : cache.next = s.cache.next + 7) {uses : Uses Bytes (MemoryEntry Text)}
    (hord : Ordered ((key, (entry.map .ofBytes).map scStrndup) :: l.map CacheSlot.pair) uses) :
    Holds ⟨cache, uses⟩ (frontSlot key entry s.cache.next :: l) m := by
  have hfront := blocks_frontSlot key entry s.cache.next
  have hrange : ∀ b ∈ (frontSlot key entry s.cache.next).blocks,
      s.cache.next ≤ b ∧ b < s.cache.next + 7 := by
    intro b hb
    have := List.mem_range'_1.mp (hfront.subset hb)
    omega
  have hsub : (l.flatMap CacheSlot.blocks).Sublist (used.flatMap CacheSlot.blocks) :=
    List.Sublist.flatMap hl _
  constructor
  · exact hslots
  · intro slot hslot
    rcases List.mem_cons.mp hslot with rfl | hslot
    · exact filled_frontSlot key entry s.cache.next
    · exact h.filled slot (hl.subset hslot)
  · exact hm
  · exact hcount.symm
  · exact hroom
  · rw [List.map_cons, pair_frontSlot]
    exact hord
  · rw [List.flatMap_cons, List.nodup_append]
    refine ⟨hfront.nodup List.nodup_range', h.strings.sublist hsub, ?_⟩
    rintro b hb c hc rfl
    have := hrange b hb
    have := h.past b (hsub.subset hc)
    omega
  · intro b hb
    rw [List.flatMap_cons, List.mem_append] at hb
    dsimp only
    rw [hnext]
    rcases hb with hb | hb
    · exact (hrange b hb).2
    · have := h.past b (hsub.subset hb)
      omega

/-- A key that is not held goes to the front with a copy of its entry, and drives the last
slot out when the cache is full. -/
theorem Holds.put_new (h : Holds s used rest) (hpos : 0 < s.cache.maxEntries)
    (hlt : s.cache.maxEntries < 2 ^ 64) (hkey : key ∉ s.uses.held) (entry : MemoryEntry Bytes) :
    ∃ cache used' rest', scMemoryCachePut s.cache key entry = some cache ∧
      cache.maxEntries = s.cache.maxEntries ∧
      Holds ⟨cache, s.uses.put s.cache.maxEntries key ((entry.map .ofBytes).map scStrndup)⟩
        used' rest' := by
  have hkeys : key ∉ (used.map CacheSlot.pair).map Prod.fst := by
    rw [map_pair_fst, ← h.mem_held]
    exact hkey
  have hroom : used.length + rest.length = s.cache.maxEntries := by
    rw [← h.room, h.slots, List.length_append]
  by_cases hfull : s.cache.maxEntries ≤ s.cache.count
  · -- the last slot is freed first
    have hrest : rest = [] := by
      rw [← List.length_eq_zero_iff]
      have := h.count
      omega
    subst hrest
    have hne : used ≠ [] := by
      rw [← List.length_pos_iff]
      have := h.count
      omega
    obtain ⟨l, last, rfl⟩ := List.eq_nil_or_concat used |>.resolve_left hne
    rw [List.concat_eq_append] at *
    have hlen : l.length + 1 = s.cache.maxEntries := by simpa using hroom
    have hcount : l.length + 1 = s.cache.count := by simpa using h.count
    have hmodify : s.cache.slots.modify (s.cache.maxEntries - 1) slotFree =
        l ++ slotFree last :: [] := by
      rw [h.slots, List.append_nil, ← hlen, Nat.add_sub_cancel, modify_middle]
    have hsub : sizeSub s.cache.count 1 = l.length := by
      rw [sizeSub_of_le (by omega) (by omega)]
      omega
    simp only [scMemoryCachePut, h.findSlot_eq_none hkey, if_pos hfull]
    rw [fillFront_shiftRight { s.cache with
      slots := s.cache.slots.modify (s.cache.maxEntries - 1) slotFree
      count := sizeSub s.cache.count 1 } hmodify hsub (by omega)]
    refine ⟨_, _, [], rfl, rfl, h.fill (m := []) (List.sublist_append_left l [last])
      (fun _ hx => absurd hx List.not_mem_nil) rfl rfl ?_ rfl ?_⟩
    · simpa using hlen
    · rw [List.map_append] at hkeys
      have hord := h.ordered
      rw [List.map_append] at hord
      refine hord.put_evict _ hkeys ?_
      rw [List.length_map]
      omega
  · have hne : rest ≠ [] := by
      rw [← List.length_pos_iff]
      have := h.count
      omega
    obtain ⟨slot, m, rfl⟩ := List.exists_cons_of_ne_nil hne
    simp only [scMemoryCachePut, h.findSlot_eq_none hkey, if_neg hfull]
    rw [fillFront_shiftRight s.cache h.slots h.count.symm (by have := h.count; omega)]
    refine ⟨_, _, m, rfl, rfl, h.fill (List.Sublist.refl used)
      (fun x hx => h.free x (List.mem_cons_of_mem _ hx)) rfl rfl ?_ rfl ?_⟩
    · simp only [List.length_cons, List.length_append] at hroom ⊢
      omega
    · refine h.ordered.put_new _ hkeys ?_
      rw [List.length_map, h.count]
      omega

/-- A put for a key that is held leaves the count one too high. -/
theorem Holds.put_held (h : Holds s used rest) (hkey : key ∈ s.uses.held)
    {entry : MemoryEntry Bytes} {s' : CacheRun}
    (hs : cacheStep s (.put key entry) = some s') : ¬ IsLru s' := by
  obtain ⟨l₁, slot, l₂, rfl, rfl⟩ := h.split hkey
  obtain ⟨cache, hput, rfl⟩ := Option.map_eq_some_iff.mp hs
  simp only [scMemoryCachePut, h.findSlot_eq_some rfl, Option.some.injEq] at hput
  subst hput
  have hord := h.ordered
  rw [List.map_append, List.map_cons] at hord
  intro hlru
  have hcount := hlru.count
  have hold := h.count
  rw [(hord.put_replace s.cache.maxEntries (entry.map .ofBytes)).ncard_held] at hcount
  simp only [MemoryCache.fillFront, List.length_cons, List.length_append,
    List.length_map] at hcount hold
  omega

/-- An invalidation of the key that was used before all others. -/
theorem Holds.invalidate (h : Holds s used rest) (hlt : s.cache.maxEntries < 2 ^ 64)
    (hold : key ∈ s.uses.held → s.uses.Oldest key) :
    ∃ cache used' rest', scMemoryCacheInvalidate s.cache key = some cache ∧
      cache.maxEntries = s.cache.maxEntries ∧ Holds ⟨cache, s.uses.erase key⟩ used' rest' := by
  by_cases hkey : key ∈ s.uses.held
  · have hne : used ≠ [] := by
      rintro rfl
      exact List.not_mem_nil ((h.mem_held key).mp hkey)
    obtain ⟨l, last, rfl⟩ := List.eq_nil_or_concat used |>.resolve_left hne
    rw [List.concat_eq_append] at *
    have hord := h.ordered
    rw [List.map_append, List.map_singleton] at hord
    obtain rfl : key = last.keyOctets := (hord.oldest_iff key).mp (hold hkey)
    have hcount : l.length + 1 = s.cache.count := by simpa using h.count
    have hle := h.count_le
    have hone : sizeSub s.cache.count l.length = 1 := by
      rw [sizeSub_of_le (by omega) (by omega)]
      omega
    have hpred : sizeSub s.cache.count 1 = l.length := by
      rw [sizeSub_of_le (by omega) (by omega)]
      omega
    have hmodify : s.cache.slots.modify l.length slotFree = l ++ slotFree last :: rest := by
      rw [h.slots, List.append_assoc, List.singleton_append, modify_middle]
    have hsub : l.Sublist (l ++ [last]) := List.sublist_append_left l [last]
    simp only [scMemoryCacheInvalidate, h.findSlot_eq_some rfl, hone, shiftLeft_one,
      Option.map_some, hmodify, hpred]
    refine ⟨_, l, slotFree last :: rest, rfl, rfl, ⟨rfl, ?_, ?_, rfl, ?_, ?_, ?_, ?_⟩⟩
    · exact fun slot hslot => h.filled slot (hsub.subset hslot)
    · intro slot hslot
      rcases List.mem_cons.mp hslot with rfl | hslot
      · rfl
      · exact h.free slot hslot
    · rw [← h.room, h.slots]
      simp
    · have := hord.erase
      rwa [List.append_nil] at this
    · exact h.strings.sublist (List.Sublist.flatMap hsub _)
    · exact fun b hb => h.past b ((List.Sublist.flatMap hsub _).subset hb)
  · refine ⟨s.cache, used, rest, ?_, rfl, ?_⟩
    · rw [scMemoryCacheInvalidate, h.findSlot_eq_none hkey]
    · refine ⟨h.slots, h.filled, h.free, h.count, h.room, ?_, h.strings, h.past⟩
      refine h.ordered.erase_of_notMem ?_
      rw [map_pair_fst, ← h.mem_held]
      exact hkey

/-- An invalidation of another key leaves the last slot used after its copy moved down. -/
theorem Holds.invalidate_middle (h : Holds s used rest) (hlt : s.cache.maxEntries < 2 ^ 64)
    (hkey : key ∈ s.uses.held) (hold : ¬ s.uses.Oldest key) {s' : CacheRun}
    (hs : cacheStep s (.invalidate key) = some s') : ¬ IsLru s' := by
  obtain ⟨l₁, slot, l₂, rfl, rfl⟩ := h.split hkey
  have hne : l₂ ≠ [] := by
    rintro rfl
    have hord := h.ordered
    rw [List.map_append, List.map_singleton] at hord
    exact hold ((hord.oldest_iff _).mpr rfl)
  obtain ⟨l, last, rfl⟩ := List.eq_nil_or_concat l₂ |>.resolve_left hne
  rw [List.concat_eq_append] at *
  have hcount : l₁.length + (l.length + 2) = s.cache.count := by
    rw [← h.count]
    simp
  have hle := h.count_le
  have hsize : sizeSub s.cache.count l₁.length = l.length + 2 := by
    rw [sizeSub_of_le (by omega) (by omega)]
    omega
  have hpred : sizeSub s.cache.count 1 = l₁.length + (l.length + 1) := by
    rw [sizeSub_of_le (by omega) (by omega)]
    omega
  have hmodify : s.cache.slots.modify l₁.length slotFree =
      l₁ ++ slotFree slot :: (l ++ last :: rest) := by
    rw [h.slots, List.append_assoc, List.cons_append, List.append_assoc, List.singleton_append,
      modify_middle]
  obtain ⟨cache, hinv, rfl⟩ := Option.map_eq_some_iff.mp hs
  simp only [scMemoryCacheInvalidate, h.findSlot_eq_some rfl, hsize, hmodify, shiftLeft_middle,
    Option.map_some, hpred, Option.some.injEq] at hinv
  subst hinv
  intro hlru
  have hused := hlru.used (l₁.length + (l.length + 1)) last (by
    rw [List.getElem?_append_right (by simp)]
    simp)
  rw [(h.filled last (by simp)).1] at hused
  simp at hused

end Calls

/-! ## Every sequence of calls -/

/-- The slots of a cache hold its map, and there is room for one at least. -/
def Sound (s : CacheRun) : Prop :=
  (∃ used rest, Holds s used rest) ∧ 0 < s.cache.maxEntries ∧ s.cache.maxEntries < 2 ^ 64

theorem Sound.step {s : CacheRun} (h : Sound s) {op : CacheOp} (hop : KeepsOrder s op) :
    ∃ s', cacheStep s op = some s' ∧ Sound s' := by
  obtain ⟨⟨used, rest, h⟩, hpos, hlt⟩ := h
  cases op with
  | put key entry =>
    obtain ⟨cache, used', rest', hput, hmax, h'⟩ := h.put_new hpos hlt hop.1 entry
    rw [(map_scStrndup_eq_iff entry).mpr hop.2] at h'
    refine ⟨_, by rw [cacheStep, hput, Option.map_some], ⟨used', rest', h'⟩, ?_, ?_⟩
    · dsimp only
      omega
    · dsimp only
      omega
  | get key =>
    obtain ⟨used', h'⟩ := h.cacheGet key
    refine ⟨_, rfl, ⟨used', rest, h'⟩, ?_⟩
    simp only [scMemoryCacheGet]
    split <;> exact ⟨hpos, hlt⟩
  | invalidate key =>
    obtain ⟨cache, used', rest', hinv, hmax, h'⟩ := h.invalidate hlt hop
    refine ⟨_, by rw [cacheStep, hinv, Option.map_some], ⟨used', rest', h'⟩, ?_, ?_⟩
    · dsimp only
      omega
    · dsimp only
      omega
  | clear => exact ⟨_, rfl, ⟨[], _, h.clear⟩, hpos, hlt⟩

theorem Sound.breaks {s : CacheRun} (h : Sound s) {op : CacheOp} {s' : CacheRun}
    (hs : cacheStep s op = some s') (hop : ¬ KeepsOrder s op) : ¬ IsLru s' := by
  obtain ⟨⟨used, rest, h⟩, hpos, hlt⟩ := h
  cases op with
  | put key entry =>
    by_cases hkey : key ∈ s.uses.held
    · exact h.put_held hkey hs
    · -- the copy of a string ends at its NUL
      have hcopy : (entry.map Text.ofBytes).map scStrndup ≠ entry.map .ofBytes :=
        fun heq => hop ⟨hkey, (map_scStrndup_eq_iff entry).mp heq⟩
      obtain ⟨cache, used', rest', hput, -, h'⟩ := h.put_new hpos hlt hkey entry
      rw [cacheStep, hput, Option.map_some, Option.some.injEq] at hs
      subst hs
      intro hlru
      have hget := hlru.get key
      rw [h'.get key] at hget
      rw [Uses.value_put_self, Uses.value_put_self] at hget
      exact hcopy (Option.some.inj hget)
  | get key => exact absurd trivial hop
  | invalidate key =>
    simp only [KeepsOrder, Classical.not_imp] at hop
    exact h.invalidate_middle hlt hop.1 hop.2 hs
  | clear => exact absurd trivial hop

/-- A cache that was created is empty, as its map. -/
theorem sound_create {maxEntries : ℕ} {cache : MemoryCache}
    (h : scMemoryCacheCreate maxEntries = some cache) (hlt : maxEntries < 2 ^ 64) :
    Sound ⟨cache, Uses.empty⟩ := by
  rw [scMemoryCacheCreate] at h
  split_ifs at h with hzero
  obtain rfl := Option.some.inj h
  refine ⟨⟨[], List.replicate maxEntries .zero, ?_⟩, Nat.pos_of_ne_zero hzero, hlt⟩
  refine ⟨rfl, by simp, ?_, rfl, List.length_replicate, ordered_empty, List.nodup_nil, by simp⟩
  intro slot hslot
  rw [List.eq_of_mem_replicate hslot]
  rfl

/-- From its creation on, a cache is the map of recent uses in every state exactly when every
put brings a new key with strings without a NUL and only the oldest key is invalidated. -/
theorem cache_isLru_iff {maxEntries : ℕ} {cache : MemoryCache}
    (h : scMemoryCacheCreate maxEntries = some cache) (hlt : maxEntries < 2 ^ 64)
    (ops : List CacheOp) :
    Machine.Throughout cacheStep IsLru ⟨cache, Uses.empty⟩ ops ↔
      Machine.EveryStep cacheStep KeepsOrder ⟨cache, Uses.empty⟩ ops :=
  Machine.throughout_iff_everyStep_of_keeps (I := Sound)
    (fun _ ⟨⟨_, _, hs⟩, _⟩ => hs.isLru) (fun _ _ hs hop => hs.step hop)
    (fun _ _ _ hs hstep hop => hs.breaks hstep hop)
    (sound_create h hlt) ops

/-- An entry with the given content. -/
def noteEntry (content : Bytes) : MemoryEntry Bytes :=
  ⟨none, none, some content, ⟨.core, none⟩, none, none, .round false 0⟩

/-- Two keys, one of which is looked up. -/
theorem cache_isLru_pair :
    Machine.Throughout cacheStep IsLru ⟨⟨List.replicate 2 .zero, 2, 0, 0⟩, Uses.empty⟩
      [.put (ascii "x") (noteEntry (ascii "val")), .get (ascii "x")] := by
  refine (@cache_isLru_iff 2 _ rfl (by norm_num) _).mpr ?_
  refine ⟨⟨?_, ?_⟩, fun _ _ => ⟨trivial, fun _ _ => trivial⟩⟩
  · rintro ⟨v, hv⟩
    exact absurd hv nofun
  · decide

/-- A key that is put twice counts for two. -/
theorem cache_counts_twice :
    ¬ Machine.Throughout cacheStep IsLru ⟨⟨List.replicate 2 .zero, 2, 0, 0⟩, Uses.empty⟩
      [.put (ascii "x") (noteEntry (ascii "val")), .put (ascii "x") (noteEntry (ascii "new"))] := by
  have hsound := @sound_create 2 _ rfl (by norm_num)
  rintro ⟨-, s₁, h₁, -, s₂, h₂, hlru⟩
  have hfresh : KeepsOrder ⟨⟨List.replicate 2 .zero, 2, 0, 0⟩, Uses.empty⟩
      (.put (ascii "x") (noteEntry (ascii "val"))) := by
    refine ⟨?_, by decide⟩
    rintro ⟨v, hv⟩
    exact absurd hv nofun
  obtain ⟨s, hs, hs₁⟩ := hsound.step hfresh
  obtain rfl : s = s₁ := Option.some.inj (hs.symm.trans h₁)
  refine hs₁.breaks h₂ (fun hop => hop.1 ?_) hlru
  simp only [cacheStep, Option.map_eq_some_iff] at h₁
  obtain ⟨cache, -, rfl⟩ := h₁
  exact Uses.mem_held_put_self _ _ _ _

end SeaClaw.Memory
