import SeaClaw.Memory.LruRefines

/-!
# Runs of the LRU engine

What each call does to the entries that stand for the map, and from it every sequence of calls
on an engine that was just created.
-/

namespace SeaClaw.Memory

open SeaClaw.Lib SeaClaw.Lib.LinkedList SeaClaw.Lib.Lru

/-! ## Calls on the two structures -/

section Calls

variable {mem : LruMemory} {l l₁ l₂ : List ℕ} {es es₁ es₂ : List LruEntry} {e : LruEntry} {a : ℕ}

/-- The search finds the address at the place of the entry. -/
theorem Linked.findEntry_split (h : Linked mem (l₁ ++ a :: l₂) (es₁ ++ e :: es₂))
    (hlen : l₁.length = es₁.length) : findEntry mem e.key.octets = some (some a) := by
  obtain ⟨-, ⟨n, hn, rfl⟩, -⟩ := h.entries_split hlen
  have hkey : n.data.key = n.key := rfl
  rw [hkey]
  exact h.findEntry_eq_some (by simp) hn

/-- A look-up of a key that is held. -/
theorem Linked.implGet (h : Linked mem (l₁ ++ a :: l₂) (es₁ ++ e :: es₂))
    (hlen : l₁.length = es₁.length) (hname : ¬ NameLost e.category) :
    ∃ mem', implGet mem e.key.octets = some (mem', some (shown e)) ∧
      Linked mem' (a :: (l₁ ++ l₂))
        ({ e with lastAccess := (mem.accessCounter + 1) % 2 ^ 64 } :: (es₁ ++ es₂)) ∧
      mem'.count = mem.count ∧ mem'.maxEntries = mem.maxEntries ∧
      mem'.accessCounter = (mem.accessCounter + 1) % 2 ^ 64 := by
  obtain ⟨-, ⟨n, hn, rfl⟩, -⟩ := h.entries_split hlen
  obtain ⟨mem', hfront, hlinked, hcounts⟩ := h.refresh hlen hn
    { n with lastAccess := (mem.accessCounter + 1) % 2 ^ 64 } rfl rfl rfl rfl
  obtain ⟨-, ⟨m, hm, hdata⟩, -⟩ := Linked.entries_split
    (show Linked mem' ([] ++ a :: (l₁ ++ l₂)) ([] ++ _ :: (es₁ ++ es₂)) from hlinked) rfl
  have hout : entryOut m = some (shown n) := by
    have hlost : ¬ NameLost m.data.category := by
      rw [hdata]
      exact hname
    calc entryOut m = some (shown m.data) := entryOut_eq (e := m) hlost
      _ = some (shown n) := by rw [hdata]; rfl
  refine ⟨mem', ?_, hlinked, hcounts⟩
  have hfind := h.findEntry_split hlen
  rw [Memory.implGet, hfind, Option.bind_some]
  simp only [hn, Option.bind_some]
  have hfront' : Memory.toFront ((Memory.nextAccess mem).write a
      { n with lastAccess := (Memory.nextAccess mem).accessCounter }) a = some mem' := hfront
  rw [hfront', Option.bind_some, hm, Option.bind_some, hout]
  rfl

/-- The entry of a key that is stored again. -/
def restored (e : LruEntry) (content : CString) (category : MemoryCategory NameBlock)
    (sessionId : Option Bytes) (now : ℤ) (access : ℕ) : LruEntry :=
  { e with
    content := content
    updatedAt := nowTimestamp now
    category := category
    sessionId := storedSession sessionId
    lastAccess := access }

theorem ofBytes_octets (s : CString) : CString.ofBytes s.octets = s :=
  CString.ext (CString.octets_ofBytes.mpr s.noNul)

/-- A store for a key that is held. -/
theorem Linked.implStore_held (h : Linked mem (l₁ ++ a :: l₂) (es₁ ++ e :: es₂))
    (hlen : l₁.length = es₁.length) {freed : MemoryCategory NameBlock}
    (hfree : freeName e.category = some freed) (content : CString) (c : MemoryCategory Bytes)
    (sessionId : Option Bytes) (now : ℤ) :
    ∃ mem', implStore mem e.key.octets content.octets (some c) sessionId now = some mem' ∧
      Linked mem' (a :: (l₁ ++ l₂)) (restored e content (dupCategory c freed) sessionId now
        ((mem.accessCounter + 1) % 2 ^ 64) :: (es₁ ++ es₂)) ∧
      mem'.count = mem.count ∧ mem'.maxEntries = mem.maxEntries ∧
      mem'.accessCounter = (mem.accessCounter + 1) % 2 ^ 64 := by
  obtain ⟨-, ⟨n, hn, rfl⟩, -⟩ := h.entries_split hlen
  obtain ⟨mem', hfront, hlinked, hcounts⟩ := h.refresh hlen hn
    (restored n content (dupCategory c freed) sessionId now
      ((mem.accessCounter + 1) % 2 ^ 64)) rfl rfl rfl rfl
  refine ⟨mem', ?_, hlinked, hcounts⟩
  have hfind := h.findEntry_split hlen
  have hfree' : freeName n.category = some freed := hfree
  rw [implStore, hfind, Option.bind_some]
  simp only [hn, hfree', Option.bind_some, ofBytes_octets]
  exact hfront

/-- A key that is held is forgotten. -/
theorem Linked.implForget (h : Linked mem (l₁ ++ a :: l₂) (es₁ ++ e :: es₂))
    (hlen : l₁.length = es₁.length) (hname : ¬ NameLost e.category) :
    ∃ mem', implForget mem e.key.octets = some (mem', true) ∧
      Linked mem' (l₁ ++ l₂) (es₁ ++ es₂) ∧ mem'.count = Lib.sizeSub mem.count 1 ∧
      mem'.maxEntries = mem.maxEntries ∧ mem'.accessCounter = mem.accessCounter := by
  obtain ⟨mem', hdrop, hlinked⟩ := h.dropEntry hlen (freeName_isSome hname)
  obtain ⟨-, ⟨n, hn, rfl⟩, -⟩ := h.entries_split hlen
  have hfind := h.findEntry_split hlen
  refine ⟨mem', ?_, hlinked⟩
  rw [Memory.implForget, hfind, Option.bind_some]
  simp only [hdrop, Option.map_some]

/-- The last entry of the list is evicted. -/
theorem Linked.evictLru (h : Linked mem (l ++ [a]) (es ++ [e])) (hlen : l.length = es.length)
    (hname : ¬ NameLost e.category) :
    ∃ mem', evictLru mem = some mem' ∧ Linked mem' l es ∧
      mem'.count = Lib.sizeSub mem.count 1 ∧ mem'.maxEntries = mem.maxEntries ∧
      mem'.accessCounter = mem.accessCounter := by
  obtain ⟨mem', hdrop, hlinked, hcounts⟩ := h.dropEntry hlen (freeName_isSome hname)
  obtain ⟨-, ⟨n, hn, rfl⟩, -⟩ := h.entries_split hlen
  rw [List.append_nil, List.append_nil] at hlinked
  have htail : mem.lruTail = some a := by
    have hback := h.doubly.backward.head_eq
    rwa [List.reverse_append, List.reverse_singleton, List.singleton_append,
      List.head?_cons] at hback
  refine ⟨mem', ?_, hlinked, hcounts⟩
  simp only [Memory.evictLru, htail, hn, Option.bind_some]
  exact hdrop

/-- There is room for one more entry after the loop, which evicts the last one of a full
engine. -/
theorem Linked.evictWhileFull (h : Linked mem l es) (hcount : mem.count = l.length)
    (hbound : l.length ≤ mem.maxEntries) (hpos : 0 < mem.maxEntries)
    (hname : ∀ e ∈ es, ¬ NameLost e.category) :
    ∃ mem' l' es', evictWhileFull (mem.count + 1) mem = some mem' ∧ Linked mem' l' es' ∧
      mem'.count = l'.length ∧ l'.length < mem'.maxEntries ∧ mem'.maxEntries = mem.maxEntries ∧
      mem'.accessCounter = mem.accessCounter ∧
      ((es.length < mem.maxEntries ∧ es' = es) ∨
        mem.maxEntries ≤ es'.length + 1 ∧ ∃ e, es = es' ++ [e]) := by
  have hlen := h.length_eq
  by_cases hfull : mem.maxEntries ≤ mem.count
  · have hne : es ≠ [] := by
      rw [← List.length_pos_iff]
      omega
    obtain ⟨es', e, rfl⟩ := List.eq_nil_or_concat es |>.resolve_left hne
    rw [List.concat_eq_append] at *
    obtain ⟨l', a, l₂, rfl, hlen'⟩ := h.split
    obtain rfl : l₂ = [] := by
      rw [← List.length_eq_zero_iff]
      simp only [List.length_append, List.length_cons, List.length_nil] at hlen
      omega
    obtain ⟨mem', hevict, hlinked, hcount', hmax, hcounter⟩ := h.evictLru hlen' (hname e (by simp))
    rw [List.length_append, List.length_singleton] at hcount hbound
    rw [Lib.sizeSub_of_le (by omega)] at hcount'
    refine ⟨mem', l', es', ?_, hlinked, by omega, by omega, hmax, hcounter, Or.inr ⟨by omega, e, rfl⟩⟩
    have hstop : ¬ mem'.maxEntries ≤ mem'.count := by omega
    rw [Memory.evictWhileFull, if_pos hfull, hevict, Option.bind_some, hcount,
      Memory.evictWhileFull, if_neg hstop]
  · refine ⟨mem, l, es, ?_, h, hcount, by omega, rfl, rfl, Or.inl ⟨by omega, rfl⟩⟩
    rw [Memory.evictWhileFull, if_neg hfull]

end Calls

/-! ## Calls with the map -/

section Steps

variable {s : LruRun} {l l' l₁ l₂ : List ℕ} {es es' es₁ es₂ : List LruEntry} {e : LruEntry} {a : ℕ}
  {key : CString}

/-- An entry that is used now in front of some of the entries. -/
theorem Represents.front (h : Represents s l es) (hsub : es'.Sublist es) {mem' : LruMemory}
    {uses : Uses CString (MemoryEntry Bytes)} (hlinked : Linked mem' (a :: l') (e :: es'))
    (hcount : mem'.count = l'.length + 1) (hbound : l'.length + 1 ≤ mem'.maxEntries)
    (hord : Ordered ((e :: es').map LruEntry.pair) uses) (hname : ¬ NameLost e.category)
    (haccess : e.lastAccess = (s.mem.accessCounter + 1) % 2 ^ 64)
    (hcounter : mem'.accessCounter = (s.mem.accessCounter + 1) % 2 ^ 64)
    (hused : uses.used = Function.update s.uses.used e.key (s.uses.time + 1))
    (htime : uses.time = s.uses.time + 1)
    (habove : ∀ f ∈ es', s.uses.used f.key % 2 ^ 64 < (s.uses.time + 1) % 2 ^ 64) :
    Represents ⟨mem', uses⟩ (a :: l') (e :: es') := by
  have hnext : (s.mem.accessCounter + 1) % 2 ^ 64 = (s.uses.time + 1) % 2 ^ 64 := by
    rw [h.counter, Nat.mod_add_mod]
  have hkeys := hlinked.distinct
  rw [List.map_cons, List.nodup_cons] at hkeys
  refine ⟨hlinked, hcount, hbound, hord, ?_, ?_, ?_, ?_⟩
  · intro f hf
    rcases List.mem_cons.mp hf with rfl | hf
    · exact hname
    · exact h.named f (hsub.subset hf)
  · intro f hf
    dsimp only
    rcases List.mem_cons.mp hf with rfl | hf
    · rw [hused, Function.update_self, haccess, hnext]
    · have hne : f.key ≠ e.key := fun heq => hkeys.1 (heq ▸ List.mem_map_of_mem hf)
      rw [hused, Function.update_of_ne hne, h.access f (hsub.subset hf)]
  · dsimp only
    rw [hcounter, htime, hnext]
  · refine List.pairwise_cons.mpr ⟨fun f hf => ?_, h.recent.sublist hsub⟩
    rw [haccess, hnext, h.access f (hsub.subset hf)]
    exact habove f hf

/-- The numbers of the entries that stay are below that of the use. -/
theorem Represents.above (h : Represents s l es) (hsub : es'.Sublist es)
    (habove : NumbersAbove s key) (hkey : key ∉ es'.map LruEntry.key)
    (hstay : ∀ f ∈ es', ¬ s.uses.Evicts s.mem.maxEntries key f.key) :
    ∀ f ∈ es', s.uses.used f.key % 2 ^ 64 < (s.uses.time + 1) % 2 ^ 64 := by
  intro f hf
  refine habove f.key ?_ ?_ (hstay f hf)
  · exact h.mem_held.mpr (List.mem_map_of_mem (hsub.subset hf))
  · rintro rfl
    exact hkey (List.mem_map_of_mem hf)

theorem sublist_middle (es₁ es₂ : List LruEntry) (e : LruEntry) :
    (es₁ ++ es₂).Sublist (es₁ ++ e :: es₂) :=
  List.Sublist.append_left (List.sublist_cons_self _ _) _

/-- A look-up of a key that is held. -/
theorem Represents.get_held (h : Represents s l es) (hkey : key ∈ s.uses.held)
    (habove : NumbersAbove s key) : ∃ mem' v l' es', implGet s.mem key.octets = some (mem', v) ∧
      mem'.maxEntries = s.mem.maxEntries ∧ Represents ⟨mem', s.uses.touch key⟩ l' es' := by
  obtain ⟨es₁, e, es₂, l₁, a, l₂, rfl, rfl, hlen, rfl⟩ := h.split hkey
  obtain ⟨mem', hget, hlinked, hcount, hmax, hcounter⟩ :=
    h.linked.implGet hlen (h.named e (by simp))
  have hord := h.ordered
  rw [List.map_append, List.map_cons] at hord
  have hcount' := h.count
  have hbound' := h.bound
  simp only [List.length_append, List.length_cons] at hcount' hbound'
  refine ⟨mem', _, _, _, hget, hmax, h.front (sublist_middle _ _ _) hlinked ?_ ?_ ?_
    (h.named e (by simp)) rfl hcounter ?_ ?_ ?_⟩
  · rw [hcount, List.length_append]
    omega
  · rw [hmax, List.length_append]
    omega
  · have htouch := hord.touch
    rw [← List.map_append] at htouch
    exact htouch
  · simp only [Uses.touch, if_pos hkey]
  · simp only [Uses.touch, if_pos hkey]
  · exact h.above (sublist_middle _ _ _) habove h.key_ne fun _ _ hev => hev.1 hkey

theorem shown_restored {c : MemoryCategory Bytes} {freed : MemoryCategory NameBlock}
    (hc : c.tag = .custom → c.name = none → freed.name = none) (content : CString)
    (sessionId : Option Bytes) (now : ℤ) (access : ℕ) :
    shown (restored e content (dupCategory c freed) sessionId now access) =
      stored e.key content (some c) sessionId now := by
  obtain ⟨-, htag, hname⟩ := dupCategory_not_lost hc
  have hcategory : (shown (restored e content (dupCategory c freed) sessionId now access)).category =
      readBack (some c) := by
    simp only [shown, restored, readBack, htag]
    congr 1
    split
    · next h => exact hname h
    · rfl
  exact MemoryEntry.ext rfl rfl rfl hcategory rfl rfl rfl

/-- A store for a key that is held. -/
theorem Represents.store_held (h : Represents s l es) (hkey : key ∈ s.uses.held)
    {c : MemoryCategory Bytes} (hc : c.tag = .custom → c.name = none → NeverNamed s key)
    (habove : NumbersAbove s key) (content : CString) (sessionId : Option Bytes) (now : ℤ) :
    ∃ mem' l' es', implStore s.mem key.octets content.octets (some c) sessionId now = some mem' ∧
      mem'.maxEntries = s.mem.maxEntries ∧ Represents ⟨mem', s.uses.put s.mem.maxEntries key
        (stored key content (some c) sessionId now)⟩ l' es' := by
  obtain ⟨es₁, e, es₂, l₁, a, l₂, rfl, rfl, hlen, rfl⟩ := h.split hkey
  obtain ⟨freed, hfree⟩ := Option.isSome_iff_exists.mp (freeName_isSome (h.named e (by simp)))
  have hname : c.tag = .custom → c.name = none → freed.name = none := by
    intro htag hnone
    obtain ⟨-, ⟨n, hn, hdata⟩, -⟩ := h.linked.entries_split hlen
    have hfind := h.linked.findEntry_split hlen
    have hnever : e.category.name = none := by
      rw [← hdata]
      exact hc htag hnone a n hfind hn
    by_contra hne
    obtain ⟨block, hblock⟩ := Option.ne_none_iff_exists'.mp hne
    obtain ⟨b, hb⟩ := (freeName_name hfree).mp ⟨block, hblock⟩
    rw [hnever] at hb
    exact absurd hb nofun
  obtain ⟨mem', hstore, hlinked, hcount, hmax, hcounter⟩ :=
    h.linked.implStore_held hlen hfree content c sessionId now
  have hord := h.ordered
  rw [List.map_append, List.map_cons] at hord
  have hcount' := h.count
  have hbound' := h.bound
  simp only [List.length_append, List.length_cons] at hcount' hbound'
  refine ⟨mem', _, _, hstore, hmax, h.front (sublist_middle _ _ _) hlinked ?_ ?_ ?_
    (dupCategory_not_lost hname).1 rfl hcounter rfl rfl ?_⟩
  · rw [hcount, List.length_append]
    omega
  · rw [hmax, List.length_append]
    omega
  · have hput := hord.put_replace s.mem.maxEntries (stored e.key content (some c) sessionId now)
    rw [← List.map_append] at hput
    rw [List.map_cons, LruEntry.pair, shown_restored hname]
    exact hput
  · exact h.above (sublist_middle _ _ _) habove h.key_ne fun _ _ hev => hev.1 hkey

/-- A store for a new key. -/
theorem Represents.store_new (h : Represents s l es) (hkey : key ∉ s.uses.held)
    (hpos : 0 < s.mem.maxEntries) (hlt : s.mem.maxEntries < 2 ^ 64) (c : MemoryCategory Bytes)
    (habove : NumbersAbove s key) (content : CString) (sessionId : Option Bytes) (now : ℤ) :
    ∃ mem' l' es', implStore s.mem key.octets content.octets (some c) sessionId now = some mem' ∧
      mem'.maxEntries = s.mem.maxEntries ∧ Represents ⟨mem', s.uses.put s.mem.maxEntries key
        (stored key content (some c) sessionId now)⟩ l' es' := by
  have hnotin : key ∉ es.map LruEntry.key := fun hmem => hkey (h.mem_held.mpr hmem)
  obtain ⟨mem₁, l₁, es₁, hevict, hlinked₁, hcount₁, hroom, hmax₁, hcounter₁, hcases⟩ :=
    h.linked.evictWhileFull h.count h.bound hpos h.named
  have hsub : es₁.Sublist es := by
    rcases hcases with ⟨-, rfl⟩ | ⟨-, e, rfl⟩
    · exact List.Sublist.refl _
    · exact List.sublist_append_left _ _
  have hnotin₁ : key ∉ es₁.map LruEntry.key := fun hmem => hnotin ((hsub.map _).subset hmem)
  obtain ⟨mem', hinsert, hlinked, hcount, hmax, hcounter⟩ :=
    hlinked₁.insertEntry hnotin₁ c sessionId now
  have hnew : ∀ access, newEntry key.octets content.octets c sessionId now access =
      restored (newEntry key.octets content.octets c sessionId now access) content
        (dupCategory c ⟨.core, none⟩) sessionId now access := by
    intro access
    simp only [newEntry, restored, ofBytes_octets]
  have hshown : ∀ access, shown (newEntry key.octets content.octets c sessionId now access) =
      stored key content (some c) sessionId now := by
    intro access
    rw [hnew, shown_restored fun _ _ => rfl]
    simp only [newEntry, ofBytes_octets]
  have hpair : ∀ access, (newEntry key.octets content.octets c sessionId now access).pair =
      (key, stored key content (some c) sessionId now) := by
    intro access
    rw [LruEntry.pair, hshown]
    simp only [newEntry, ofBytes_octets]
  rw [hcounter₁] at hcounter
  refine ⟨mem', _, _, ?_, hmax.trans hmax₁, h.front hsub hlinked ?_ ?_ ?_
    (dupCategory_not_lost fun _ _ => rfl).1 ?_ hcounter ?_ rfl ?_⟩
  · have hne : s.mem.maxEntries ≠ 0 := by omega
    rw [implStore, h.linked.findEntry_eq_none hnotin, Option.bind_some]
    simp only [if_neg hne, hevict, Option.bind_some]
    exact hinsert
  · rw [hcount, hcount₁, Nat.mod_eq_of_lt (by omega)]
  · omega
  · rw [List.map_cons, hpair]
    rw [← map_pair_fst'] at hnotin
    rcases hcases with ⟨hlt', rfl⟩ | ⟨hfull, e, rfl⟩
    · refine h.ordered.put_new _ hnotin ?_
      rwa [List.length_map]
    · have hord := h.ordered
      rw [List.map_append] at hord hnotin
      refine hord.put_evict _ hnotin ?_
      rwa [List.length_map]
  · simp only [newEntry, hcounter₁]
  · simp only [newEntry, ofBytes_octets]
    rfl
  · refine h.above hsub habove hnotin₁ fun f hf hev => ?_
    have hold := hev.2.1
    rw [h.ordered.ncard_held, List.length_map] at hold
    rcases hcases with ⟨hlt', -⟩ | ⟨-, e, rfl⟩
    · omega
    · have hord := h.ordered
      rw [List.map_append, List.map_singleton] at hord
      have heq : f.key = e.key := (hord.oldest_iff f.key).mp hev.2.2
      have hkeys := h.linked.distinct
      rw [List.map_append, List.map_singleton, List.nodup_append] at hkeys
      exact hkeys.2.2 f.key (List.mem_map_of_mem hf) e.key (List.mem_singleton_self _) heq

/-- A key that is held is forgotten. -/
theorem Represents.forget_held (h : Represents s l es) (hkey : key ∈ s.uses.held) :
    ∃ mem' l' es', implForget s.mem key.octets = some (mem', true) ∧
      mem'.maxEntries = s.mem.maxEntries ∧ Represents ⟨mem', s.uses.erase key⟩ l' es' := by
  obtain ⟨es₁, e, es₂, l₁, a, l₂, rfl, rfl, hlen, rfl⟩ := h.split hkey
  obtain ⟨mem', hforget, hlinked, hcount, hmax, hcounter⟩ :=
    h.linked.implForget hlen (h.named e (by simp))
  have hord := h.ordered
  rw [List.map_append, List.map_cons] at hord
  have hcount' := h.count
  have hbound' := h.bound
  simp only [List.length_append, List.length_cons] at hcount' hbound'
  have hsub := sublist_middle es₁ es₂ e
  refine ⟨mem', l₁ ++ l₂, es₁ ++ es₂, hforget, hmax, hlinked, ?_, ?_, ?_, ?_, ?_, ?_, ?_⟩
  · dsimp only
    rw [hcount, Lib.sizeSub_of_le (by omega), List.length_append]
    omega
  · dsimp only
    rw [hmax, List.length_append]
    omega
  · have herase := hord.erase
    rwa [← List.map_append] at herase
  · exact fun f hf => h.named f (hsub.subset hf)
  · exact fun f hf => h.access f (hsub.subset hf)
  · exact hcounter.trans h.counter
  · exact h.recent.sublist hsub

/-- A look-up of any key, whatever the numbers of the uses are. -/
theorem Represents.lookup (h : Represents s l es) (key : CString) :
    (implGet s.mem key.octets).map Prod.snd = some (s.uses.value key) := by
  by_cases hkey : key ∈ s.uses.held
  · obtain ⟨es₁, e, es₂, l₁, a, l₂, rfl, rfl, hlen, rfl⟩ := h.split hkey
    obtain ⟨mem', hget, -⟩ := h.linked.implGet hlen (h.named e (by simp))
    have hvalue : s.uses.value e.key = some (shown e) := by
      rw [h.ordered.value]
      exact List.mem_map_of_mem (f := LruEntry.pair) (by simp)
    rw [hget, hvalue, Option.map_some]
  · have hnotin : key ∉ es.map LruEntry.key := fun hmem => hkey (h.mem_held.mpr hmem)
    have hvalue : s.uses.value key = none :=
      h.ordered.value_eq_none (by rwa [map_pair_fst'])
    rw [Memory.implGet, h.linked.findEntry_eq_none hnotin, hvalue]
    rfl

/-- An engine that stands for its map is as it has to be. -/
theorem Represents.isLruEngine (h : Represents s l es) : IsLruEngine s := by
  have hin : ∀ a, InBuckets s.mem a ↔ a ∈ l := fun a => h.linked.inBuckets_iff
  constructor
  · intro a
    rw [hin]
    exact h.linked.doubly.forward.reach_iff a
  · intro a
    rw [hin, ← List.mem_reverse]
    exact h.linked.doubly.backward.reach_iff a
  · intro a ha
    obtain ⟨n, hn, -⟩ := h.linked.entry ((hin a).mp ha)
    exact ⟨n, hn⟩
  · intro a b e f ha hb he hf hkey
    exact h.linked.eq_of_key ((hin a).mp ha) ((hin b).mp hb) he hf hkey
  · intro k
    constructor
    · intro hk
      obtain ⟨es₁, e, es₂, l₁, a, l₂, rfl, rfl, hlen, rfl⟩ := h.split hk
      obtain ⟨-, ⟨n, hn, hdata⟩, -⟩ := h.linked.entries_split hlen
      have hkey : n.data.key = e.key := congrArg LruEntry.key hdata
      exact ⟨a, n, (hin a).mpr (by simp), hn, hkey⟩
    · rintro ⟨a, n, ha, hn, rfl⟩
      obtain ⟨m, hm, hmem⟩ := h.linked.entry ((hin a).mp ha)
      obtain rfl : n = m := Option.some.inj (hn.symm.trans hm)
      have hkey : n.data.key ∈ es.map LruEntry.key := List.mem_map_of_mem hmem
      exact h.mem_held.mpr hkey
  · have hset : {a | InBuckets s.mem a} = ↑l.toFinset := by
      ext a
      rw [Set.mem_ofPred_eq, hin, Finset.mem_coe, List.mem_toFinset]
    rw [hset, Set.ncard_coe_finset, List.toFinset_card_of_nodup h.linked.doubly.nodup, h.count]
  · rw [h.count]
    exact h.bound
  · exact h.lookup
  · exact h.implList
  · exact h.implRecall

end Steps

/-! ## Every sequence of calls -/

/-- An engine that stands for its map and has room for one entry at least. -/
def SoundEngine (s : LruRun) : Prop :=
  (∃ l es, Represents s l es) ∧ 0 < s.mem.maxEntries ∧ s.mem.maxEntries < 2 ^ 64

theorem SoundEngine.step {s : LruRun} (h : SoundEngine s) {op : LruOp} (hop : KeepsEntries s op) :
    ∃ s', lruStep s op = some s' ∧ SoundEngine s' := by
  obtain ⟨⟨l, es, h⟩, hpos, hlt⟩ := h
  cases op with
  | store key content category sessionId now =>
    obtain ⟨⟨c, rfl, hc⟩, habove⟩ := hop
    by_cases hkey : key ∈ s.uses.held
    · obtain ⟨mem', l', es', hstore, hmax, h'⟩ := h.store_held hkey hc habove content sessionId now
      refine ⟨_, by rw [lruStep, hstore, Option.map_some], ⟨l', es', h'⟩, ?_, ?_⟩
      · exact hmax ▸ hpos
      · exact hmax ▸ hlt
    · obtain ⟨mem', l', es', hstore, hmax, h'⟩ :=
        h.store_new hkey hpos hlt c habove content sessionId now
      refine ⟨_, by rw [lruStep, hstore, Option.map_some], ⟨l', es', h'⟩, ?_, ?_⟩
      · exact hmax ▸ hpos
      · exact hmax ▸ hlt
  | get key =>
    by_cases hkey : key ∈ s.uses.held
    · obtain ⟨mem', v, l', es', hget, hmax, h'⟩ := h.get_held hkey (hop hkey)
      refine ⟨_, by rw [lruStep, hget, Option.map_some], ⟨l', es', h'⟩, ?_, ?_⟩
      · exact hmax ▸ hpos
      · exact hmax ▸ hlt
    · have hnotin : key ∉ es.map LruEntry.key := fun hmem => hkey (h.mem_held.mpr hmem)
      have htouch : s.uses.touch key = s.uses := h.ordered.touch_of_notMem (by rwa [map_pair_fst'])
      refine ⟨s, ?_, ⟨l, es, h⟩, hpos, hlt⟩
      rw [lruStep, implGet, h.linked.findEntry_eq_none hnotin, htouch]
      rfl
  | forget key =>
    by_cases hkey : key ∈ s.uses.held
    · obtain ⟨mem', l', es', hforget, hmax, h'⟩ := h.forget_held hkey
      refine ⟨_, by rw [lruStep, hforget, Option.map_some], ⟨l', es', h'⟩, ?_, ?_⟩
      · exact hmax ▸ hpos
      · exact hmax ▸ hlt
    · have hnotin : key ∉ es.map LruEntry.key := fun hmem => hkey (h.mem_held.mpr hmem)
      refine ⟨⟨s.mem, s.uses.erase key⟩, ?_, ⟨l, es, ?_⟩, hpos, hlt⟩
      · rw [lruStep, implForget, h.linked.findEntry_eq_none hnotin]
        rfl
      · exact ⟨h.linked, h.count, h.bound, h.ordered.erase_of_notMem (by rwa [map_pair_fst']),
          h.named, h.access, h.counter, h.recent⟩
  | listing category sessionId =>
    obtain ⟨ps, -, hlist⟩ := h.implList category sessionId
    exact ⟨s, by rw [lruStep, hlist, Option.map_some], ⟨l, es, h⟩, hpos, hlt⟩
  | recalling query limit sessionId =>
    obtain ⟨ps, -, hrecall⟩ := h.implRecall query limit sessionId
    exact ⟨s, by rw [lruStep, hrecall, Option.map_some], ⟨l, es, h⟩, hpos, hlt⟩

/-- An engine that was created is empty, as its map. -/
theorem represents_create (maxEntries : ℕ) :
    Represents ⟨scMemoryLruCreate maxEntries, Uses.empty⟩ [] [] :=
  ⟨⟨⟨.nil, .nil⟩, rfl, fun b => ⟨[], .nil, by simp⟩, by simp, List.nodup_nil⟩,
    rfl, Nat.zero_le _, ordered_empty, by simp, by simp, rfl, List.Pairwise.nil⟩

theorem soundEngine_create {maxEntries : ℕ} (hpos : 0 < maxEntries) (hlt : maxEntries < 2 ^ 64) :
    SoundEngine ⟨scMemoryLruCreate maxEntries, Uses.empty⟩ :=
  ⟨⟨[], [], represents_create maxEntries⟩, hpos, hlt⟩

/-- From its creation on, an engine is the map of recent uses in every state of a run whose
stores all have a category, with a name where one would be lost, and whose uses get numbers
above those of the entries that stay. -/
theorem lru_engine_refines {maxEntries : ℕ} (hpos : 1 ≤ maxEntries) (hlt : maxEntries < 2 ^ 64)
    {ops : List LruOp}
    (h : Machine.EveryStep lruStep KeepsEntries ⟨scMemoryLruCreate maxEntries, Uses.empty⟩ ops) :
    Machine.Throughout lruStep IsLruEngine ⟨scMemoryLruCreate maxEntries, Uses.empty⟩ ops := by
  have hsound := h.throughout (I := SoundEngine) (fun _ _ hs hop => hs.step hop)
    (soundEngine_create hpos hlt)
  exact hsound.mono fun _ ⟨⟨_, _, hs⟩, _⟩ => hs.isLruEngine

/-- In a map with one key there is no other whose number could be larger. -/
theorem numbersAbove_of_only {s : LruRun} {key : CString} (h : ∀ x ∈ s.uses.held, x = key) :
    NumbersAbove s key :=
  fun x hx hne => absurd (h x hx) hne

/-- A text that is stored and then looked up. -/
theorem lru_engine_refines_pair :
    Machine.Throughout lruStep IsLruEngine ⟨scMemoryLruCreate 2, Uses.empty⟩
      [.store (.ofBytes (ascii "k")) (.ofBytes (ascii "v")) (some ⟨.core, none⟩) none 0,
        .get (.ofBytes (ascii "k"))] := by
  refine lru_engine_refines (by decide) (by norm_num) ⟨⟨⟨⟨.core, none⟩, rfl, nofun⟩, ?_⟩, ?_⟩
  · refine numbersAbove_of_only ?_
    rintro x ⟨v, hv⟩
    exact absurd hv nofun
  · intro s hs
    refine ⟨fun _ => numbersAbove_of_only ?_, fun _ _ => trivial⟩
    rw [lruStep] at hs
    obtain ⟨mem, -, rfl⟩ := Option.map_eq_some_iff.mp hs
    intro x hx
    rcases Uses.mem_held_of_put hx with hx | ⟨v, hv⟩
    · exact hx
    · exact absurd hv nofun

/-- A store without a category follows a null pointer. -/
theorem lru_engine_needs_category :
    ¬ Machine.Throughout lruStep IsLruEngine ⟨scMemoryLruCreate 2, Uses.empty⟩
      [.store (.ofBytes (ascii "k")) (.ofBytes (ascii "v")) none none 0] := by
  rintro ⟨-, s, hs, -⟩
  have hnone : implStore (scMemoryLruCreate 2) (CString.ofBytes (ascii "k")).octets
      (CString.ofBytes (ascii "v")).octets none none 0 = none := rfl
  rw [lruStep, hnone] at hs
  exact absurd hs nofun

end SeaClaw.Memory
