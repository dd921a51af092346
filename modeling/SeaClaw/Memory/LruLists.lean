import Mathlib.Data.Finset.Card
import SeaClaw.Memory.LruEngine

/-!
# The two structures of the LRU engine

What the list in the order of use and the buckets have to do with each other: every node of the
list is on the chain of its key and on no other, and no other node is on a chain. Each edit of
the engine keeps this, and moves, adds or takes out one node of the list.
-/

namespace SeaClaw.Memory

open SeaClaw.Lib SeaClaw.Lib.LinkedList

/-- An entry without its links. -/
def LruEntry.data (e : LruEntry) : LruEntry :=
  { e with hashNext := none, lruPrev := none, lruNext := none }

/-- The bucket that an address belongs to. -/
def placeOf (mem : LruMemory) (a : ℕ) : Option ℕ :=
  (mem.heap a).map fun e => lruHashKey e.key.octets

/-- The nodes of each chain are those of `l` with its place. -/
def Hashed (mem : LruMemory) (l : List ℕ) : Prop :=
  ∀ b, ∃ c, Chain LruEntry.hashNext mem.heap (mem.buckets b) c ∧
    ∀ a, a ∈ c ↔ a ∈ l ∧ placeOf mem a = some b

/-- The addresses of the list, the latest use first, and the entries there. -/
structure Linked (mem : LruMemory) (l : List ℕ) (es : List LruEntry) : Prop where
  doubly : Doubly lruLinks mem.ends l
  entries : l.map (fun a => (mem.heap a).map LruEntry.data) = es.map some
  hashed : Hashed mem l
  fresh : ∀ a ∈ l, a < mem.next
  distinct : (es.map LruEntry.key).Nodup

section Reading

variable {mem : LruMemory} {l l₁ l₂ : List ℕ} {es es₁ es₂ : List LruEntry} {e : LruEntry} {a : ℕ}
  {k : CString}

theorem Linked.length_eq (h : Linked mem l es) : l.length = es.length := by
  simpa using congrArg List.length h.entries

theorem Linked.length_le_next (h : Linked mem l es) : l.length ≤ mem.next := by
  have hsub : l.toFinset ⊆ Finset.range mem.next := by
    intro a ha
    exact Finset.mem_range.mpr (h.fresh a (List.mem_toFinset.mp ha))
  rw [← List.toFinset_card_of_nodup h.doubly.nodup, ← Finset.card_range mem.next]
  exact Finset.card_le_card hsub

/-- A chain is no longer than the list. -/
theorem Linked.length_chain_le (h : Linked mem l es) {p : Option ℕ} {c : List ℕ}
    (hc : Chain LruEntry.hashNext mem.heap p c) (hsub : ∀ a ∈ c, a ∈ l) : c.length ≤ mem.next :=
  (hc.nodup.subperm hsub).length_le.trans h.length_le_next

/-- Where an entry stands. -/
theorem Linked.split (h : Linked mem l (es₁ ++ e :: es₂)) :
    ∃ l₁ a l₂, l = l₁ ++ a :: l₂ ∧ l₁.length = es₁.length := by
  have hentries := h.entries
  rw [List.map_append, List.map_cons] at hentries
  obtain ⟨l₁, r, rfl, h₁, hr⟩ := List.map_eq_append_iff.mp hentries
  obtain ⟨a, l₂, rfl, -, -⟩ := List.map_eq_cons_iff.mp hr
  exact ⟨l₁, a, l₂, rfl, by simpa using congrArg List.length h₁⟩

/-- What stands before an entry, at its address and after it. -/
theorem Linked.entries_split (h : Linked mem (l₁ ++ a :: l₂) (es₁ ++ e :: es₂))
    (hlen : l₁.length = es₁.length) :
    l₁.map (fun a => (mem.heap a).map LruEntry.data) = es₁.map some ∧
      (∃ n, mem.heap a = some n ∧ n.data = e) ∧
      l₂.map (fun a => (mem.heap a).map LruEntry.data) = es₂.map some := by
  have hentries := h.entries
  simp only [List.map_append, List.map_cons] at hentries
  obtain ⟨h₁, hr⟩ := List.append_inj hentries (by simpa using hlen)
  obtain ⟨ha, h₂⟩ := List.cons_eq_cons.mp hr
  exact ⟨h₁, Option.map_eq_some_iff.mp ha, h₂⟩

/-- An address of the list has one of the entries. -/
theorem Linked.entry (h : Linked mem l es) (ha : a ∈ l) :
    ∃ n, mem.heap a = some n ∧ n.data ∈ es := by
  have hmem : (mem.heap a).map LruEntry.data ∈ es.map some := by
    rw [← h.entries]
    exact List.mem_map_of_mem ha
  obtain ⟨e, he, heq⟩ := List.mem_map.mp hmem
  obtain ⟨n, hn, rfl⟩ := Option.map_eq_some_iff.mp heq.symm
  exact ⟨n, hn, he⟩

/-- The entries have no links. -/
theorem Linked.data_eq (h : Linked mem l es) (he : e ∈ es) : e.data = e := by
  have hmem : some e ∈ l.map fun a => (mem.heap a).map LruEntry.data := by
    rw [h.entries]
    exact List.mem_map_of_mem he
  obtain ⟨a, -, heq⟩ := List.mem_map.mp hmem
  obtain ⟨n, -, rfl⟩ := Option.map_eq_some_iff.mp heq
  rfl

/-- Two addresses with one key are the same. -/
theorem Linked.eq_of_key (h : Linked mem l es) {b : ℕ} {n m : LruEntry} (ha : a ∈ l) (hb : b ∈ l)
    (hn : mem.heap a = some n) (hm : mem.heap b = some m) (hkey : n.key = m.key) : a = b := by
  have hnodup : (l.map fun a => (mem.heap a).map LruEntry.key).Nodup := by
    have hkeys : (l.map fun a => (mem.heap a).map LruEntry.key) =
        (es.map LruEntry.key).map some := by
      have := congrArg (List.map (Option.map LruEntry.key)) h.entries
      simpa only [List.map_map, Function.comp_def, Option.map_map, LruEntry.data,
        Option.map_some] using this
    rw [hkeys]
    exact h.distinct.map (Option.some_injective _)
  refine List.inj_on_of_nodup_map hnodup ha hb ?_
  rw [hn, hm, Option.map_some, Option.map_some, hkey]

/-- The search in the chain of a key that is held. -/
theorem Linked.findEntry_eq_some (h : Linked mem l es) (ha : a ∈ l) {n : LruEntry}
    (hn : mem.heap a = some n) : findEntry mem n.key.octets = some (some a) := by
  obtain ⟨c, hc, hmem⟩ := h.hashed (lruHashKey n.key.octets)
  have hac : a ∈ c := (hmem a).mpr ⟨ha, by rw [placeOf, hn, Option.map_some]⟩
  rw [findEntry, hc.findNode (h.length_chain_le hc fun b hb => ((hmem b).mp hb).1),
    Option.some.injEq]
  have hsome : (c.find? fun b => (mem.heap b).any fun e => e.key.octets = n.key.octets).isSome := by
    rw [List.find?_isSome]
    exact ⟨a, hac, by simp [hn]⟩
  obtain ⟨b, hb⟩ := Option.isSome_iff_exists.mp hsome
  have htest := List.find?_some hb
  have hbl := ((hmem b).mp (List.mem_of_find?_eq_some hb)).1
  obtain ⟨m, hm, -⟩ := h.entry hbl
  rw [hm, Option.any_some, decide_eq_true_eq] at htest
  rw [hb, h.eq_of_key hbl ha hm hn (CString.ext htest)]

/-- The search for a key that is not held. -/
theorem Linked.findEntry_eq_none (h : Linked mem l es) (hk : k ∉ es.map LruEntry.key) :
    findEntry mem k.octets = some none := by
  obtain ⟨c, hc, hmem⟩ := h.hashed (lruHashKey k.octets)
  rw [findEntry, hc.findNode (h.length_chain_le hc fun b hb => ((hmem b).mp hb).1),
    Option.some.injEq, List.find?_eq_none]
  intro a ha
  obtain ⟨n, hn, hdata⟩ := h.entry ((hmem a).mp ha).1
  rw [hn, Option.any_some, decide_eq_true_eq]
  exact fun heq => hk (List.mem_map.mpr ⟨n.data, hdata, CString.ext heq⟩)

end Reading

/-! ## Edits -/

section Edits

variable {mem mem' : LruMemory} {l l' l₁ l₂ : List ℕ} {es es₁ es₂ : List LruEntry}
  {e n : LruEntry} {a : ℕ}

theorem placeOf_congr (h : (mem'.heap a).map LruEntry.data = (mem.heap a).map LruEntry.data) :
    placeOf mem' a = placeOf mem a := by
  have := congrArg (Option.map fun e : LruEntry => lruHashKey e.key.octets) h
  simpa only [placeOf, Option.map_map, Function.comp_def, LruEntry.data] using this

/-- The chains only depend on their links and the keys. -/
theorem Hashed.congr (h : Hashed mem l)
    (hdata : ∀ b, (mem'.heap b).map LruEntry.data = (mem.heap b).map LruEntry.data)
    (hhash : ∀ b, (mem'.heap b).map LruEntry.hashNext = (mem.heap b).map LruEntry.hashNext)
    (hbuckets : mem'.buckets = mem.buckets) (hl : ∀ b, b ∈ l' ↔ b ∈ l) : Hashed mem' l' := by
  intro b
  obtain ⟨c, hc, hmem⟩ := h b
  refine ⟨c, ?_, fun x => ?_⟩
  · rw [hbuckets]
    exact hc.congr fun x _ => hhash x
  · rw [hmem, hl, placeOf_congr (hdata x)]

/-- A node that is on the list goes to its front. -/
theorem Linked.toFront (h : Linked mem (l₁ ++ a :: l₂) (es₁ ++ e :: es₂))
    (hlen : l₁.length = es₁.length) :
    ∃ d, toFront mem a = some (mem.withEnds d) ∧
      Linked (mem.withEnds d) (a :: (l₁ ++ l₂)) (e :: (es₁ ++ es₂)) := by
  obtain ⟨d₁, h₁, hdoubly₁⟩ := h.doubly.unlink
  have hdata₁ : ∀ b, (d₁.heap b).map LruEntry.data = (mem.heap b).map LruEntry.data :=
    unlink_map (fun _ _ => rfl) (fun _ _ => rfl) h₁
  have hhash₁ : ∀ b, (d₁.heap b).map LruEntry.hashNext = (mem.heap b).map LruEntry.hashNext :=
    unlink_map (fun _ _ => rfl) (fun _ _ => rfl) h₁
  obtain ⟨hl, ⟨n, hn, rfl⟩, hr⟩ := h.entries_split hlen
  obtain ⟨m, hm⟩ : ∃ m, d₁.heap a = some m := by
    have ha := hdata₁ a
    rw [hn, Option.map_some] at ha
    obtain ⟨m, hm, -⟩ := Option.map_eq_some_iff.mp ha
    exact ⟨m, hm⟩
  have hnodup := h.doubly.nodup
  rw [List.nodup_middle, List.nodup_cons] at hnodup
  obtain ⟨d₂, h₂, hdoubly₂⟩ := hdoubly₁.linkFront hnodup.1 hm
  have hdata : ∀ b, (d₂.heap b).map LruEntry.data = (mem.heap b).map LruEntry.data := fun b =>
    (linkFront_map (fun _ _ => rfl) (fun _ _ => rfl) h₂ b).trans (hdata₁ b)
  have hhash : ∀ b, (d₂.heap b).map LruEntry.hashNext = (mem.heap b).map LruEntry.hashNext :=
    fun b => (linkFront_map (fun _ _ => rfl) (fun _ _ => rfl) h₂ b).trans (hhash₁ b)
  refine ⟨d₂, ?_, hdoubly₂, ?_, ?_, ?_, ?_⟩
  · simp only [Memory.toFront, unlinkLru, h₁, Option.map_some, Option.bind_some, linkMru]
    have hends : (mem.withEnds d₁).ends = d₁ := rfl
    rw [hends, h₂]
    rfl
  · simp only [LruMemory.withEnds, List.map_append, List.map_cons, hdata, hl, hr, hn,
      Option.map_some]
  · refine h.hashed.congr hdata hhash rfl fun b => ?_
    simp only [List.mem_cons, List.mem_append]
    tauto
  · intro b hb
    refine h.fresh b ?_
    simp only [List.mem_cons, List.mem_append] at hb ⊢
    tauto
  · have hkeys := h.distinct
    rw [List.map_append, List.map_cons, List.nodup_middle] at hkeys
    rwa [List.map_cons, List.map_append]

/-- A node is written with other data under the same key. -/
theorem Linked.write (h : Linked mem (l₁ ++ a :: l₂) (es₁ ++ e :: es₂))
    (hlen : l₁.length = es₁.length) (hn : mem.heap a = some n) (n' : LruEntry)
    (hkey : n'.key = n.key) (hhash : n'.hashNext = n.hashNext) (hprev : n'.lruPrev = n.lruPrev)
    (hnext : n'.lruNext = n.lruNext) :
    Linked (mem.write a n') (l₁ ++ a :: l₂) (es₁ ++ n'.data :: es₂) := by
  have hnodup := h.doubly.nodup
  rw [List.nodup_middle, List.nodup_cons] at hnodup
  obtain ⟨hl, ⟨m, hm, rfl⟩, hr⟩ := h.entries_split hlen
  obtain rfl : m = n := Option.some.inj (hm.symm.trans hn)
  have hsame : ∀ r : List ℕ, a ∉ r → r.map (fun b => ((mem.write a n').heap b).map LruEntry.data) =
      r.map fun b => (mem.heap b).map LruEntry.data := by
    intro r hr
    refine List.map_congr_left fun b hb => ?_
    dsimp only [LruMemory.write]
    rw [Function.update_of_ne]
    rintro rfl
    exact hr hb
  refine ⟨⟨?_, ?_⟩, ?_, ?_, h.fresh, ?_⟩
  · exact h.doubly.forward.update_same hn hnext
  · exact h.doubly.backward.update_same hn hprev
  · simp only [List.map_append, List.map_cons]
    rw [hsame l₁ (fun hb => hnodup.1 (List.mem_append_left _ hb)), hl,
      hsame l₂ (fun hb => hnodup.1 (List.mem_append_right _ hb)), hr]
    simp only [LruMemory.write, Function.update_self, Option.map_some]
  · intro b
    obtain ⟨c, hc, hmem⟩ := h.hashed b
    refine ⟨c, hc.update_same hn hhash, fun x => ?_⟩
    have hplace : placeOf (mem.write a n') x = placeOf mem x := by
      by_cases hx : x = a
      · subst hx
        simp only [placeOf, LruMemory.write, Function.update_self, hn, Option.map_some, hkey]
      · simp only [placeOf, LruMemory.write, Function.update_of_ne hx]
    rw [hmem, hplace]
  · have hkeys := h.distinct
    rw [List.map_append, List.map_cons] at hkeys
    rw [List.map_append, List.map_cons]
    have heq : n'.data.key = m.data.key := hkey
    rw [heq]
    exact hkeys

theorem Linked.nextAccess (h : Linked mem l es) : Linked (nextAccess mem) l es :=
  ⟨h.doubly, h.entries, h.hashed, h.fresh, h.distinct⟩

/-- A node that is used: it is written with other data and goes to the front. -/
theorem Linked.refresh (h : Linked mem (l₁ ++ a :: l₂) (es₁ ++ e :: es₂))
    (hlen : l₁.length = es₁.length) (hn : mem.heap a = some n) (n' : LruEntry)
    (hkey : n'.key = n.key) (hhash : n'.hashNext = n.hashNext) (hprev : n'.lruPrev = n.lruPrev)
    (hnext : n'.lruNext = n.lruNext) :
    ∃ mem', Memory.toFront ((Memory.nextAccess mem).write a n') a = some mem' ∧
      Linked mem' (a :: (l₁ ++ l₂)) (n'.data :: (es₁ ++ es₂)) ∧ mem'.count = mem.count ∧
      mem'.maxEntries = mem.maxEntries ∧
      mem'.accessCounter = (mem.accessCounter + 1) % 2 ^ 64 := by
  obtain ⟨d, hd, hlinked⟩ := (h.nextAccess.write hlen hn n' hkey hhash hprev hnext).toFront hlen
  exact ⟨_, hd, hlinked, rfl, rfl, rfl⟩

/-- A node is taken out of its bucket. -/
theorem Linked.removeFromBucket (h : Linked mem (l₁ ++ a :: l₂) es) {b : ℕ}
    (hb : placeOf mem a = some b) :
    ∃ heap' buckets', removeFromBucket mem b a =
        some { mem with heap := heap', buckets := buckets' } ∧
      Hashed { mem with heap := heap', buckets := buckets' } (l₁ ++ l₂) ∧
      Doubly lruLinks ⟨heap', mem.lruHead, mem.lruTail⟩ (l₁ ++ a :: l₂) ∧
      ∀ x, (heap' x).map LruEntry.data = (mem.heap x).map LruEntry.data := by
  obtain ⟨c, hc, hmem⟩ := h.hashed b
  have hnodup := h.doubly.nodup
  rw [List.nodup_middle, List.nodup_cons] at hnodup
  have hac : a ∈ c := (hmem a).mpr ⟨by simp, hb⟩
  have hlen := h.length_chain_le hc fun x hx => ((hmem x).mp hx).1
  obtain ⟨c₁, c₂, rfl⟩ := List.append_of_mem hac
  have hcnodup := hc.nodup
  rw [List.nodup_middle, List.nodup_cons] at hcnodup
  have hfuel : c₁.length < mem.next := by
    simp only [List.length_append, List.length_cons] at hlen
    omega
  have hset : ∀ (p : Option ℕ) (e : LruEntry), ({ e with hashNext := p } : LruEntry).hashNext = p :=
    fun _ _ => rfl
  obtain ⟨heap', p', heq, hchain, hsame, hmap⟩ := hc.unchain hset hfuel
  have hdata := hmap (f := LruEntry.data) fun _ _ => rfl
  refine ⟨heap', Function.update mem.buckets b p', ?_, ?_, ⟨?_, ?_⟩, hdata⟩
  · rw [Memory.removeFromBucket, heq, Option.map_some]
  · intro b'
    have hplace : ∀ x, placeOf { mem with
        heap := heap', buckets := Function.update mem.buckets b p' } x = placeOf mem x :=
      fun x => placeOf_congr (hdata x)
    have hin : ∀ x, x ≠ a → (x ∈ l₁ ++ l₂ ↔ x ∈ l₁ ++ a :: l₂) := by
      intro x hx
      simp only [List.mem_append, List.mem_cons, hx, false_or]
    by_cases hbb : b' = b
    · subst hbb
      refine ⟨c₁ ++ c₂, ?_, fun x => ?_⟩
      · simp only [Function.update_self]
        exact hchain
      · rw [hplace]
        by_cases hx : x = a
        · subst hx
          exact iff_of_false hcnodup.1 fun hx => hnodup.1 hx.1
        · rw [hin x hx, ← hmem]
          simp only [List.mem_append, List.mem_cons, hx, false_or]
    · obtain ⟨c', hc', hmem'⟩ := h.hashed b'
      refine ⟨c', ?_, fun x => ?_⟩
      · simp only [Function.update_of_ne hbb]
        refine hc'.congr fun x hx => ?_
        have hnot : x ∉ c₁ := by
          intro hx₁
          have hplace₁ := ((hmem x).mp (List.mem_append_left _ hx₁)).2
          rw [((hmem' x).mp hx).2] at hplace₁
          exact hbb (Option.some.inj hplace₁)
        rw [hsame x hnot]
      · rw [hmem', hplace]
        by_cases hx : x = a
        · subst hx
          refine iff_of_false (fun hx => ?_) fun hx => hnodup.1 hx.1
          rw [hb] at hx
          exact hbb (Option.some.inj hx.2).symm
        · rw [hin x hx]
  · exact h.doubly.forward.congr fun x _ => hmap (f := LruEntry.lruNext) (fun _ _ => rfl) x
  · exact h.doubly.backward.congr fun x _ => hmap (f := LruEntry.lruPrev) (fun _ _ => rfl) x

/-- A node is taken out of both structures and freed. -/
theorem Linked.dropEntry (h : Linked mem (l₁ ++ a :: l₂) (es₁ ++ e :: es₂))
    (hlen : l₁.length = es₁.length) (hname : (freeName e.category).isSome) :
    ∃ mem', dropEntry mem (lruHashKey e.key.octets) a = some mem' ∧
      Linked mem' (l₁ ++ l₂) (es₁ ++ es₂) ∧ mem'.count = Lib.sizeSub mem.count 1 ∧
      mem'.maxEntries = mem.maxEntries ∧ mem'.accessCounter = mem.accessCounter := by
  obtain ⟨hl, ⟨n, hn, rfl⟩, hr⟩ := h.entries_split hlen
  obtain ⟨heap₁, buckets₁, h₁, hhashed₁, hdoubly₁, hdata₁⟩ :=
    h.removeFromBucket (b := lruHashKey n.data.key.octets) (by
      rw [placeOf, hn, Option.map_some]
      rfl)
  obtain ⟨d₂, h₂, hdoubly₂⟩ := hdoubly₁.unlink
  have hdata₂ := unlink_map (f := LruEntry.data) (fun _ _ => rfl) (fun _ _ => rfl) h₂
  have hhash₂ := unlink_map (f := LruEntry.hashNext) (fun _ _ => rfl) (fun _ _ => rfl) h₂
  have hdata : ∀ b, (d₂.heap b).map LruEntry.data = (mem.heap b).map LruEntry.data :=
    fun b => (hdata₂ b).trans (hdata₁ b)
  obtain ⟨m, hm, hmdata⟩ : ∃ m, d₂.heap a = some m ∧ m.data = n.data := by
    have hda := hdata a
    rw [hn, Option.map_some] at hda
    exact Option.map_eq_some_iff.mp hda
  have hfree : ∃ c, freeName m.category = some c := by
    have hcat : m.data.category = n.data.category := congrArg LruEntry.category hmdata
    have hm : m.category = n.data.category := hcat
    rw [hm]
    exact Option.isSome_iff_exists.mp hname
  obtain ⟨cat, hcat⟩ := hfree
  have hnodup := h.doubly.nodup
  rw [List.nodup_middle, List.nodup_cons] at hnodup
  refine ⟨{ mem with
      heap := Function.update d₂.heap a none, buckets := buckets₁, lruHead := d₂.head
      lruTail := d₂.tail, count := Lib.sizeSub mem.count 1 }, by
    simp only [Memory.dropEntry, h₁, Option.bind_some, unlinkLru, LruMemory.ends, h₂,
      Option.map_some, freeStoredEntry, LruMemory.withEnds, hm, hcat], ⟨⟨?_, ?_⟩, ?_, ?_, ?_, ?_⟩, rfl, rfl, rfl⟩
  · exact hdoubly₂.forward.update_of_notMem hnodup.1 none
  · exact hdoubly₂.backward.update_of_notMem (by rw [List.mem_reverse]; exact hnodup.1) none
  · rw [List.map_append, List.map_append, ← hl, ← hr, ← List.map_append, ← List.map_append]
    refine List.map_congr_left fun b hb => ?_
    have hne : b ≠ a := fun he => hnodup.1 (he ▸ hb)
    dsimp only
    rw [Function.update_of_ne hne, hdata]
  · intro b
    obtain ⟨c, hc, hmem⟩ := hhashed₁ b
    have hac : a ∉ c := fun ha => hnodup.1 ((hmem a).mp ha).1
    refine ⟨c, ?_, fun x => ?_⟩
    · exact (hc.congr fun x _ => hhash₂ x).update_of_notMem hac none
    · rw [hmem]
      refine and_congr_right fun hx => ?_
      have hne : x ≠ a := fun he => hnodup.1 (he ▸ hx)
      refine Eq.congr_left ?_
      refine (placeOf_congr ?_).symm
      dsimp only
      rw [Function.update_of_ne hne, hdata, hdata₁]
  · intro b hb
    refine h.fresh b ?_
    rw [List.mem_append] at hb
    rw [List.mem_append, List.mem_cons]
    tauto
  · have hkeys := h.distinct
    rw [List.map_append, List.map_cons, List.nodup_middle, List.nodup_cons] at hkeys
    rw [List.map_append]
    exact hkeys.2

/-- The entry that `impl_store` makes for a new key, without links. -/
def newEntry (key content : Bytes) (category : MemoryCategory Bytes) (sessionId : Option Bytes)
    (now : ℤ) (access : ℕ) : LruEntry where
  key := .ofBytes key
  content := .ofBytes content
  category := dupCategory category ⟨.core, none⟩
  sessionId := storedSession sessionId
  createdAt := nowTimestamp now
  updatedAt := nowTimestamp now
  lastAccess := access
  hashNext := none
  lruPrev := none
  lruNext := none

/-- A new entry goes in front of the list and of its chain. -/
theorem Linked.insertEntry (h : Linked mem l es) {k content : CString}
    (hk : k ∉ es.map LruEntry.key) (category : MemoryCategory Bytes) (sessionId : Option Bytes)
    (now : ℤ) :
    ∃ mem', insertEntry mem k.octets content.octets category sessionId now = some mem' ∧
      Linked mem' (mem.next :: l) (newEntry k.octets content.octets category sessionId now
        ((mem.accessCounter + 1) % 2 ^ 64) :: es) ∧
      mem'.count = (mem.count + 1) % 2 ^ 64 ∧ mem'.maxEntries = mem.maxEntries ∧
      mem'.accessCounter = (mem.accessCounter + 1) % 2 ^ 64 := by
  set access := (mem.accessCounter + 1) % 2 ^ 64 with haccess
  set b := lruHashKey k.octets with hb
  set n : LruEntry := { newEntry k.octets content.octets category sessionId now access with
    hashNext := mem.buckets b } with hn
  have hfresh : mem.next ∉ l := fun hmem => Nat.lt_irrefl _ (h.fresh _ hmem)
  set heap₁ := Function.update mem.heap mem.next (some n) with hheap₁
  have hnew : heap₁ mem.next = some n := Function.update_self ..
  have hold : ∀ x ∈ l, heap₁ x = mem.heap x := by
    intro x hx
    refine Function.update_of_ne ?_ _ _
    rintro rfl
    exact hfresh hx
  have hdoubly₁ : Doubly lruLinks ⟨heap₁, mem.lruHead, mem.lruTail⟩ l :=
    ⟨h.doubly.forward.update_of_notMem hfresh _,
      h.doubly.backward.update_of_notMem (by rwa [List.mem_reverse]) _⟩
  obtain ⟨d, hd, hdoubly⟩ := hdoubly₁.linkFront hfresh hnew
  have hdata := linkFront_map (f := LruEntry.data) (fun _ _ => rfl) (fun _ _ => rfl) hd
  have hhash := linkFront_map (f := LruEntry.hashNext) (fun _ _ => rfl) (fun _ _ => rfl) hd
  have hkey : CString.ofBytes k.octets = k := CString.ext (CString.octets_ofBytes.mpr k.noNul)
  have hinsert : Memory.insertEntry mem k.octets content.octets category sessionId now =
      ((linkFront lruLinks ⟨heap₁, mem.lruHead, mem.lruTail⟩ mem.next).map fun d => { mem with
        heap := d.heap, buckets := Function.update mem.buckets b (some mem.next)
        lruHead := d.head, lruTail := d.tail, accessCounter := access, next := mem.next + 1
        count := (mem.count + 1) % 2 ^ 64 }) := by
    simp only [Memory.insertEntry, linkMru, Option.map_map]
    rfl
  rw [hd, Option.map_some] at hinsert
  refine ⟨_, hinsert, ⟨hdoubly, ?_, ?_, ?_, ?_⟩, rfl, rfl, rfl⟩
  · rw [List.map_cons, List.map_cons, ← h.entries]
    refine List.cons_eq_cons.mpr ⟨?_, List.map_congr_left fun x hx => ?_⟩
    · exact (hdata mem.next).trans (by dsimp only; rw [hnew]; rfl)
    · exact (hdata x).trans (by dsimp only; rw [hold x hx])
  · refine @Hashed.congr { mem with
      heap := heap₁, buckets := Function.update mem.buckets b (some mem.next) } _
      (mem.next :: l) _ ?_ hdata hhash rfl fun _ => Iff.rfl
    intro b'
    obtain ⟨c, hc, hmem⟩ := h.hashed b'
    have hc₁ : Chain LruEntry.hashNext heap₁ (mem.buckets b') c :=
      hc.congr fun x hx => by rw [hold x ((hmem x).mp hx).1]
    have hplace : ∀ x ∈ l, placeOf { mem with
        heap := heap₁, buckets := Function.update mem.buckets b (some mem.next) } x =
        placeOf mem x := fun x hx => by
      simp only [placeOf, hold x hx]
    have hplace₁ : placeOf { mem with
        heap := heap₁, buckets := Function.update mem.buckets b (some mem.next) } mem.next =
        some b := by
      simp only [placeOf, hnew, Option.map_some]
      rw [hn]
      simp only [newEntry, hkey, hb]
    have hrest : ∀ x, x ∈ c ↔ x ∈ l ∧ placeOf { mem with
        heap := heap₁, buckets := Function.update mem.buckets b (some mem.next) } x = some b' :=
      fun x => (hmem x).trans (and_congr_right fun hx => by rw [hplace x hx])
    by_cases hbb : b' = b
    · subst hbb
      refine ⟨mem.next :: c, ?_, fun x => ?_⟩
      · simp only [Function.update_self]
        exact .cons hnew hc₁
      · rw [List.mem_cons, List.mem_cons, hrest, or_and_right]
        refine or_congr_left ?_
        constructor
        · rintro rfl
          exact ⟨rfl, hplace₁⟩
        · exact fun hx => hx.1
    · refine ⟨c, ?_, fun x => ?_⟩
      · simp only [Function.update_of_ne hbb]
        exact hc₁
      · rw [List.mem_cons, hrest, or_and_right]
        refine (or_iff_right ?_).symm
        rintro ⟨rfl, hx⟩
        rw [hplace₁] at hx
        exact hbb (Option.some.inj hx).symm
  · intro x hx
    rcases List.mem_cons.mp hx with rfl | hx
    · exact Nat.lt_succ_self _
    · exact Nat.lt_succ_of_lt (h.fresh x hx)
  · rw [List.map_cons, List.nodup_cons]
    refine ⟨?_, h.distinct⟩
    simpa only [newEntry, hkey] using hk

end Edits

end SeaClaw.Memory
