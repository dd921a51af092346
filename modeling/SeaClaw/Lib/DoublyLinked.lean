import SeaClaw.Lib.LinkedList

/-!
# Doubly linked lists in a heap

Each node knows the next one and the one before, and the two ends are kept beside the heap. Such
a list is two chains over the same nodes, one the reverse of the other. Taking a node out and
putting one in front keep both.
-/

namespace SeaClaw.Lib.LinkedList

/-- The two links of a node. -/
structure Links (A N : Type*) where
  next : N → Option A
  prev : N → Option A
  setNext : Option A → N → N
  setPrev : Option A → N → N
  next_setNext : ∀ p n, next (setNext p n) = p
  prev_setNext : ∀ p n, prev (setNext p n) = prev n
  prev_setPrev : ∀ p n, prev (setPrev p n) = p
  next_setPrev : ∀ p n, next (setPrev p n) = next n

/-- A heap with the two ends of a list. -/
structure Ends (A N : Type*) where
  heap : A → Option N
  head : Option A
  tail : Option A

variable {A N : Type*}

/-- The list holds the nodes `l`, in both directions. -/
structure Doubly (L : Links A N) (d : Ends A N) (l : List A) : Prop where
  forward : Chain L.next d.heap d.head l
  backward : Chain L.prev d.heap d.tail l.reverse

section Operations

variable [DecidableEq A] (L : Links A N)

/-- `if (p) p->next = q; else head = q;` -/
def setNextOf (p q : Option A) (d : Ends A N) : Option (Ends A N) :=
  (setLink L.setNext p q d.heap d.head).map fun r => { d with heap := r.1, head := r.2 }

/-- `if (q) q->prev = p; else tail = p;` -/
def setPrevOf (q p : Option A) (d : Ends A N) : Option (Ends A N) :=
  (setLink L.setPrev q p d.heap d.tail).map fun r => { d with heap := r.1, tail := r.2 }

/-- The neighbours of a node are linked with each other, and its own links are cleared. -/
def unlink (d : Ends A N) (a : A) : Option (Ends A N) :=
  (d.heap a).bind fun n => (setNextOf L (L.prev n) (L.next n) d).bind fun d =>
    (d.heap a).bind fun n => (setPrevOf L (L.next n) (L.prev n) d).bind fun d =>
      (modify d.heap a fun n => L.setNext none (L.setPrev none n)).map fun heap =>
        { d with heap := heap }

/-- A node goes in front of the list. -/
def linkFront (d : Ends A N) (a : A) : Option (Ends A N) :=
  (modify d.heap a fun n => L.setPrev none (L.setNext d.head n)).bind fun heap =>
    (setPrevOf L d.head (some a) { d with heap := heap }).map fun d => { d with head := some a }

end Operations

section Ends

variable {L : Links A N} {d : Ends A N} {l l₁ l₂ : List A} {a : A}

theorem Doubly.nodup (h : Doubly L d l) : l.Nodup := h.forward.nodup

/-- The node before one of the list, and the one after it. -/
theorem Doubly.neighbours (h : Doubly L d (l₁ ++ a :: l₂)) :
    ∃ n, d.heap a = some n ∧ L.prev n = l₁.getLast? ∧ L.next n = l₂.head? := by
  obtain ⟨n, hn, hnext⟩ := h.forward.append_cons
  have hback := h.backward
  rw [List.reverse_append, List.reverse_cons, List.append_assoc, List.singleton_append] at hback
  obtain ⟨m, hm, hprev⟩ := hback.append_cons
  obtain rfl : n = m := Option.some.inj (hn.symm.trans hm)
  refine ⟨n, hn, ?_, hnext.head_eq⟩
  rw [hprev.head_eq, List.head?_reverse]

end Ends

section Writes

variable [DecidableEq A] {L : Links A N} {B : Type*} {f : N → B}
  {heap heap' : A → Option N} {d d' : Ends A N} {l k : List A} {p q : Option A} {a : A}

/-- What the link to the next node is not a part of stays. -/
theorem setNextOf_map (hf : ∀ p n, f (L.setNext p n) = f n)
    (h : setNextOf L p q d = some d') (b : A) : (d'.heap b).map f = (d.heap b).map f := by
  obtain ⟨r, hr, rfl⟩ := Option.map_eq_some_iff.mp h
  exact setLink_map hf hr b

theorem setPrevOf_map (hf : ∀ p n, f (L.setPrev p n) = f n)
    (h : setPrevOf L q p d = some d') (b : A) : (d'.heap b).map f = (d.heap b).map f := by
  obtain ⟨r, hr, rfl⟩ := Option.map_eq_some_iff.mp h
  exact setLink_map hf hr b

/-- The nodes after the last of `l` are replaced. -/
theorem setNextOf_chain {r : List A} (h : Chain L.next d.heap d.head (l ++ r))
    (hq : Chain L.next d.heap q k) (hk : ∀ b ∈ l, b ∉ k) :
    ∃ d', setNextOf L l.getLast? q d = some d' ∧ Chain L.next d'.heap d'.head (l ++ k) ∧
      d'.tail = d.tail := by
  obtain ⟨heap', head', hset, hchain⟩ := h.setLink L.next_setNext hq hk
  exact ⟨{ d with heap := heap', head := head' }, by rw [setNextOf, hset, Option.map_some],
    hchain, rfl⟩

theorem setPrevOf_chain {r : List A} (h : Chain L.prev d.heap d.tail (l ++ r))
    (hp : Chain L.prev d.heap p k) (hk : ∀ b ∈ l, b ∉ k) :
    ∃ d', setPrevOf L l.getLast? p d = some d' ∧ Chain L.prev d'.heap d'.tail (l ++ k) ∧
      d'.head = d.head := by
  obtain ⟨heap', tail', hset, hchain⟩ := h.setLink L.prev_setPrev hp hk
  exact ⟨{ d with heap := heap', tail := tail' }, by rw [setPrevOf, hset, Option.map_some],
    hchain, rfl⟩

end Writes

section Specs

variable [DecidableEq A] {L : Links A N} {B : Type*} {f : N → B}
  {d d' : Ends A N} {l l₁ l₂ : List A} {a : A}

/-- Taking a node out changes nothing but links. -/
theorem unlink_map (hnext : ∀ p n, f (L.setNext p n) = f n) (hprev : ∀ p n, f (L.setPrev p n) = f n)
    (h : unlink L d a = some d') (b : A) : (d'.heap b).map f = (d.heap b).map f := by
  simp only [unlink, Option.bind_eq_some_iff, Option.map_eq_some_iff] at h
  obtain ⟨_, _, d₁, h₁, _, _, d₂, h₂, heap, hheap, rfl⟩ := h
  rw [modify_map (f := f) (fun n => by rw [hnext, hprev]) hheap, setPrevOf_map hprev h₂,
    setNextOf_map hnext h₁]

/-- A node that is taken out leaves the others in their order. -/
theorem Doubly.unlink (h : Doubly L d (l₁ ++ a :: l₂)) :
    ∃ d', unlink L d a = some d' ∧ Doubly L d' (l₁ ++ l₂) := by
  obtain ⟨n, hn, hprev, hnext⟩ := h.neighbours
  have hnodup := h.nodup
  have happart : ∀ b ∈ l₁, b ∉ l₂ := fun b hb hb' =>
    (List.nodup_append.mp hnodup).2.2 b hb b (List.mem_cons_of_mem _ hb') rfl
  have ha : a ∉ l₁ ++ l₂ := by
    rw [List.nodup_middle, List.nodup_cons] at hnodup
    exact hnodup.1
  have hback := h.backward
  rw [List.reverse_append, List.reverse_cons, List.append_assoc, List.singleton_append] at hback
  -- the list from the head passes the node
  have hrest : Chain L.next d.heap (L.next n) l₂ := by
    obtain ⟨m, hm, hrest⟩ := h.forward.append_cons
    obtain rfl : n = m := Option.some.inj (hn.symm.trans hm)
    exact hrest
  obtain ⟨d₁, h₁, hforward₁, htail₁⟩ := setNextOf_chain h.forward hrest happart
  have hmap₁ := setNextOf_map (f := L.prev) L.prev_setNext h₁
  have hback₁ : Chain L.prev d₁.heap d₁.tail (l₂.reverse ++ a :: l₁.reverse) := by
    rw [htail₁]
    exact hback.congr fun b _ => hmap₁ b
  -- the list from the tail passes the node
  obtain ⟨n₁, hn₁, hrest₁⟩ := hback₁.append_cons
  obtain ⟨d₂, h₂, hback₂, hhead₂⟩ := setPrevOf_chain hback₁ hrest₁ (by
    intro b hb hb'
    exact happart b (List.mem_reverse.mp hb') (List.mem_reverse.mp hb))
  have hforward₂ : Chain L.next d₂.heap d₂.head (l₁ ++ l₂) := by
    rw [hhead₂]
    exact hforward₁.congr fun b _ => setPrevOf_map (f := L.next) L.next_setPrev h₂ b
  have hnext₁ : L.next n₁ = l₂.head? := by
    by_cases hl : l₁.getLast? = some a
    · exact absurd (List.mem_append_left l₂ (List.mem_of_getLast? hl)) ha
    · obtain ⟨r, hr, rfl⟩ := Option.map_eq_some_iff.mp h₁
      have hsame : r.1 a = d.heap a := setLink_of_ne hr hl
      dsimp only at hn₁
      rw [hsame, hn] at hn₁
      rw [← Option.some.inj hn₁, hnext]
  have hlast : l₂.reverse.getLast? = L.next n₁ := by rw [List.getLast?_reverse, hnext₁]
  rw [hlast] at h₂
  -- the node is on neither list when its links are cleared
  obtain ⟨n₂, hn₂⟩ : ∃ n₂, d₂.heap a = some n₂ := by
    have hmap₂ := setPrevOf_map (L := L) (f := fun _ => ()) (fun _ _ => rfl) h₂ a
    rw [hn₁, Option.map_some] at hmap₂
    obtain ⟨n₂, hn₂, -⟩ := Option.map_eq_some_iff.mp hmap₂
    exact ⟨n₂, hn₂⟩
  refine ⟨_, by
    simp only [LinkedList.unlink, hn, Option.bind_some, hprev]
    rw [h₁]
    simp only [Option.bind_some, hn₁, h₂, modify, hn₂, Option.map_some]
    rfl, ?_, ?_⟩
  · exact hforward₂.update_of_notMem ha _
  · rw [List.reverse_append]
    refine hback₂.update_of_notMem ?_ _
    rw [← List.reverse_append, List.mem_reverse]
    exact ha

/-- Putting a node in front changes nothing but links. -/
theorem linkFront_map (hnext : ∀ p n, f (L.setNext p n) = f n)
    (hprev : ∀ p n, f (L.setPrev p n) = f n) (h : linkFront L d a = some d') (b : A) :
    (d'.heap b).map f = (d.heap b).map f := by
  simp only [linkFront, Option.bind_eq_some_iff, Option.map_eq_some_iff] at h
  obtain ⟨heap, hheap, d₁, h₁, rfl⟩ := h
  rw [setPrevOf_map hprev h₁, modify_map (f := f) (fun n => by rw [hprev, hnext]) hheap]

/-- A node that is not on the list goes in front of it. -/
theorem Doubly.linkFront {n : N} (h : Doubly L d l) (ha : a ∉ l) (hn : d.heap a = some n) :
    ∃ d', linkFront L d a = some d' ∧ Doubly L d' (a :: l) := by
  set m := L.setPrev none (L.setNext d.head n) with hm
  set heap := Function.update d.heap a (some m) with hheap
  have hforward : Chain L.next heap d.head l := h.forward.update_of_notMem ha _
  have hback : Chain L.prev heap d.tail (l.reverse ++ []) := by
    rw [List.append_nil]
    exact h.backward.update_of_notMem (by rwa [List.mem_reverse]) _
  have hma : heap a = some m := by rw [hheap, Function.update_self]
  have hsingle : Chain L.prev heap (some a) [a] := by
    refine .cons hma ?_
    rw [hm, L.prev_setPrev]
    exact .nil
  obtain ⟨d', hd', hback', hhead'⟩ := setPrevOf_chain (d := { d with heap := heap }) hback hsingle
    (fun b hb hb' => ha (by
      rw [List.mem_singleton] at hb'
      rwa [← hb', ← List.mem_reverse]))
  have hmap := setPrevOf_map (f := L.next) L.next_setPrev hd'
  rw [List.getLast?_reverse, ← h.forward.head_eq] at hd'
  refine ⟨{ d' with head := some a }, ?_, ?_, ?_⟩
  · simp only [LinkedList.linkFront, modify, hn, Option.map_some, Option.bind_some, ← hm, ← hheap,
      hd']
  · have ha' := hmap a
    dsimp only at ha'
    rw [hma, Option.map_some] at ha'
    obtain ⟨n', hn', hnext'⟩ := Option.map_eq_some_iff.mp ha'
    refine .cons hn' ?_
    rw [hnext', hm, L.next_setPrev, L.next_setNext]
    exact hforward.congr fun b _ => hmap b
  · rw [List.reverse_cons]
    exact hback'

end Specs

end SeaClaw.Lib.LinkedList
