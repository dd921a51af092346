import Mathlib.Data.List.Nodup
import Mathlib.Logic.Function.Basic

/-!
# Linked lists in a heap

A node knows the address of the next one. `Chain` says which nodes a pointer leads to, in
order; a chain that ends has no node twice. The loops here are the ones that visit a list: to
update every node, to free it, to look for a node, to read all of them and to take one out.
-/

namespace SeaClaw.Lib.LinkedList

variable {A N : Type*} (next : N → Option A)

/-- The nodes from a pointer to the end of its list. -/
inductive Chain (heap : A → Option N) : Option A → List A → Prop
  | nil : Chain heap none []
  | cons {a : A} {n : N} {l : List A} (hn : heap a = some n) (h : Chain heap (next n) l) :
      Chain heap (some a) (a :: l)

/-- The addresses that a pointer leads to. -/
inductive Reach (heap : A → Option N) : Option A → A → Prop
  | here (a : A) : Reach heap (some a) a
  | there {a b : A} {n : N} (hn : heap a = some n) (h : Reach heap (next n) b) :
      Reach heap (some a) b

variable {next}

section Chains

variable {heap heap' : A → Option N} {p : Option A}

/-- A pointer has one chain. -/
theorem Chain.unique {l m : List A} (hl : Chain next heap p l) (hm : Chain next heap p m) :
    l = m := by
  induction hl generalizing m with
  | nil =>
    cases hm
    rfl
  | cons hn _ ih =>
    cases hm with
    | cons hn' hm =>
      rw [hn] at hn'
      obtain rfl := Option.some.inj hn'
      rw [ih hm]

/-- A pointer leads to the first node of its chain. -/
theorem Chain.head_eq {l : List A} (h : Chain next heap p l) : p = l.head? := by
  cases h <;> rfl

theorem Chain.append_cons {l m : List A} {a : A} (h : Chain next heap p (l ++ a :: m)) :
    ∃ n, heap a = some n ∧ Chain next heap (next n) m := by
  induction l generalizing p with
  | nil =>
    cases h with
    | cons hn h => exact ⟨_, hn, h⟩
  | cons b l ih =>
    cases h with
    | cons hn h => exact ih h

/-- The nodes of a chain are live. -/
theorem Chain.live {l : List A} {a : A} (h : Chain next heap p l) (ha : a ∈ l) :
    ∃ n, heap a = some n := by
  obtain ⟨l₁, l₂, rfl⟩ := List.append_of_mem ha
  obtain ⟨n, hn, -⟩ := h.append_cons
  exact ⟨n, hn⟩

/-- A chain that ends has no node twice. -/
theorem Chain.nodup {l : List A} (h : Chain next heap p l) : l.Nodup := by
  induction h with
  | nil => exact List.nodup_nil
  | @cons a n l hn h ih =>
    refine List.nodup_cons.mpr ⟨?_, ih⟩
    intro ha
    -- the chain from the second visit would be both the rest and a part of the rest
    obtain ⟨l₁, l₂, rfl⟩ := List.append_of_mem ha
    obtain ⟨n', hn', h'⟩ := h.append_cons
    rw [hn] at hn'
    obtain rfl := Option.some.inj hn'
    have hlen := congrArg List.length (h.unique h')
    simp at hlen
    omega

/-- A chain only depends on the links of its nodes. -/
theorem Chain.congr {l : List A} (h : Chain next heap p l)
    (heq : ∀ a ∈ l, (heap' a).map next = (heap a).map next) : Chain next heap' p l := by
  induction h with
  | nil => exact .nil
  | @cons a n l hn h ih =>
    have ha := heq a List.mem_cons_self
    rw [hn, Option.map_some] at ha
    obtain ⟨n', hn', hnext⟩ := Option.map_eq_some_iff.mp ha
    refine .cons hn' ?_
    rw [hnext]
    exact ih fun b hb => heq b (List.mem_cons_of_mem _ hb)

theorem Chain.reach_iff {l : List A} (h : Chain next heap p l) (b : A) :
    Reach next heap p b ↔ b ∈ l := by
  induction h with
  | nil =>
    refine ⟨fun hr => ?_, fun hb => absurd hb List.not_mem_nil⟩
    cases hr
  | @cons a n l hn h ih =>
    rw [List.mem_cons, ← ih]
    constructor
    · intro hr
      cases hr with
      | here => exact Or.inl rfl
      | there hn' hr =>
        rw [hn] at hn'
        obtain rfl := Option.some.inj hn'
        exact Or.inr hr
    · rintro (rfl | hr)
      · exact .here b
      · exact .there hn hr

end Chains

section Updates

variable [DecidableEq A] {heap : A → Option N} {p : Option A}

/-- Changing a node that is not on the chain. -/
theorem Chain.update_of_notMem {l : List A} {a : A} (h : Chain next heap p l) (ha : a ∉ l)
    (n : Option N) : Chain next (Function.update heap a n) p l := by
  refine h.congr ?_
  intro b hb
  rw [Function.update_of_ne]
  rintro rfl
  exact ha hb

/-- Changing a node but not its link. -/
theorem Chain.update_same {l : List A} {a : A} {n n' : N} (h : Chain next heap p l)
    (hn : heap a = some n) (hnext : next n' = next n) :
    Chain next (Function.update heap a (some n')) p l := by
  refine h.congr ?_
  intro b _
  by_cases hb : b = a
  · subst hb
    rw [Function.update_self, hn, Option.map_some, Option.map_some, hnext]
  · rw [Function.update_of_ne hb]

/-- Linking a node elsewhere: what hung off it is no longer on the chain. -/
theorem Chain.relink {l r k : List A} {a : A} {m : N}
    (h : Chain next heap p (l ++ a :: r))
    (hk : Chain next (Function.update heap a (some m)) (next m) k) :
    Chain next (Function.update heap a (some m)) p (l ++ a :: k) := by
  have hnodup := h.nodup
  induction l generalizing p with
  | nil =>
    cases h with
    | cons => exact .cons (Function.update_self ..) hk
  | cons b l ih =>
    have hba : b ≠ a := by
      rintro rfl
      simp at hnodup
    cases h with
    | cons hn h =>
      refine .cons (n := _) ?_ (ih h (List.Nodup.of_cons hnodup))
      rw [Function.update_of_ne hba, hn]

end Updates

/-! ## Writing a link -/

section Links

variable [DecidableEq A]

/-- `*a = f(*a)`, undefined where the pointer dangles. -/
def modify (heap : A → Option N) (a : A) (f : N → N) : Option (A → Option N) :=
  (heap a).map fun n => Function.update heap a (some (f n))

/-- `if (p) p->next = q; else head = q;` -/
def setLink (setNext : Option A → N → N) (p q : Option A) (heap : A → Option N)
    (head : Option A) : Option ((A → Option N) × Option A) :=
  match p with
  | some p => (modify heap p (setNext q)).map fun heap => (heap, head)
  | none => some (heap, q)

variable {B : Type*} {f : N → B} {setNext : Option A → N → N} {heap heap' : A → Option N}
  {head head' p q : Option A} {a : A}

theorem modify_map {g : N → N} (hf : ∀ n, f (g n) = f n) (h : modify heap a g = some heap')
    (b : A) : (heap' b).map f = (heap b).map f := by
  obtain ⟨n, hn, rfl⟩ := Option.map_eq_some_iff.mp h
  by_cases hb : b = a
  · subst hb
    rw [Function.update_self, hn, Option.map_some, Option.map_some, hf]
  · rw [Function.update_of_ne hb]

/-- What the link is not a part of stays. -/
theorem setLink_map (hf : ∀ p n, f (setNext p n) = f n)
    (h : setLink setNext p q heap head = some (heap', head')) (b : A) :
    (heap' b).map f = (heap b).map f := by
  cases p with
  | none =>
    obtain ⟨rfl, -⟩ := Prod.mk.inj (Option.some.inj h)
    rfl
  | some p =>
    obtain ⟨m, hm, heq⟩ := Option.map_eq_some_iff.mp h
    obtain ⟨rfl, -⟩ := Prod.mk.inj heq
    exact modify_map (hf q) hm b

/-- Only the node whose link is written changes. -/
theorem setLink_of_ne (h : setLink setNext p q heap head = some (heap', head')) {b : A}
    (hb : p ≠ some b) : heap' b = heap b := by
  cases p with
  | none =>
    obtain ⟨rfl, -⟩ := Prod.mk.inj (Option.some.inj h)
    rfl
  | some p =>
    obtain ⟨m, hm, heq⟩ := Option.map_eq_some_iff.mp h
    obtain ⟨rfl, -⟩ := Prod.mk.inj heq
    obtain ⟨n, -, rfl⟩ := Option.map_eq_some_iff.mp hm
    exact Function.update_of_ne (fun he => hb (congrArg some he.symm)) _ _

/-- The nodes after the last of `l` are replaced. -/
theorem Chain.setLink {l r k : List A} (hset : ∀ p n, next (setNext p n) = p)
    (h : Chain next heap head (l ++ r)) (hq : Chain next heap q k) (hk : ∀ b ∈ l, b ∉ k) :
    ∃ heap' head', LinkedList.setLink setNext l.getLast? q heap head = some (heap', head') ∧
      Chain next heap' head' (l ++ k) := by
  rcases List.eq_nil_or_concat l with rfl | ⟨l, b, rfl⟩
  · exact ⟨_, _, rfl, hq⟩
  · rw [List.concat_eq_append] at *
    rw [List.append_assoc, List.singleton_append] at h
    obtain ⟨n, hn, -⟩ := h.append_cons
    rw [List.getLast?_concat]
    refine ⟨_, _, by simp only [LinkedList.setLink, modify, hn, Option.map_some]; rfl, ?_⟩
    rw [List.append_assoc, List.singleton_append]
    refine h.relink ?_
    rw [hset]
    exact hq.update_of_notMem (hk b (by simp)) _

end Links

/-! ## Loops over a list -/

section Loops

variable [DecidableEq A] (next)

/-- `for (a = p; a; a = a->next) *a = f(*a)`, undefined where a pointer dangles or the list
has more nodes than the fuel. -/
def forEach (f : N → N) : ℕ → (A → Option N) → Option A → Option (A → Option N)
  | _, heap, none => some heap
  | 0, _, some _ => none
  | fuel + 1, heap, some a =>
    (heap a).bind fun n =>
      forEach f fuel (Function.update heap a (some (f n))) (next (f n))

/-- `while (a) { b = a->next; free(a); a = b; }`, with the addresses in the order in which
they are freed. -/
def freeAll : ℕ → (A → Option N) → Option A → Option (List A × (A → Option N))
  | _, heap, none => some ([], heap)
  | 0, _, some _ => none
  | fuel + 1, heap, some a =>
    (heap a).bind fun n =>
      (freeAll fuel (Function.update heap a none) (next n)).map fun r => (a :: r.1, r.2)

/-- `for (; *pp; pp = &(*pp)->next) if (*pp == v) { *pp = v->next; break; }`, where `pp` is the
link of the node before, or the head. -/
def unchain (setNext : Option A → N → N) (v : A) : ℕ → (A → Option N) → Option A →
    (pp p : Option A) → Option ((A → Option N) × Option A)
  | _, heap, head, _, none => some (heap, head)
  | 0, _, _, _, some _ => none
  | fuel + 1, heap, head, pp, some a =>
    (heap a).bind fun n =>
      if a = v then setLink setNext pp (next n) heap head
      else unchain setNext v fuel heap head (some a) (next n)

variable {next} {heap : A → Option N} {p : Option A} {l : List A}

/-- Updating every node of a chain. -/
theorem Chain.forEach {f : N → N} (hf : ∀ n, next (f n) = next n) (h : Chain next heap p l)
    {fuel : ℕ} (hfuel : l.length ≤ fuel) : forEach next f fuel heap p =
      some fun a => if a ∈ l then (heap a).map f else heap a := by
  induction l generalizing p heap fuel with
  | nil =>
    cases h
    cases fuel <;> simp [LinkedList.forEach]
  | cons a l ih =>
    have hnodup := h.nodup
    have ha : a ∉ l := (List.nodup_cons.mp hnodup).1
    cases h with
    | @cons _ n _ hn h =>
      cases fuel with
      | zero => simp at hfuel
      | succ fuel =>
        have hrest : Chain next (Function.update heap a (some (f n))) (next (f n)) l := by
          rw [hf]
          exact h.update_of_notMem ha _
        rw [LinkedList.forEach, hn, Option.bind_some, ih hrest (by simpa using hfuel)]
        congr 1
        funext b
        by_cases hb : b = a
        · subst hb
          simp [ha, hn]
        · simp [hb]

/-- Freeing a chain frees each of its nodes once and nothing else. -/
theorem Chain.freeAll (h : Chain next heap p l) {fuel : ℕ} (hfuel : l.length ≤ fuel) :
    freeAll next fuel heap p = some (l, fun a => if a ∈ l then none else heap a) := by
  induction l generalizing p heap fuel with
  | nil =>
    cases h
    cases fuel <;> simp [LinkedList.freeAll]
  | cons a l ih =>
    have hnodup := h.nodup
    have ha : a ∉ l := (List.nodup_cons.mp hnodup).1
    cases h with
    | @cons _ n _ hn h =>
      cases fuel with
      | zero => simp at hfuel
      | succ fuel =>
        rw [LinkedList.freeAll, hn, Option.bind_some,
          ih (h.update_of_notMem ha none) (by simpa using hfuel), Option.map_some]
        congr 2
        funext b
        by_cases hb : b = a
        · subst hb
          simp
        · simp [hb]

/-- A node of the chain is found, and the link before it is written. -/
theorem Chain.unchain_eq {setNext : Option A → N → N} {head : Option A} {v : A} {n : N}
    {k r : List A} (h : Chain next heap p (l ++ v :: r)) (hv : heap v = some n) (hl : v ∉ l)
    {fuel : ℕ} (hfuel : l.length < fuel) :
    LinkedList.unchain next setNext v fuel heap head k.getLast? p =
      LinkedList.setLink setNext (k ++ l).getLast? (next n) heap head := by
  induction l generalizing p k fuel with
  | nil =>
    cases h
    obtain ⟨fuel, rfl⟩ := Nat.exists_eq_add_of_lt hfuel
    rw [List.append_nil, List.length_nil, Nat.zero_add, LinkedList.unchain, hv, Option.bind_some, if_pos rfl]
  | cons a l ih =>
    cases h with
    | @cons _ m _ hm h =>
      cases fuel with
      | zero => simp at hfuel
      | succ fuel =>
        have hne : a ≠ v := fun he => hl (he ▸ List.mem_cons_self)
        have hrest := ih (k := k ++ [a]) h (fun hmem => hl (List.mem_cons_of_mem _ hmem))
          (by simpa using hfuel)
        rw [List.getLast?_concat, List.append_assoc, List.singleton_append] at hrest
        rw [LinkedList.unchain, hm, Option.bind_some, if_neg hne, hrest]

/-- A node that is taken out leaves the others in their order, and what the link is not a part
of as it was. -/
theorem Chain.unchain {setNext : Option A → N → N} (hset : ∀ p n, next (setNext p n) = p)
    {v : A} {r : List A} (h : Chain next heap p (l ++ v :: r)) {fuel : ℕ}
    (hfuel : l.length < fuel) :
    ∃ heap' p', LinkedList.unchain next setNext v fuel heap p none p = some (heap', p') ∧
      Chain next heap' p' (l ++ r) ∧ (∀ b ∉ l, heap' b = heap b) ∧
      ∀ {B : Type} {f : N → B}, (∀ p n, f (setNext p n) = f n) →
        ∀ b, (heap' b).map f = (heap b).map f := by
  obtain ⟨n, hn, hr⟩ := h.append_cons
  have hnodup := h.nodup
  have hl : v ∉ l := by
    rw [List.nodup_middle, List.nodup_cons] at hnodup
    exact fun hv => hnodup.1 (List.mem_append_left _ hv)
  have happart : ∀ b ∈ l, b ∉ r := fun b hb hb' =>
    (List.nodup_append.mp hnodup).2.2 b hb b (List.mem_cons_of_mem _ hb') rfl
  obtain ⟨heap', p', hset', hchain⟩ := h.setLink hset hr happart
  have heq : LinkedList.unchain next setNext v fuel heap p ([] : List A).getLast? p =
      LinkedList.setLink setNext ([] ++ l).getLast? (next n) heap p := h.unchain_eq hn hl hfuel
  rw [List.nil_append, List.getLast?_nil, hset'] at heq
  refine ⟨heap', p', heq, hchain, ?_, fun hf => setLink_map hf hset'⟩
  intro b hb
  exact setLink_of_ne hset' fun hlast => hb (List.mem_of_getLast? hlast)

end Loops

section Reading

variable (next)

/-- `for (a = p; a; a = a->next) if (test(a)) return a;` -/
def findNode (test : N → Bool) : ℕ → (A → Option N) → Option A → Option (Option A)
  | _, _, none => some none
  | 0, _, some _ => none
  | fuel + 1, heap, some a =>
    (heap a).bind fun n =>
      if test n = true then some (some a) else findNode test fuel heap (next n)

/-- The nodes that `for (a = p; a; a = a->next)` visits, in their order. -/
def collect : ℕ → (A → Option N) → Option A → Option (List N)
  | _, _, none => some []
  | 0, _, some _ => none
  | fuel + 1, heap, some a =>
    (heap a).bind fun n => (collect fuel heap (next n)).map fun l => n :: l

variable {next} {heap : A → Option N} {p : Option A} {l : List A}

/-- The first node that passes the test. -/
theorem Chain.findNode {test : N → Bool} (h : Chain next heap p l) {fuel : ℕ}
    (hfuel : l.length ≤ fuel) : findNode next test fuel heap p =
      some (l.find? fun a => (heap a).any test) := by
  induction l generalizing p fuel with
  | nil =>
    cases h
    cases fuel <;> rfl
  | cons a l ih =>
    cases h with
    | @cons _ n _ hn h =>
      cases fuel with
      | zero => simp at hfuel
      | succ fuel =>
        rw [LinkedList.findNode, hn, Option.bind_some, ih h (by simpa using hfuel)]
        by_cases htest : test n = true
        · rw [if_pos htest, List.find?_cons_of_pos (by simpa [hn] using htest)]
        · rw [if_neg htest, List.find?_cons_of_neg (by simpa [hn] using htest)]

/-- The nodes of a chain are read in its order. -/
theorem Chain.collect (h : Chain next heap p l) {fuel : ℕ} (hfuel : l.length ≤ fuel) :
    ∃ ns, collect next fuel heap p = some ns ∧ l.map heap = ns.map some := by
  induction l generalizing p fuel with
  | nil =>
    cases h
    cases fuel <;> exact ⟨[], rfl, rfl⟩
  | cons a l ih =>
    cases h with
    | @cons _ n _ hn h =>
      cases fuel with
      | zero => simp at hfuel
      | succ fuel =>
        obtain ⟨ns, hns, hmap⟩ := ih h (by simpa using hfuel)
        refine ⟨n :: ns, ?_, ?_⟩
        · rw [LinkedList.collect, hn, Option.bind_some, hns, Option.map_some]
        · rw [List.map_cons, hn, hmap, List.map_cons]

end Reading

end SeaClaw.Lib.LinkedList
