import SeaClaw.Core.Arena

/-!
# Who owns the blocks of an arena

The blocks on the list from the head are those that destroying the arena gives back. Only
one kind of step can lose a block: to link a new block after a current block that has a
next one already, which happens after a reset.
-/

namespace SeaClaw.Core

open SeaClaw.Lib LinkedList

variable {A : Type} [DecidableEq A]

/-- The blocks on the list are `l`, and the current one is among them. -/
structure Shape (s : Arena A) (l : List A) : Prop where
  chain : Chain Block.next s.blocks s.head l
  current : (s.current = none ∧ l = []) ∨ ∃ c ∈ l, s.current = some c
  self : s.blocks s.self = none
  fuel : l.length ≤ s.calls

/-- Every block obtained is reachable, and destroying the arena gives back each one and the
arena itself, once. -/
structure Owns (s : Arena A) : Prop where
  reachable : ∀ a, (s.blocks a).isSome → Reach Block.next s.blocks s.head a
  destroyed : ∃ freed, scArenaDestroy s = some freed ∧ freed.Nodup ∧
    ∀ a, a ∈ freed ↔ s.live a = true

/-- The block that a piece of this size takes from the backing allocator. -/
def obtains (b : Backing A) (s : Arena A) (size : ℕ) : Option A :=
  if size > sizeMax - 7 then none
  else if noRoom s (align size) = some true then (blockNew b s (align size)).1
  else none

/-- The block that hangs off the current one. -/
def afterCurrent (s : Arena A) : Option A := (s.current.bind s.blocks).bind Block.next

/-- A new block is obtained only behind the last block. -/
def Keeps (b : Backing A) (s : Arena A) : ArenaOp → Prop
  | .alloc size | .realloc size => obtains b s size = none ∨ afterCurrent s = none
  | .free | .reset => True

instance (b : Backing A) (s : Arena A) : ∀ op, Decidable (Keeps b s op)
  | .alloc _ | .realloc _ => inferInstanceAs (Decidable (_ ∨ _))
  | .free | .reset => isTrue trivial

/-! ## One step -/

section Steps

variable {b : Backing A} {s : Arena A} {l : List A}

omit [DecidableEq A] in
theorem Shape.self_notMem (h : Shape s l) : s.self ∉ l := by
  intro hmem
  obtain ⟨n, hn⟩ := h.chain.live hmem
  rw [h.self] at hn
  exact absurd hn (by simp)

/-- The arena owns its blocks when they are all on the list. -/
theorem Shape.owns_iff (h : Shape s l) : Owns s ↔ ∀ a, (s.blocks a).isSome → a ∈ l := by
  constructor
  · intro ho a ha
    exact (h.chain.reach_iff a).mp (ho.reachable a ha)
  · intro hall
    refine ⟨fun a ha => (h.chain.reach_iff a).mpr (hall a ha), l ++ [s.self], ?_, ?_, ?_⟩
    · rw [scArenaDestroy, h.chain.freeAll h.fuel, Option.map_some]
    · rw [List.nodup_append]
      refine ⟨h.chain.nodup, List.nodup_singleton _, ?_⟩
      intro a ha a' ha' heq
      rw [List.mem_singleton] at ha'
      subst heq ha'
      exact h.self_notMem ha
    · intro a
      rw [List.mem_append, List.mem_singleton, Arena.live, Bool.or_eq_true, decide_eq_true_eq,
        or_comm]
      refine or_congr Iff.rfl ⟨fun ha => ?_, hall a⟩
      obtain ⟨n, hn⟩ := h.chain.live ha
      rw [hn, Option.isSome_some]

/-- A piece of the current block leaves the list as it is. -/
theorem Shape.bump (h : Shape s l) {c : A} (hc : s.current = some c) (hl : c ∈ l)
    (aligned size : ℕ) : ∃ r s', bump s aligned size = some (r, s') ∧ Shape s' l ∧
      ∀ a, (s'.blocks a).isSome = (s.blocks a).isSome := by
  obtain ⟨blk, hblk⟩ := h.chain.live hl
  have hself : c ≠ s.self := by
    rintro rfl
    exact h.self_notMem hl
  refine ⟨_, _, by rw [Core.bump, hc, Option.bind_some, hblk, Option.map_some], ⟨?_, ?_, ?_, ?_⟩,
    ?_⟩
  · exact h.chain.update_same hblk rfl
  · exact Or.inr ⟨c, hl, rfl⟩
  · simp only [Function.update_of_ne hself.symm, h.self]
  · exact h.fuel
  · intro a
    by_cases ha : a = c
    · subst ha
      simp [hblk]
    · simp [ha]

/-- What `blockNew` changes: it obtains a block that is not live, or none. -/
theorem blockNew_cases (b : Backing A) (s : Arena A) (n : ℕ) :
    (∃ k, s.calls ≤ k ∧ blockNew b s n = (none, { s with calls := k })) ∨
    (∃ a size, s.live a = false ∧ blockNew b s n = (some a, { s with
      calls := s.calls + 1
      blocks := Function.update s.blocks a (some ⟨size, 0, none⟩) })) := by
  unfold blockNew
  simp only
  by_cases hbig : (if n > arenaBlockSize then n else arenaBlockSize) > sizeMax - sizeofBlock
  · rw [if_pos hbig]
    exact Or.inl ⟨s.calls, Nat.le_refl _, rfl⟩
  · rw [if_neg hbig]
    cases ha : b.answer s.calls s.live
        (sizeofBlock + if n > arenaBlockSize then n else arenaBlockSize) with
    | none => exact Or.inl ⟨s.calls + 1, Nat.le_succ _, rfl⟩
    | some a => exact Or.inr ⟨a, _, b.fresh _ _ _ _ ha, rfl⟩

/-- A block that is not live is neither the arena nor on the list. -/
theorem Shape.of_not_live (h : Shape s l) {a : A} (ha : s.live a = false) :
    a ≠ s.self ∧ s.blocks a = none ∧ a ∉ l := by
  rw [Arena.live, Bool.or_eq_false_iff, decide_eq_false_iff_not] at ha
  obtain ⟨hself, hnone⟩ := ha
  have hblk : s.blocks a = none := by simpa using hnone
  refine ⟨hself, hblk, ?_⟩
  intro hmem
  obtain ⟨n, hn⟩ := h.chain.live hmem
  rw [hblk] at hn
  exact absurd hn (by simp)

/-- Linking a new block cuts the list behind the current block. -/
theorem Shape.link (h : Shape s l) {a : A} (size : ℕ) (ha : s.live a = false) :
    ∃ s' l', link { s with
        calls := s.calls + 1
        blocks := Function.update s.blocks a (some ⟨size, 0, none⟩) } a = some s' ∧
      Shape s' l' ∧ s'.current = some a ∧ a ∈ l' ∧
      (∀ x, (s'.blocks x).isSome = (decide (x = a) || (s.blocks x).isSome)) ∧
      ((∀ x ∈ l, x ∈ l') ↔ afterCurrent s = none) := by
  obtain ⟨hself, hblk, hal⟩ := h.of_not_live ha
  have hnew : Chain Block.next (Function.update s.blocks a (some ⟨size, 0, none⟩)) s.head l :=
    h.chain.update_of_notMem hal _
  rcases h.current with ⟨hc, rfl⟩ | ⟨c, hcl, hc⟩
  · refine ⟨_, [a], by rw [Core.link]; simp only [hc]; rfl, ⟨?_, ?_, ?_, ?_⟩, rfl, by simp, ?_, ?_⟩
    · exact .cons (Function.update_self ..) .nil
    · exact Or.inr ⟨a, by simp, rfl⟩
    · simp only [Function.update_of_ne hself.symm, h.self]
    · simp
    · intro x
      by_cases hx : x = a <;> simp [hx]
    · simp [afterCurrent, hc]
  · have hca : c ≠ a := by
      rintro rfl
      exact hal hcl
    obtain ⟨pre, post, rfl⟩ := List.append_of_mem hcl
    obtain ⟨blk, hcblk, hpost⟩ := h.chain.append_cons
    have hcblk' : Function.update s.blocks a (some ⟨size, 0, none⟩) c = some blk := by
      rw [Function.update_of_ne hca, hcblk]
    have hcs : c ≠ s.self := by
      rintro rfl
      exact h.self_notMem hcl
    refine ⟨_, pre ++ c :: [a], by rw [Core.link]; simp only [hc, hcblk']; rfl, ⟨?_, ?_, ?_, ?_⟩,
      rfl, by simp, ?_, ?_⟩
    · refine hnew.relink (m := { blk with next := some a }) (.cons (n := ⟨size, 0, none⟩) ?_ .nil)
      rw [Function.update_of_ne hca.symm, Function.update_self]
    · exact Or.inr ⟨a, by simp, rfl⟩
    · simp only [Function.update_of_ne hcs.symm, Function.update_of_ne hself.symm, h.self]
    · have := h.fuel
      simp only [List.length_append, List.length_cons, List.length_nil] at this ⊢
      omega
    · intro x
      by_cases hx : x = c
      · subst hx
        simp [hcblk]
      · by_cases hxa : x = a <;> simp [hx, hxa]
        subst hxa
        simp [hca.symm]
    · have hnodup := h.chain.nodup
      rw [afterCurrent, hc, Option.bind_some, hcblk, Option.bind_some]
      constructor
      · intro hall
        cases hp : post with
        | nil =>
          subst hp
          generalize hq : blk.next = q at hpost
          cases hpost
          rfl
        | cons x post =>
          subst hp
          have hx := hall x (by simp)
          rw [List.nodup_append] at hnodup
          obtain ⟨-, hnodup, hdisj⟩ := hnodup
          simp only [List.mem_append, List.mem_cons, List.not_mem_nil, or_false] at hx
          rcases hx with hx | rfl | rfl
          · exact absurd rfl (hdisj x hx x (by simp))
          · simp at hnodup
          · exact absurd (by simp) hal
      · intro hnext
        rw [hnext] at hpost
        cases hpost
        intro x hx
        simp only [List.mem_append, List.mem_cons, List.not_mem_nil, or_false] at hx ⊢
        rcases hx with hx | hx
        · exact Or.inl hx
        · exact Or.inr (Or.inl hx)

/-- What a piece does to the list: nothing, or it puts a new block behind the current one. -/
theorem Shape.alloc (h : Shape s l) (size : ℕ) :
    ∃ r s' l', arenaAlloc b s size = some (r, s') ∧ Shape s' l' ∧
      ((obtains b s size = none ∧ l' = l ∧ ∀ x, (s'.blocks x).isSome = (s.blocks x).isSome) ∨
        ∃ a, obtains b s size = some a ∧ a ∈ l' ∧
          (∀ x, (s'.blocks x).isSome = (decide (x = a) || (s.blocks x).isSome)) ∧
          ((∀ x ∈ l, x ∈ l') ↔ afterCurrent s = none)) := by
  unfold arenaAlloc obtains
  by_cases hbig : size > sizeMax - 7
  · simp only [if_pos hbig]
    exact ⟨_, s, l, rfl, h, Or.inl ⟨trivial, rfl, fun _ => rfl⟩⟩
  simp only [if_neg hbig]
  have hfull : ∃ full, noRoom s (align size) = some full ∧
      (full = false → ∃ c ∈ l, s.current = some c) := by
    unfold noRoom
    rcases h.current with ⟨hc, -⟩ | ⟨c, hcl, hc⟩
    · exact ⟨true, by rw [hc], by simp⟩
    · obtain ⟨blk, hblk⟩ := h.chain.live hcl
      simp only [hc, hblk, Option.map_some]
      exact ⟨_, rfl, fun _ => ⟨c, hcl, rfl⟩⟩
  obtain ⟨full, hfull, hcur⟩ := hfull
  rw [hfull, Option.bind_some]
  cases full with
  | false =>
    obtain ⟨c, hcl, hc⟩ := hcur rfl
    obtain ⟨r, s', hb, hs', hlive⟩ := h.bump hc hcl (align size) size
    exact ⟨r, s', l, hb, hs', Or.inl ⟨by simp, rfl, hlive⟩⟩
  | true =>
    simp only [if_true]
    rcases blockNew_cases b s (align size) with ⟨k, hk, hnew⟩ | ⟨a, n, ha, hnew⟩
    · simp only [hnew]
      refine ⟨_, _, l, rfl, ⟨h.chain, h.current, h.self, Nat.le_trans h.fuel hk⟩,
        Or.inl ⟨trivial, rfl, fun _ => rfl⟩⟩
    · simp only [hnew]
      obtain ⟨s₁, l₁, hlink, hs₁, hcur₁, hal, hlive₁, hkeep⟩ := h.link n ha
      obtain ⟨r, s', hb, hs', hlive⟩ := hs₁.bump hcur₁ hal (align size) size
      refine ⟨r, s', l₁, by rw [hlink, Option.bind_some, hb], hs', Or.inr ⟨a, rfl, hal, ?_, hkeep⟩⟩
      intro x
      rw [hlive, hlive₁]

/-- A reset keeps the list. -/
theorem Shape.reset (h : Shape s l) : ∃ s', scArenaReset s = some s' ∧ Shape s' l ∧
    ∀ x, (s'.blocks x).isSome = (s.blocks x).isSome := by
  have hrun := h.chain.forEach (f := fun blk : Block A => { blk with used := 0 }) (fun _ => rfl)
    h.fuel
  have hblocks : ∀ x, ((if x ∈ l then (s.blocks x).map fun blk => { blk with used := 0 }
      else s.blocks x)).isSome = (s.blocks x).isSome := by
    intro x
    split_ifs <;> simp
  have hcurrent : (s.head = none ∧ l = []) ∨ ∃ c ∈ l, s.head = some c := by
    have hchain := h.chain
    generalize hp : s.head = p at hchain
    cases hchain with
    | nil => exact Or.inl ⟨rfl, rfl⟩
    | cons => exact Or.inr ⟨_, List.mem_cons_self, rfl⟩
  have hreset : scArenaReset s = some { s with
      blocks := fun a => if a ∈ l then (s.blocks a).map fun blk => { blk with used := 0 }
        else s.blocks a
      current := s.head
      totalUsed := 0 } := by
    rw [scArenaReset, hrun, Option.map_some]
  refine ⟨_, hreset, ⟨?_, hcurrent, ?_, h.fuel⟩, hblocks⟩
  · refine h.chain.congr ?_
    intro a ha
    simp only [if_pos ha, Option.map_map]
    rfl
  · simp only [if_neg h.self_notMem, h.self]

/-- Each step keeps the shape of the list, and keeps the ownership exactly when it does not
link a block over another one. -/
theorem Shape.step (h : Shape s l) (op : ArenaOp) : ∃ s' l', arenaStep b s op = some s' ∧ Shape s' l' ∧
    (Owns s → (Owns s' ↔ Keeps b s op)) := by
  have hsame : ∀ s', Shape s' l → (∀ x, (s'.blocks x).isSome = (s.blocks x).isSome) →
      Owns s → Owns s' := by
    intro s' hs' hlive ho
    rw [hs'.owns_iff]
    rw [h.owns_iff] at ho
    intro a ha
    rw [hlive] at ha
    exact ho a ha
  have halloc : ∀ size, ∃ s' l', (arenaAlloc b s size).map Prod.snd = some s' ∧ Shape s' l' ∧
      (Owns s → (Owns s' ↔ (obtains b s size = none ∨ afterCurrent s = none))) := by
    intro size
    obtain ⟨r, s', l', hrun, hs', hcase⟩ := h.alloc (b := b) size
    refine ⟨s', l', by rw [hrun, Option.map_some], hs', ?_⟩
    intro ho
    rcases hcase with ⟨hnone, rfl, hlive⟩ | ⟨a, hsome, hal, hlive, hkeep⟩
    · exact ⟨fun _ => Or.inl hnone, fun _ => hsame s' hs' hlive ho⟩
    · rw [hsome, hs'.owns_iff, ← hkeep]
      rw [h.owns_iff] at ho
      constructor
      · intro hall
        refine Or.inr fun x hx => hall x ?_
        obtain ⟨n, hn⟩ := h.chain.live hx
        rw [hlive, hn]
        simp
      · rintro (habs | hall) x hx
        · exact absurd habs (by simp)
        · rw [hlive, Bool.or_eq_true, decide_eq_true_eq] at hx
          rcases hx with rfl | hx
          · exact hal
          · exact hall x (ho x hx)
  cases op with
  | alloc size => exact halloc size
  | realloc size => exact halloc size
  | free => exact ⟨s, l, rfl, h, fun ho => ⟨fun _ => trivial, fun _ => ho⟩⟩
  | reset =>
    obtain ⟨s', hrun, hs', hlive⟩ := h.reset
    exact ⟨s', l, hrun, hs', fun ho => ⟨fun _ => trivial, fun _ => hsame s' hs' hlive ho⟩⟩

end Steps

/-! ## Runs -/

theorem shape_create {b : Backing A} {s : Arena A} (h : scArenaCreate b = some s) :
    Shape s [] ∧ Owns s := by
  obtain ⟨self, -, rfl⟩ := Option.map_eq_some_iff.mp h
  have hshape : Shape (⟨self, fun _ => none, 1, none, none, 0⟩ : Arena A) [] :=
    ⟨.nil, Or.inl ⟨rfl, rfl⟩, rfl, by simp⟩
  exact ⟨hshape, hshape.owns_iff.mpr (by simp)⟩

/-- In every run from a new arena the blocks obtained stay reachable, and are given back once
each by a destroy at any point, if and only if no step links a new block over the one that
hangs off the current block. -/
theorem arena_owns_iff (b : Backing A) (s : Arena A) (h : scArenaCreate b = some s)
    (ops : List ArenaOp) : Machine.Throughout (arenaStep b) Owns s ops ↔
      Machine.EveryStep (arenaStep b) (Keeps b) s ops := by
  obtain ⟨hshape, howns⟩ := shape_create h
  refine Machine.throughout_iff_everyStep (I := fun s => ∃ l, Shape s l) ?_ ?_ ⟨[], hshape⟩ howns
    ops
  · rintro s op ⟨l, hl⟩
    obtain ⟨s', l', hstep, hl', -⟩ := hl.step (b := b) op
    exact ⟨s', hstep, l', hl'⟩
  · rintro s op s' ⟨l, hl⟩ ho hs'
    obtain ⟨s'', l', hstep, -, hiff⟩ := hl.step (b := b) op
    obtain rfl : s'' = s' := Option.some.inj (hstep.symm.trans hs')
    exact hiff ho

/-- The `n`-th call is answered with the address `n`. -/
def countingBacking : Backing ℕ where
  answer n live _ := if live n then none else some n
  fresh n live _ a h := by
    split_ifs at h with hn
    · obtain rfl := Option.some.inj h
      simpa using hn

/-- Two blocks, and a reset between them. -/
theorem arena_owns_iff_reset : Machine.Throughout (arenaStep countingBacking) Owns
    (⟨0, fun _ => none, 1, none, none, 0⟩ : Arena ℕ) [.alloc 100, .reset, .alloc 5000, .reset] :=
  (arena_owns_iff countingBacking _ rfl _).mpr (by decide)

/-- After a reset the first block fills up again, and its new successor takes the place of
the old one. -/
theorem arena_loses_block : ¬ Machine.Throughout (arenaStep countingBacking) Owns
    (⟨0, fun _ => none, 1, none, none, 0⟩ : Arena ℕ)
    [.alloc 4096, .alloc 8, .reset, .alloc 4096, .alloc 8] := by
  intro h
  obtain ⟨s, hs, ho⟩ := h.run
  obtain ⟨freed, hfreed, -, hall⟩ := ho.destroyed
  have hlost : (Machine.run (arenaStep countingBacking)
      (⟨0, fun _ => none, 1, none, none, 0⟩ : Arena ℕ)
      [.alloc 4096, .alloc 8, .reset, .alloc 4096, .alloc 8]).map
        (fun s => (scArenaDestroy s, s.live 2)) = some (some [1, 3, 0], true) := by decide
  rw [hs, Option.map_some, Option.some.injEq, Prod.mk.injEq, hfreed, Option.some.injEq] at hlost
  obtain ⟨rfl, hlive⟩ := hlost
  exact absurd ((hall 2).mpr hlive) (by decide)

end SeaClaw.Core
