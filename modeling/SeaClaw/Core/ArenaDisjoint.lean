import SeaClaw.Core.ArenaOwnership
import Mathlib

/-!
# The pieces of an arena

A piece is what an allocation hands out. Between two resets the pieces lie in live blocks,
below what is used of them, and no two of them share an octet.
-/

namespace SeaClaw.Core

open SeaClaw.Lib

/-- What an allocation returned: a block, the offset from its data and the octets asked for. -/
structure Piece (A : Type) where
  block : A
  offset : ℕ
  size : ℕ

/-- The octets of a piece, each a place in the data of a block. -/
def Piece.octets {A : Type} (p : Piece A) : Set (A × ℕ) :=
  {x | x.1 = p.block ∧ p.offset ≤ x.2 ∧ x.2 < p.offset + p.size}

/-- An arena and the pieces that it returned since the last reset, the last one first. -/
structure Ledger (A : Type) where
  arena : Arena A
  pieces : List (Piece A)

variable {A : Type} [DecidableEq A]

/-- The ledger behind an allocation; a `NULL` is no piece. -/
def Ledger.enter (s : Ledger A) (size : ℕ) : Option (A × ℕ) × Arena A → Ledger A
  | (none, arena) => { s with arena := arena }
  | (some (block, offset), arena) => ⟨arena, ⟨block, offset, size⟩ :: s.pieces⟩

/-- One call, and what it returned. -/
def ledgerStep (b : Backing A) (s : Ledger A) : ArenaOp → Option (Ledger A)
  | .alloc size => (arenaAlloc b s.arena size).map (s.enter size)
  | .realloc newSize => (arenaRealloc b s.arena newSize).map (s.enter newSize)
  | .free => some s
  | .reset => (scArenaReset s.arena).map fun arena => ⟨arena, []⟩

/-- The pieces share no octet, start at multiples of eight, and lie in the data of live
blocks. -/
structure Apart (s : Ledger A) : Prop where
  disjoint : s.pieces.Pairwise fun p q => Disjoint p.octets q.octets
  aligned : ∀ p ∈ s.pieces, 8 ∣ p.offset
  inside : ∀ p ∈ s.pieces, ∃ blk, s.arena.blocks p.block = some blk ∧
    p.offset + p.size ≤ blk.size

/-- What is used of a live block lies in its data, which the address space has room for. -/
structure Block.Sound (blk : Block A) : Prop where
  used_le : blk.used ≤ blk.size
  size_le : blk.size ≤ sizeMax - sizeofBlock
  aligned : 8 ∣ blk.used

/-- The live blocks are sound, and the pieces lie below what is used of them. -/
structure Fits (blocks : A → Option (Block A)) (pieces : List (Piece A)) : Prop where
  sound : ∀ a blk, blocks a = some blk → blk.Sound
  disjoint : pieces.Pairwise fun p q => Disjoint p.octets q.octets
  aligned : ∀ p ∈ pieces, 8 ∣ p.offset
  below : ∀ p ∈ pieces, ∃ blk, blocks p.block = some blk ∧ p.offset + p.size ≤ blk.used

omit [DecidableEq A] in
theorem Fits.apart {s : Ledger A} (h : Fits s.arena.blocks s.pieces) : Apart s := by
  refine ⟨h.disjoint, h.aligned, ?_⟩
  intro p hp
  obtain ⟨blk, hblk, hbelow⟩ := h.below p hp
  exact ⟨blk, hblk, hbelow.trans (h.sound _ _ hblk).used_le⟩

theorem le_align (size : ℕ) : size ≤ align size := by
  rw [align]
  omega

theorem dvd_align (size : ℕ) : 8 ∣ align size := Dvd.intro_left _ rfl

section Blocks

variable {blocks : A → Option (Block A)} {pieces : List (Piece A)}

/-- A change of one block that uses no less of it keeps all pieces. -/
theorem Fits.update (h : Fits blocks pieces) {a : A} {blk : Block A} (hblk : blk.Sound)
    (hused : ∀ old, blocks a = some old → old.used ≤ blk.used) :
    Fits (Function.update blocks a (some blk)) pieces := by
  refine ⟨?_, h.disjoint, h.aligned, ?_⟩
  · intro x new hnew
    by_cases hx : x = a
    · subst hx
      rw [Function.update_self, Option.some.injEq] at hnew
      exact hnew ▸ hblk
    · rw [Function.update_of_ne hx] at hnew
      exact h.sound x new hnew
  · intro p hp
    obtain ⟨old, hold, hbelow⟩ := h.below p hp
    by_cases hx : p.block = a
    · refine ⟨blk, by rw [hx, Function.update_self], hbelow.trans (hused old ?_)⟩
      rw [← hx, hold]
    · exact ⟨old, by rw [Function.update_of_ne hx, hold], hbelow⟩

omit [DecidableEq A] in
/-- A piece that starts where the use of its block ends meets no other piece. -/
theorem Fits.disjoint_above (h : Fits blocks pieces) {a : A} {blk : Block A}
    (hblk : blocks a = some blk) (size : ℕ) :
    ∀ p ∈ pieces, Disjoint (Piece.octets ⟨a, blk.used, size⟩) p.octets := by
  intro p hp
  obtain ⟨old, hold, hbelow⟩ := h.below p hp
  rw [Set.disjoint_left]
  rintro x ⟨hx, hge, -⟩ ⟨hx', -, hlt⟩
  rw [← hx', hx, hblk, Option.some.injEq] at hold
  subst hold
  simp only at hge
  omega

/-- A piece of a block with room for it. -/
theorem Fits.bump (h : Fits blocks pieces) {a : A} {blk : Block A} (hblk : blocks a = some blk)
    {size : ℕ} (hroom : blk.used + align size ≤ blk.size) :
    Fits (Function.update blocks a (some { blk with used := blk.used + align size }))
      (⟨a, blk.used, size⟩ :: pieces) := by
  have hsound := h.sound a blk hblk
  have hnew : Fits (Function.update blocks a (some { blk with used := blk.used + align size }))
      pieces := by
    apply h.update
    · exact ⟨hroom, hsound.size_le, Nat.dvd_add hsound.aligned (dvd_align size)⟩
    · intro old hold
      rw [hblk, Option.some.injEq] at hold
      subst hold
      exact Nat.le_add_right _ _
  refine ⟨hnew.sound, ?_, ?_, ?_⟩
  · exact List.pairwise_cons.mpr ⟨h.disjoint_above hblk size, h.disjoint⟩
  · intro p hp
    rcases List.mem_cons.mp hp with rfl | hp
    · exact hsound.aligned
    · exact h.aligned p hp
  · intro p hp
    rcases List.mem_cons.mp hp with rfl | hp
    · refine ⟨_, Function.update_self .., ?_⟩
      exact Nat.add_le_add_left (le_align size) _
    · exact hnew.below p hp

end Blocks

/-! ## The calls -/

section Calls

variable {b : Backing A} {s s' : Arena A} {pieces : List (Piece A)}

/-- A new block was not live before, is empty and has the room asked for. -/
theorem blockNew_some {n : ℕ} {a : A} (h : blockNew b s n = (some a, s')) :
    s.live a = false ∧ ∃ size, n ≤ size ∧ size ≤ sizeMax - sizeofBlock ∧ s' = { s with
      calls := s.calls + 1
      blocks := Function.update s.blocks a (some ⟨size, 0, none⟩) } := by
  unfold blockNew at h
  simp only at h
  have hle : n ≤ if n > arenaBlockSize then n else arenaBlockSize := by
    split_ifs with hn
    · exact le_rfl
    · exact Nat.le_of_not_lt hn
  generalize (if n > arenaBlockSize then n else arenaBlockSize) = size at h hle
  by_cases hbig : size > sizeMax - sizeofBlock
  · rw [if_pos hbig] at h
    exact absurd (congrArg Prod.fst h) (by simp)
  · rw [if_neg hbig] at h
    cases ha : b.answer s.calls s.live (sizeofBlock + size) with
    | none =>
      rw [ha] at h
      exact absurd (congrArg Prod.fst h) (by simp)
    | some x =>
      rw [ha] at h
      obtain ⟨hx, hs⟩ := Prod.mk.inj h
      obtain rfl := Option.some.inj hx
      exact ⟨b.fresh _ _ _ _ ha, size, hle, Nat.le_of_not_lt hbig, hs.symm⟩

omit [DecidableEq A] in
theorem noRoom_false {aligned : ℕ} (h : noRoom s aligned = some false) :
    ∃ c blk, s.current = some c ∧ s.blocks c = some blk ∧ blk.used + aligned ≤ blk.size := by
  unfold noRoom at h
  cases hc : s.current with
  | none =>
    rw [hc] at h
    exact absurd h (by simp)
  | some c =>
    rw [hc] at h
    obtain ⟨blk, hblk, hroom⟩ := Option.map_eq_some_iff.mp h
    rw [decide_eq_false_iff_not, not_or, not_lt, not_lt] at hroom
    exact ⟨c, blk, rfl, hblk, hroom.2⟩

/-- Linking changes no block but for its successor, and the new block becomes current. -/
theorem Fits.link {a : A} (h : Fits s.blocks pieces) (hs : Core.link s a = some s') :
    Fits s'.blocks pieces ∧ s'.current = some a ∧
      ∀ blk, s.blocks a = some blk → ∃ next, s'.blocks a = some { blk with next := next } := by
  unfold Core.link at hs
  cases hc : s.current with
  | none =>
    rw [hc] at hs
    obtain rfl := Option.some.inj hs
    exact ⟨h, rfl, fun blk hblk => ⟨blk.next, hblk⟩⟩
  | some c =>
    rw [hc] at hs
    obtain ⟨old, hold, rfl⟩ := Option.map_eq_some_iff.mp hs
    have hsound := h.sound c old hold
    refine ⟨h.update ⟨hsound.used_le, hsound.size_le, hsound.aligned⟩ ?_, rfl, ?_⟩
    · intro x hx
      rw [hold, Option.some.injEq] at hx
      exact hx ▸ le_rfl
    · intro blk hblk
      by_cases ha : a = c
      · subst ha
        rw [hold, Option.some.injEq] at hblk
        subst hblk
        exact ⟨some a, Function.update_self ..⟩
      · exact ⟨blk.next, by simp only [Function.update_of_ne ha, hblk]⟩

/-- A piece of the current block, when it has the room. -/
theorem Fits.enter_bump {l : Ledger A} (h : Fits s.blocks l.pieces) {c : A} {blk : Block A}
    (hc : s.current = some c) (hblk : s.blocks c = some blk) {size : ℕ}
    (hroom : blk.used + align size ≤ blk.size) {r : Option (A × ℕ) × Arena A}
    (hr : Core.bump s (align size) size = some r) :
    Fits (l.enter size r).arena.blocks (l.enter size r).pieces := by
  rw [Core.bump, hc, Option.bind_some, hblk, Option.map_some, Option.some.injEq] at hr
  subst hr
  exact h.bump hblk hroom

/-- An allocation keeps the pieces apart, whatever its size. -/
theorem Fits.alloc {l : Ledger A} (h : Fits l.arena.blocks l.pieces) {size : ℕ}
    {r : Option (A × ℕ) × Arena A} (hr : arenaAlloc b l.arena size = some r) :
    Fits (l.enter size r).arena.blocks (l.enter size r).pieces := by
  unfold arenaAlloc at hr
  by_cases hbig : size > sizeMax - 7
  · rw [if_pos hbig, Option.some.injEq] at hr
    subst hr
    exact h
  rw [if_neg hbig] at hr
  obtain ⟨full, hfull, hr⟩ := Option.bind_eq_some_iff.mp hr
  cases full with
  | false =>
    obtain ⟨c, blk, hc, hblk, hroom⟩ := noRoom_false hfull
    exact h.enter_bump hc hblk hroom hr
  | true =>
    simp only [ite_true] at hr
    rcases hnew : blockNew b l.arena (align size) with ⟨_ | a, s₁⟩
    · rw [hnew, Option.some.injEq] at hr
      subst hr
      rcases blockNew_cases b l.arena (align size) with ⟨k, -, hcase⟩ | ⟨a, n, -, hcase⟩
      · rw [hcase] at hnew
        obtain rfl := (Prod.mk.inj hnew).2
        exact h
      · rw [hcase] at hnew
        exact absurd (Prod.mk.inj hnew).1 (by simp)
    · rw [hnew] at hr
      obtain ⟨s₂, hlink, hbump⟩ := Option.bind_eq_some_iff.mp hr
      obtain ⟨hlive, n, hn, hmax, rfl⟩ := blockNew_some hnew
      have hnone : l.arena.blocks a = none := by
        rw [Arena.live, Bool.or_eq_false_iff] at hlive
        simpa using hlive.2
      have hfits : Fits (Function.update l.arena.blocks a (some ⟨n, 0, none⟩)) l.pieces := by
        refine h.update ⟨Nat.zero_le _, hmax, Nat.dvd_zero _⟩ ?_
        intro old hold
        rw [hnone] at hold
        exact absurd hold (by simp)
      obtain ⟨hfits', hcurrent, hsame⟩ := hfits.link hlink
      obtain ⟨next, hblk⟩ := hsame _ (Function.update_self ..)
      exact hfits'.enter_bump hcurrent hblk (by simpa using hn) hbump

/-- A reset gives every octet of the list back. -/
theorem Fits.reset {l : List A} (h : Fits s.blocks pieces) (hshape : Shape s l)
    (hs : scArenaReset s = some s') : Fits s'.blocks [] := by
  refine ⟨?_, .nil, by simp, by simp⟩
  have hrun := hshape.chain.forEach (f := fun blk : Block A => { blk with used := 0 })
    (fun _ => rfl) hshape.fuel
  rw [scArenaReset, hrun, Option.map_some, Option.some.injEq] at hs
  subst hs
  intro a blk hblk
  simp only at hblk
  split_ifs at hblk with ha
  · obtain ⟨old, hold, rfl⟩ := Option.map_eq_some_iff.mp hblk
    exact ⟨Nat.zero_le _, (h.sound a old hold).size_le, Nat.dvd_zero _⟩
  · exact h.sound a blk hblk

/-- Every call is defined, and keeps the pieces apart. -/
theorem Fits.step {s : Ledger A} {l : List A} (h : Fits s.arena.blocks s.pieces)
    (hshape : Shape s.arena l) (op : ArenaOp) : ∃ s' l', ledgerStep b s op = some s' ∧
      Shape s'.arena l' ∧ Fits s'.arena.blocks s'.pieces := by
  obtain ⟨arena, l', hstep, hshape', -⟩ := hshape.step (b := b) op
  have hshaped : ∀ size r, r.2 = arena → (s.enter size r).arena = arena := by
    rintro size ⟨_ | p, arena'⟩ hr <;> exact hr
  cases op with
  | alloc size | realloc size =>
    obtain ⟨r, hr, rfl⟩ := Option.map_eq_some_iff.mp hstep
    refine ⟨_, l', congrArg (Option.map _) hr, ?_, h.alloc hr⟩
    rw [hshaped size r rfl]
    exact hshape'
  | free =>
    obtain rfl := Option.some.inj hstep
    exact ⟨s, l', rfl, hshape', h⟩
  | reset => exact ⟨⟨arena, []⟩, l', congrArg (Option.map _) hstep, hshape', h.reset hshape hstep⟩

end Calls

/-- In every run from a new arena, every call is defined, and the pieces returned since the
last reset stay apart. -/
theorem arena_apart (b : Backing A) (s : Arena A) (h : scArenaCreate b = some s)
    (ops : List ArenaOp) : Machine.Throughout (ledgerStep b) Apart ⟨s, []⟩ ops := by
  obtain ⟨hshape, -⟩ := shape_create h
  obtain ⟨self, -, rfl⟩ := Option.map_eq_some_iff.mp h
  have hrun : Machine.Throughout (ledgerStep b)
      (fun s => ∃ l, Shape s.arena l ∧ Fits s.arena.blocks s.pieces)
      ⟨⟨self, fun _ => none, 1, none, none, 0⟩, []⟩ ops := by
    apply Machine.throughout_of_invariant
    · rintro s op ⟨l, hshape, hfits⟩
      obtain ⟨s', l', hstep, hshape', hfits'⟩ := hfits.step (b := b) hshape op
      exact ⟨s', hstep, l', hshape', hfits'⟩
    · exact ⟨[], hshape, by simp, .nil, by simp, by simp⟩
  apply hrun.mono
  rintro s ⟨l, -, hfits⟩
  exact hfits.apart

/-- Nothing, an octet and a block of its own, the last one taken up again after a reset. -/
theorem arena_apart_reset : Machine.Throughout (ledgerStep countingBacking) Apart
    ⟨⟨0, fun _ => none, 1, none, none, 0⟩, []⟩
    [.alloc 0, .alloc 1, .realloc 5000, .alloc sizeMax, .reset, .alloc 8] :=
  arena_apart countingBacking _ rfl _

end SeaClaw.Core
