import SeaClaw.Lib.Bytes
import SeaClaw.Lib.LinkedList
import SeaClaw.Lib.Machine

/-!
# The arena allocator

An arena takes blocks from a backing allocator and hands out pieces of the current one. The
blocks are a linked list; their contents do not matter here, so a block is what stands in
its header. A step that follows a pointer to storage which is not live is undefined.
-/

namespace SeaClaw.Core

open SeaClaw.Lib

/-- `SIZE_MAX` -/
def sizeMax : ℕ := 2 ^ 64 - 1

/-- `SC_ARENA_BLOCK_SIZE` -/
def arenaBlockSize : ℕ := 4096

/-- `sizeof(arena_block_t)` -/
def sizeofBlock : ℕ := 32

/-- `sizeof(sc_arena_t)` -/
def sizeofArena : ℕ := 56

/-- `arena_block_t` -/
structure Block (A : Type) where
  size : ℕ
  used : ℕ
  next : Option A

/-- `struct sc_arena` at the address `self`, with the blocks that the backing allocator
handed out and has not got back, and how often it was asked. -/
structure Arena (A : Type) where
  self : A
  blocks : A → Option (Block A)
  calls : ℕ
  head : Option A
  current : Option A
  totalUsed : ℕ

variable {A : Type} [DecidableEq A]

/-- The storage that the backing allocator has not got back. -/
def Arena.live (s : Arena A) (a : A) : Bool := a = s.self || (s.blocks a).isSome

/-- The backing allocator's answer to each call, given what is live and the size asked for.
It never hands out live storage. -/
structure Backing (A : Type) where
  answer : ℕ → (A → Bool) → ℕ → Option A
  fresh : ∀ n live size a, answer n live size = some a → live a = false

/-- `block_new` -/
def blockNew (b : Backing A) (s : Arena A) (minSize : ℕ) : Option A × Arena A :=
  let blockSize := if minSize > arenaBlockSize then minSize else arenaBlockSize
  if blockSize > sizeMax - sizeofBlock then (none, s)
  else
    match b.answer s.calls s.live (sizeofBlock + blockSize) with
    | none => (none, { s with calls := s.calls + 1 })
    | some a => (some a, { s with
        calls := s.calls + 1
        blocks := Function.update s.blocks a (some ⟨blockSize, 0, none⟩) })

/-- `(size + 7) & ~(size_t)7` -/
def align (size : ℕ) : ℕ := (size + 7) / 8 * 8

/-- Whether the current block has no room for `aligned` octets. -/
def noRoom (s : Arena A) (aligned : ℕ) : Option Bool :=
  match s.current with
  | none => some true
  | some c => (s.blocks c).map fun blk =>
      decide (blk.used > sizeMax - aligned ∨ blk.used + aligned > blk.size)

/-- The new block becomes the one after the current block, or the head. -/
def link (s : Arena A) (a : A) : Option (Arena A) :=
  match s.current with
  | none => some { s with head := some a, current := some a }
  | some c => (s.blocks c).map fun blk => { s with
      blocks := Function.update s.blocks c (some { blk with next := some a })
      current := some a }

/-- The next `aligned` octets of the current block. -/
def bump (s : Arena A) (aligned size : ℕ) : Option (Option (A × ℕ) × Arena A) :=
  s.current.bind fun c =>
    (s.blocks c).map fun blk => (some (c, blk.used), { s with
      blocks := Function.update s.blocks c (some { blk with used := blk.used + aligned })
      totalUsed := (s.totalUsed + size) % 2 ^ 64 })

/-- `arena_alloc`: the block and the offset of the new piece, or `NULL`. -/
def arenaAlloc (b : Backing A) (s : Arena A) (size : ℕ) :
    Option (Option (A × ℕ) × Arena A) :=
  if size > sizeMax - 7 then some (none, s)
  else
    (noRoom s (align size)).bind fun full =>
      if full then
        match blockNew b s (align size) with
        | (none, s) => some (none, s)
        | (some a, s) => (link s a).bind fun s => bump s (align size) size
      else bump s (align size) size

/-- `arena_realloc`: a new piece; what it copies leaves no trace in the headers. -/
def arenaRealloc (b : Backing A) (s : Arena A) (newSize : ℕ) :
    Option (Option (A × ℕ) × Arena A) :=
  arenaAlloc b s newSize

/-- `sc_arena_create` -/
def scArenaCreate (b : Backing A) : Option (Arena A) :=
  (b.answer 0 (fun _ => false) sizeofArena).map fun self =>
    ⟨self, fun _ => none, 1, none, none, 0⟩

/-- `sc_arena_reset` -/
def scArenaReset (s : Arena A) : Option (Arena A) :=
  (LinkedList.forEach Block.next (fun blk => { blk with used := 0 }) s.calls s.blocks s.head).map
    fun blocks => { s with blocks := blocks, current := s.head, totalUsed := 0 }

/-- `sc_arena_destroy`: the addresses that it gives back, in order. -/
def scArenaDestroy (s : Arena A) : Option (List A) :=
  (LinkedList.freeAll Block.next s.calls s.blocks s.head).map fun r => r.1 ++ [s.self]

/-- What a program does with an arena. Freeing a piece does nothing. -/
inductive ArenaOp where
  | alloc (size : ℕ)
  | realloc (newSize : ℕ)
  | free
  | reset

/-- One call. -/
def arenaStep (b : Backing A) (s : Arena A) : ArenaOp → Option (Arena A)
  | .alloc size => (arenaAlloc b s size).map Prod.snd
  | .realloc newSize => (arenaRealloc b s newSize).map Prod.snd
  | .free => some s
  | .reset => scArenaReset s

end SeaClaw.Core
