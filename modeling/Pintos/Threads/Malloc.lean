import Pintos.Threads.Palloc
import Mathlib.Data.UInt

/-! # `threads/malloc.c`: the block allocator

The descriptors with their free lists, the arena headers of the pages that `malloc` took from the
kernel pool, and the bytes of kernel memory. A header is kept apart from the bytes, keyed by its
page: a page holds one exactly while its `magic` is `ARENA_MAGIC`, so the debug `memset` of
`palloc_free_multiple` clears it with the rest of the page. A free list is the sequence of its
blocks, pushed and popped as `list_push_back`, `list_push_front`, `list_pop_front` and
`list_remove` do to that sequence. `size_t` is `UInt32`, addresses are numbers as in `Palloc`, and a
function returns `none` where the C code fails an `ASSERT`. The descriptor locks are left out.
-/

namespace Pintos.Malloc
open Pintos.Palloc
open Pintos.Userprog (PGSIZE)
set_option autoImplicit false

/-- `sizeof (struct arena)` on the 32-bit target. -/
def arenaSize : Nat := 12

structure Desc where
  blockSize : Nat
  blocksPerArena : Nat
  freeList : List Nat
deriving DecidableEq, Repr

/-- An arena header: its descriptor, an index into `descs` (`none` for a big block), and its
count of free blocks, or of pages for a big block. -/
structure Arena where
  desc : Option Nat
  freeCnt : Nat
deriving DecidableEq, Repr

structure MallocState where
  palloc : PallocState
  descs : List Desc
  arenas : Nat → Option Arena
  mem : Nat → UInt8

/-- The loop of `malloc_init` from `block_size`, with `k` rounds left. -/
def descsFrom : Nat → Nat → List Desc
  | 0, _ => []
  | k + 1, blockSize =>
    if blockSize < PGSIZE / 2 then
      ⟨blockSize, (PGSIZE - arenaSize) / blockSize, []⟩ :: descsFrom k (blockSize * 2)
    else []

def mallocInit (palloc : PallocState) (mem : Nat → UInt8) : Option MallocState :=
  let descs := descsFrom PGSIZE 16
  if descs.length ≤ 10 then some ⟨palloc, descs, fun _ => none, mem⟩ else none

def pgRoundDown (va : Nat) : Nat := va - pgOfs va

/-- `memset (p, v, n)`. -/
def memset (mem : Nat → UInt8) (p : Nat) (v : UInt8) (n : Nat) : Nat → UInt8 :=
  fun x => if p ≤ x ∧ x < p + n then v else mem x

/-- `memcpy (dst, src, n)`. -/
def memcpy (mem : Nat → UInt8) (dst src n : Nat) : Nat → UInt8 :=
  fun x => if dst ≤ x ∧ x < dst + n then mem (src + (x - dst)) else mem x

def blockToArena (s : MallocState) (b : Nat) : Option (Nat × Arena) := do
  let a := pgRoundDown b
  if a = 0 then none
  let arena ← s.arenas a
  match arena.desc with
  | some d =>
    let desc ← s.descs[d]?
    -- `pg_ofs (b) - sizeof *a` is a `size_t` subtraction
    if (pgOfs b + 2 ^ 32 - arenaSize) % 2 ^ 32 % desc.blockSize ≠ 0 then none
  | none => if pgOfs b ≠ arenaSize then none
  return (a, arena)

/-- `arena_to_block`; its `ASSERT`s hold at both of its calls, on an arena just set up or found. -/
def arenaToBlock (desc : Desc) (a idx : Nat) : Nat := a + arenaSize + idx * desc.blockSize

/-- The blocks of an arena of `desc` at `a`, in address order. -/
def arenaBlocks (desc : Desc) (a : Nat) : List Nat :=
  (List.range desc.blocksPerArena).map (arenaToBlock desc a)

/-- `palloc_free_multiple` of the `n` pages of an arena at `a`; its debug `memset` clears them. -/
def freePages (s : MallocState) (a n : Nat) : Option MallocState := do
  let palloc ← pallocFreeMultiple s.palloc a n
  if a = 0 ∨ n = 0 then return { s with palloc }
  return { s with palloc, mem := memset s.mem a 0xcc (PGSIZE * n),
                  arenas := fun x => if a ≤ x ∧ x < a + PGSIZE * n then none else s.arenas x }

/-- The arena `malloc` makes when the free list of descriptor `d` is empty: a kernel page whose
blocks go to the back of the list, or `NULL` from `palloc_get_page`. -/
def newArena (s : MallocState) (d : Nat) (desc : Desc) : Option (MallocState × Nat) := do
  let (palloc, a) ← pallocGetMultiple s.palloc 0 1
  if a = 0 then return ({ s with palloc }, 0)
  return ({ s with palloc, arenas := Function.update s.arenas a (some ⟨some d, desc.blocksPerArena⟩),
                   descs := s.descs.set d { desc with freeList := desc.freeList ++ arenaBlocks desc a } },
          a)

/-- `list_pop_front` of the free list of descriptor `d`, counted off its arena. -/
def popBlock (s : MallocState) (d : Nat) : Option (MallocState × Nat) := do
  let desc ← s.descs[d]?
  match desc.freeList with
  | [] => none
  | b :: rest =>
    let s := { s with descs := s.descs.set d { desc with freeList := rest } }
    let (a, arena) ← blockToArena s b
    return ({ s with arenas := Function.update s.arenas a (some { arena with freeCnt := arena.freeCnt - 1 }) }, b)

def malloc (s : MallocState) (size : UInt32) : Option (MallocState × Nat) := do
  if size = 0 then return (s, 0)
  match s.descs.findIdx? (fun d => decide (size.toNat ≤ d.blockSize)) with
  | none =>
    -- too big for any descriptor: whole pages with the header in front
    let pageCnt := ((size + arenaSize.toUInt32 + (PGSIZE.toUInt32 - 1)) / PGSIZE.toUInt32).toNat
    let (palloc, a) ← pallocGetMultiple s.palloc 0 pageCnt
    if a = 0 then return ({ s with palloc }, 0)
    return ({ s with palloc, arenas := Function.update s.arenas a (some ⟨none, pageCnt⟩) }, a + arenaSize)
  | some d =>
    let desc ← s.descs[d]?
    if desc.freeList = [] then
      let (s, a) ← newArena s d desc
      if a = 0 then return (s, 0)
      popBlock s d
    else popBlock s d

def calloc (s : MallocState) (a b : UInt32) : Option (MallocState × Nat) := do
  let size := a * b
  if size < a ∨ size < b then return (s, 0)
  let (s, p) ← malloc s size
  if p ≠ 0 then return ({ s with mem := memset s.mem p 0 size.toNat }, p)
  return (s, p)

/-- `block_size`: the bytes a block can hold. -/
def blockSize (s : MallocState) (block : Nat) : Option Nat := do
  let (_, arena) ← blockToArena s block
  match arena.desc with
  | some d => return (← s.descs[d]?).blockSize
  | none => return PGSIZE * arena.freeCnt - pgOfs block

/-- The `list_remove` of each block of an emptied arena; each must be on the list. -/
def removeBlocks (freeList : List Nat) (blocks : List Nat) : Option (List Nat) :=
  blocks.foldlM (fun l b => if b ∈ l then some (l.erase b) else none) freeList

def free (s : MallocState) (p : Nat) : Option MallocState := do
  if p = 0 then return s
  let (a, arena) ← blockToArena s p
  match arena.desc with
  | some d =>
    let desc ← s.descs[d]?
    let mem := memset s.mem p 0xcc desc.blockSize
    let freeCnt := arena.freeCnt + 1
    if freeCnt ≥ desc.blocksPerArena then
      if freeCnt ≠ desc.blocksPerArena then none
      -- the arena is unused: its blocks leave the list and its page goes back
      let freeList ← removeBlocks (p :: desc.freeList) (arenaBlocks desc a)
      freePages { s with mem, descs := s.descs.set d { desc with freeList } } a 1
    else
      return { s with mem, descs := s.descs.set d { desc with freeList := p :: desc.freeList },
                      arenas := Function.update s.arenas a (some { arena with freeCnt }) }
  | none => freePages s a arena.freeCnt

def realloc (s : MallocState) (oldBlock : Nat) (newSize : UInt32) : Option (MallocState × Nat) := do
  if newSize = 0 then return (← free s oldBlock, 0)
  let (s, newBlock) ← malloc s newSize
  if oldBlock ≠ 0 ∧ newBlock ≠ 0 then
    let oldSize ← blockSize s oldBlock
    let minSize := if newSize.toNat < oldSize then newSize.toNat else oldSize
    return (← free { s with mem := memcpy s.mem newBlock oldBlock minSize } oldBlock, newBlock)
  return (s, newBlock)

/-! ## Sizes that wrap

`malloc` and `calloc` compute sizes in `size_t`. `calloc (65537, 65537)` multiplies to
`2 ^ 32 + 131073`, which wraps to `131073`, not below either factor; and `malloc (SIZE_MAX - 10)`
adds the header and rounds up to `1` page. In a kernel with 336 pages of memory, both return a
block far smaller than asked. -/

set_option maxRecDepth 100000 in
theorem calloc_misses_wrapped_size : ∃ p0 s0, pallocInit 336 1000 = some p0 ∧
    mallocInit p0 (fun _ => 0) = some s0 ∧
    ∃ s1 p, calloc s0 65537 65537 = some (s1, p) ∧ p ≠ 0 ∧ blockSize s1 p = some 135156 ∧
      2 ^ 32 ≤ 65537 * 65537 ∧ 135156 < 65537 * 65537 :=
  ⟨_, _, rfl, rfl, _, _, rfl, by decide, rfl, by decide, by decide⟩

set_option maxRecDepth 100000 in
theorem malloc_wraps_page_count : ∃ p0 s0, pallocInit 336 1000 = some p0 ∧
    mallocInit p0 (fun _ => 0) = some s0 ∧
    ∃ s1 p, malloc s0 (2 ^ 32 - 11) = some (s1, p) ∧ p ≠ 0 ∧ blockSize s1 p = some 4084 ∧
      4084 < 2 ^ 32 - 11 :=
  ⟨_, _, rfl, rfl, _, _, rfl, by decide, rfl, by decide⟩

end Pintos.Malloc
