import CSpecx.CExec
import CSpecx.LinkedChain
import Mathlib.Data.Finset.Card
import Mathlib.Logic.Function.Basic

/-!
# The slab allocator

`slab_alloc.c` on a memory of addresses: `blocks` are the addresses of the
blocks held from `i_malloc`, `slabs` the headers at them and `words` the
pointers stored elsewhere. Headers and words are reached through checks, so a
use after `i_free` or outside every block is undefined. Each function runs
between `latch_lock` and `latch_unlock`.
-/

namespace SlabAllocator

open CExec

/-- `NULL` is `none`. -/
structure Slab where
  freelist : Option Nat
  next : Option Nat
  prev : Option Nat
  used : Nat
  totalSize : Nat

/-- `sizeof (struct slab)`, which is the offset of `data`. -/
def headerSize : Nat := 32

structure SlabAlloc where
  head : Option Nat
  current : Option Nat
  size : Nat
  capPerSlab : Nat
  blocks : Finset Nat
  slabs : Nat → Slab
  words : Nat → Option Nat

/-- What `i_malloc` returns: a block and whatever is stored in it. -/
structure Block where
  base : Nat
  words : Nat → Option Nat

namespace SlabAlloc

def setSlab (a : SlabAlloc) (s : Nat) (v : Slab) : SlabAlloc :=
  { a with slabs := Function.update a.slabs s v }

def setWord (a : SlabAlloc) (p : Nat) (v : Option Nat) : SlabAlloc :=
  { a with words := Function.update a.words p v }

/-- A header is dereferenced only while its block is held. -/
def slab (a : SlabAlloc) (s : Nat) : Outcome Slab := do
  access (s ∈ a.blocks)
  .ok (a.slabs s)

/-- A pointer-sized word lies inside a block that is held. -/
def InBlock (a : SlabAlloc) (p : Nat) : Prop :=
  ∃ b ∈ a.blocks, b ≤ p ∧ p + 8 ≤ b + (a.slabs b).totalSize

instance (a : SlabAlloc) (p : Nat) : Decidable (a.InBlock p) :=
  inferInstanceAs (Decidable (∃ b ∈ a.blocks, b ≤ p ∧ p + 8 ≤ b + (a.slabs b).totalSize))

/-- `*(void **)p`. -/
def load (a : SlabAlloc) (p : Nat) : Outcome (Option Nat) := do
  access (a.InBlock p)
  .ok (a.words p)

def store (a : SlabAlloc) (p : Nat) (v : Option Nat) : Outcome SlabAlloc := do
  access (a.InBlock p)
  .ok (a.setWord p v)

/-- `i_free`. -/
def free (a : SlabAlloc) (s : Nat) : Outcome SlabAlloc := do
  access (s ∈ a.blocks)
  .ok { a with blocks := a.blocks.erase s }

def next (a : SlabAlloc) (s : Nat) : Option Nat := (a.slabs s).next

def prev (a : SlabAlloc) (s : Nat) : Option Nat := (a.slabs s).prev

def fuel (a : SlabAlloc) : Nat := a.blocks.card

end SlabAlloc

/-- `(size + sizeof (void *) - 1) & ~(sizeof (void *) - 1)`. -/
def alignedSize (size : Nat) : Nat := (size + 7) / 8 * 8

/-- `slab_alloc_init` on memory with any contents. -/
def slabAllocInit (slabs : Nat → Slab) (words : Nat → Option Nat) (size capPerSlab : Nat) :
    Outcome SlabAlloc := do
  assert (8 ≤ size)
  assert (0 < capPerSlab)
  .ok { head := none
        current := none
        size := u32 (alignedSize size)
        capPerSlab := capPerSlab
        blocks := ∅
        slabs := slabs
        words := words }

/-- The total size `slab_alloc_extend` asks for. -/
def totalSize (a : SlabAlloc) : Nat := u32 (u32 (a.size * a.capPerSlab) + headerSize)

/-- The loop that threads the freelist, `n` slots after `cur` to go. -/
def threadSlots : Nat → SlabAlloc → Nat → Outcome SlabAlloc
  | 0, a, cur => a.store cur none
  | n + 1, a, cur => do
    let a ← a.store cur (some (cur + a.size))
    threadSlots n a (cur + a.size)

/-- `alloc->head->prev = slab` when there is a head. -/
def linkHead (a : SlabAlloc) (slab : Nat) : Outcome SlabAlloc :=
  match a.head with
  | none => .ok a
  | some h => do
    let old ← a.slab h
    assert (old.prev = none)
    .ok (a.setSlab h { old with prev := some slab })

/-- The block arrives with its contents. -/
def SlabAlloc.receive (a : SlabAlloc) (block : Block) (total : Nat) : SlabAlloc :=
  { a with
    blocks := insert block.base a.blocks
    words := fun p =>
      if block.base ≤ p ∧ p < block.base + total then block.words p else a.words p }

/-- The header fields that `slab_alloc_extend` writes. -/
def freshSlab (head : Option Nat) (slab total : Nat) : Slab :=
  { freelist := some (slab + headerSize)
    next := head
    prev := none
    used := 0
    totalSize := total }

def slabAllocExtend (a : SlabAlloc) (grant : Option Block) :
    Outcome (Option Nat × SlabAlloc) := do
  assert (0 < totalSize a)
  match grant with
  | none => .ok (none, a)
  | some block => do
    let slab := block.base
    let total := totalSize a
    let a := (a.receive block total).setSlab slab (freshSlab a.head slab total)
    let a ← linkHead a slab
    let a ← threadSlots (a.capPerSlab - 1) { a with head := some slab } (slab + headerSize)
    .ok (some slab, a)

/-- `while (s && !s->freelist) s = s->next`. -/
def findSpace : Nat → SlabAlloc → Option Nat → Outcome (Option Nat)
  | _, _, none => .ok none
  | 0, _, some _ => .error .fuel
  | n + 1, a, some s => do
    let v ← a.slab s
    if v.freelist.isSome then .ok (some s) else findSpace n a v.next

/-- `ret = s->freelist; s->freelist = *(void **)ret; s->used++`. -/
def takeSlot (a : SlabAlloc) (s : Nat) : Outcome (Option Nat × SlabAlloc) := do
  let v ← a.slab s
  match v.freelist with
  | none => .error .undefined
  | some ret => do
    let rest ← a.load ret
    .ok (some ret, a.setSlab s { v with freelist := rest, used := u32 (v.used + 1) })

/-- The test of the hot path. -/
def cachedSpace (a : SlabAlloc) : Outcome (Option Nat) :=
  match a.current with
  | none => .ok none
  | some s => do
    let v ← a.slab s
    .ok (if v.freelist.isSome then some s else none)

def slabAllocAlloc (a : SlabAlloc) (grant : Option Block) : Outcome (Option Nat × SlabAlloc) := do
  match ← cachedSpace a with
  | some s => takeSlot a s
  | none => do
    match ← findSpace a.fuel a a.head with
    | some s => takeSlot { a with current := some s } s
    | none => do
      match ← slabAllocExtend a grant with
      | (none, a) => .ok (none, a)
      | (some s, a) => takeSlot { a with current := some s } s

def slabContains (a : SlabAlloc) (s ptr : Nat) : Bool :=
  decide (s + headerSize ≤ ptr ∧ ptr < s + headerSize + u32 (a.capPerSlab * a.size))

/-- The scan of `slab_from_ptr`, with `UNREACHABLE` at the end of the list. -/
def findOwner : Nat → SlabAlloc → Nat → Option Nat → Outcome Nat
  | _, _, _, none => .error .assertion
  | 0, _, _, some _ => .error .fuel
  | n + 1, a, ptr, some s =>
    if slabContains a s ptr then
      .ok s
    else do
      let v ← a.slab s
      findOwner n a ptr v.next

def slabFromPtr (a : SlabAlloc) (ptr : Nat) : Outcome Nat :=
  match a.current with
  | none => findOwner a.fuel a ptr a.head
  | some s => if slabContains a s ptr then .ok s else findOwner a.fuel a ptr a.head

/-- Push the slot on the freelist of its slab. -/
def returnSlot (a : SlabAlloc) (s ptr : Nat) : Outcome SlabAlloc := do
  let v ← a.slab s
  assert (0 < v.used)
  let a ← a.store ptr v.freelist
  .ok (a.setSlab s { v with freelist := some ptr, used := v.used - 1 })

/-- `if (alloc->current == NULL || alloc->current->freelist == NULL)`. -/
def updateCurrent (a : SlabAlloc) (s : Nat) : Outcome SlabAlloc := do
  match ← cachedSpace a with
  | some _ => .ok a
  | none => .ok { a with current := some s }

/-- `s->prev->next = s->next`. -/
def unlinkNext (a : SlabAlloc) (s : Nat) : Outcome SlabAlloc := do
  let v ← a.slab s
  match v.prev with
  | none => .ok a
  | some p => do
    let u ← a.slab p
    .ok (a.setSlab p { u with next := v.next })

/-- `s->next->prev = s->prev`. -/
def unlinkPrev (a : SlabAlloc) (s : Nat) : Outcome SlabAlloc := do
  let v ← a.slab s
  match v.next with
  | none => .ok a
  | some n => do
    let u ← a.slab n
    .ok (a.setSlab n { u with prev := v.prev })

def removeSlab (a : SlabAlloc) (s : Nat) : Outcome SlabAlloc := do
  let a := if a.current = some s then { a with current := none } else a
  let v ← a.slab s
  let a := if a.head = some s then { a with head := v.next } else a
  let a ← unlinkNext a s
  let a ← unlinkPrev a s
  a.free s

def slabAllocFree (a : SlabAlloc) (ptr : Nat) : Outcome SlabAlloc := do
  let s ← slabFromPtr a ptr
  let a ← returnSlot a s ptr
  let a ← updateCurrent a s
  let v ← a.slab s
  if v.used = 0 ∧ (v.next.isSome ∨ v.prev.isSome) then removeSlab a s else .ok a

end SlabAllocator
