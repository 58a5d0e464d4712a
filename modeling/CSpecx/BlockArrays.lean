import CSpecx.ByteSequence
import CSpecx.LinkedChain
import CSpecx.SlabSlots
import Mathlib.Data.Finset.Card
import Mathlib.Logic.Function.Basic

/-!
# The block array

`block_array.c` on a heap of blocks. A block is reached through its address,
and only while the allocator has it handed out; copies are checked against
`cap_per_node`, the size of every `data` and of `tail`. The allocator is a
parameter with its contract: `block_array_create` sets it up for the size of a
block, and where a slab of that size does not fit, no allocation returns.
-/

namespace BlockArrays

open CExec CellMemory Strided ByteSequence
open SlabAllocator (blockHeader)

/-- `slab_alloc_init`, `slab_alloc_alloc` and `slab_alloc_free` for slots of one
size, while `i_malloc` succeeds. `Fits`: a slab has room for its slots. -/
structure BlockAllocator where
  State : Type
  Fits : Prop
  init : Outcome State
  Ok : State → Prop
  live : State → Finset Nat
  alloc : State → Outcome (Option Nat × State)
  free : State → Nat → Outcome State
  init_ok : ∀ s, init = .ok s → Ok s ∧ live s = ∅
  alloc_ok : Fits → ∀ s, Ok s → ∃ p s', alloc s = .ok (some p, s') ∧ Ok s' ∧
    p ∉ live s ∧ live s' = insert p (live s)
  alloc_short : ¬ Fits → ∀ s, Ok s → ∀ result, alloc s ≠ .ok result
  fits_of_live : ∀ s p, Ok s → p ∈ live s → Fits
  free_ok : ∀ s p, Ok s → p ∈ live s → ∃ s', free s p = .ok s' ∧ Ok s' ∧
    live s' = (live s).erase p

structure Block where
  next : Option Nat
  prev : Option Nat
  len : Nat
  data : Nat → UInt8

structure BlockArray (A : BlockAllocator) where
  blockAlloc : A.State
  capPerNode : Nat
  head : Option Nat
  tlen : Nat
  tail : Nat → UInt8
  blocks : Nat → Block

variable {A : BlockAllocator}

namespace BlockArray

def update (r : BlockArray A) (p : Nat) (b : Block) : BlockArray A :=
  { r with blocks := Function.update r.blocks p b }

def setNext (r : BlockArray A) (p : Nat) (v : Option Nat) : BlockArray A :=
  r.update p { r.blocks p with next := v }

def setPrev (r : BlockArray A) (p : Nat) (v : Option Nat) : BlockArray A :=
  r.update p { r.blocks p with prev := v }

def setLen (r : BlockArray A) (p : Nat) (v : Nat) : BlockArray A :=
  r.update p { r.blocks p with len := v }

def setData (r : BlockArray A) (p : Nat) (v : Nat → UInt8) : BlockArray A :=
  r.update p { r.blocks p with data := v }

def setAlloc (r : BlockArray A) (s : A.State) : BlockArray A := { r with blockAlloc := s }

def setHead (r : BlockArray A) (head : Option Nat) : BlockArray A := { r with head := head }

def setTlen (r : BlockArray A) (tlen : Nat) : BlockArray A := { r with tlen := tlen }

def setTail (r : BlockArray A) (tail : Nat → UInt8) : BlockArray A := { r with tail := tail }

def next (r : BlockArray A) (p : Nat) : Option Nat := (r.blocks p).next

def prev (r : BlockArray A) (p : Nat) : Option Nat := (r.blocks p).prev

def len (r : BlockArray A) (p : Nat) : Nat := (r.blocks p).len

def data (r : BlockArray A) (p : Nat) : Nat → UInt8 := (r.blocks p).data

/-- A block is dereferenced only while it is handed out. -/
def block (r : BlockArray A) (p : Nat) : Outcome Block := do
  access (p ∈ A.live r.blockAlloc)
  .ok (r.blocks p)

/-- `if (q) q->next = v`. -/
def setNextOf (r : BlockArray A) (q v : Option Nat) : Outcome (BlockArray A) :=
  match q with
  | none => .ok r
  | some q => do
    access (q ∈ A.live r.blockAlloc)
    .ok (r.setNext q v)

/-- `if (q) q->prev = v`. -/
def setPrevOf (r : BlockArray A) (q v : Option Nat) : Outcome (BlockArray A) :=
  match q with
  | none => .ok r
  | some q => do
    access (q ∈ A.live r.blockAlloc)
    .ok (r.setPrev q v)

/-- The source half of a `memcpy` from `&p->data[o]`. -/
def loadBytes (r : BlockArray A) (p o n : Nat) : Outcome (List UInt8) := do
  access (p ∈ A.live r.blockAlloc ∧ o + n ≤ r.capPerNode)
  .ok (load (r.data p) o n)

/-- The destination half of a `memcpy` to `&p->data[o]`. -/
def storeBytes (r : BlockArray A) (p o : Nat) (bytes : List UInt8) : Outcome (BlockArray A) := do
  access (p ∈ A.live r.blockAlloc ∧ o + bytes.length ≤ r.capPerNode)
  .ok (r.setData p (store (r.data p) o bytes))

/-- More than the blocks and bytes there are. -/
def fuel (r : BlockArray A) : Nat := (A.live r.blockAlloc).card * (r.capPerNode + 1) + 1

end BlockArray

/-- `sizeof (struct block_array)`. -/
def arrayHeader : Nat := 56

/-- What `slab_alloc_init (.., sizeof (struct block) + cap_per_node, 512)` sets up,
for allocators `A size slots`. -/
abbrev blocksOf (A : Nat → Nat → BlockAllocator) (capPerNode : Nat) : BlockAllocator :=
  A (u32 (blockHeader + capPerNode)) 512

/-- On memory with any contents. Both sums arrive as `u32`: the array itself is one
block of the first, in which the header has to lie. -/
def blockArrayCreate (A : Nat → Nat → BlockAllocator) (tail : Nat → UInt8)
    (blocks : Nat → Block) (capPerNode : Nat) : Outcome (BlockArray (blocksOf A capPerNode)) := do
  assert (0 < capPerNode)
  let size := u32 (arrayHeader + capPerNode)
  assert (0 < size)
  access (arrayHeader ≤ size)
  let blockAlloc ← (blocksOf A capPerNode).init
  .ok { blockAlloc := blockAlloc
        capPerNode := capPerNode
        head := none
        tlen := 0
        tail := tail
        blocks := blocks }

/-- `prev` and what follows it around the new block. -/
def linkBlock (r : BlockArray A) (ret : Nat) (prev : Option Nat) : Outcome (BlockArray A) :=
  match prev with
  | none => .ok ((r.setLen ret 0).setNext ret none)
  | some p => do
    let b ← (r.setLen ret 0).block p
    let r := ((r.setLen ret 0).setNext ret b.next).setNext p (some ret)
    r.setPrevOf b.next (some ret)

/-- The new block, `none` for `NULL`. -/
def blockAllocEmpty (r : BlockArray A) (prev : Option Nat) :
    Outcome (Option Nat × BlockArray A) := do
  let (ret, s) ← A.alloc r.blockAlloc
  match ret with
  | none => .ok (none, r.setAlloc s)
  | some ret => do
    let r ← linkBlock (r.setAlloc s) ret prev
    .ok (some ret, r.setPrev ret prev)

/-- The head, allocated when there is none. -/
def ensureHead (r : BlockArray A) : Outcome (Nat × BlockArray A) :=
  match r.head with
  | some head => .ok (head, r)
  | none => do
    let (head, r) ← blockAllocEmpty r none
    let h ← nonNull head
    .ok (h, r.setHead head)

/-- The seek of `block_array_insert`. -/
def seekInsert (r : BlockArray A) : Nat → Nat → Nat → Outcome (Nat × Nat)
  | 0, _, _ => .error .fuel
  | n + 1, cur, ofst => do
    let b ← r.block cur
    if b.len < ofst then do
      let next ← nonNull b.next
      seekInsert r n next (ofst - b.len)
    else .ok (cur, ofst)

/-- Keep the bytes of `cur` from `ofst` on in `tail`. -/
def saveTail (r : BlockArray A) (cur ofst : Nat) : Outcome (BlockArray A) := do
  let b ← r.block cur
  let tlen := b.len - ofst
  if 0 < tlen then do
    let bytes ← r.loadBytes cur ofst tlen
    access (tlen ≤ r.capPerNode)
    .ok (((r.setTail (store r.tail 0 bytes)).setTlen tlen).setLen cur ofst)
  else .ok (r.setTlen tlen)

/-- Go on in a new block when `cur` is full. -/
def advance (r : BlockArray A) (cur : Nat) : Outcome (Nat × BlockArray A) := do
  let b ← r.block cur
  if b.len = r.capPerNode then do
    let (next, r) ← blockAllocEmpty r (some cur)
    let next ← nonNull next
    .ok (next, r)
  else .ok (cur, r)

/-- The two loops that append bytes at `cur` and in new blocks behind it. The
assertion stands in the first of them only. -/
def writeOut : Nat → BlockArray A → Nat → List UInt8 → Outcome (Nat × BlockArray A)
  | _, r, cur, [] => .ok (cur, r)
  | 0, _, _, _ :: _ => .error .fuel
  | n + 1, r, cur, byte :: bytes => do
    let (cur, r) ← advance r cur
    let b ← r.block cur
    let next := min (r.capPerNode - b.len) (byte :: bytes).length
    let r ← r.storeBytes cur b.len ((byte :: bytes).take next)
    assert (next ≤ (byte :: bytes).length)
    writeOut n (r.setLen cur (b.len + next)) cur ((byte :: bytes).drop next)

/-- `block_array_insert` from the block and offset that the seek found. -/
def spliceAt (r : BlockArray A) (cur ofst : Nat) (src : List UInt8) :
    Outcome (BlockArray A) := do
  let r ← saveTail r cur ofst
  let b ← r.block cur
  let last := b.next
  let (cur, r) ← writeOut src.length r cur src
  let (cur, r) ← writeOut r.tlen r cur (load r.tail 0 r.tlen)
  let r ← r.setNextOf (some cur) last
  .ok (r.setTlen 0)

def blockArrayInsert (r : BlockArray A) (ofst : Nat) (src : List UInt8) :
    Outcome (BlockArray A) := do
  assert (0 < src.length)
  let (head, r) ← ensureHead r
  let (cur, ofst) ← seekInsert r r.fuel head ofst
  spliceAt r cur ofst src

/-! ## Strided access -/

structure StrideState where
  next : Nat
  active : Bool

/-- `(str.stride - 1) * size`, from 64 bits to 32. -/
def skip (str : Stride) (size : Nat) : Nat := u32 ((str.stride + (2 ^ 64 - 1)) * size)

/-- The state behind an element. -/
def elementDone (str : Stride) (size : Nat) : StrideState :=
  if str.stride = 1 then ⟨size, true⟩ else ⟨skip str size, false⟩

/-- `n` bytes pass: the state and the count behind them. -/
def consume (str : Stride) (size : Nat) (s : StrideState) (total n : Nat) : StrideState × Nat :=
  if s.next - n = 0 then
    if s.active then (elementDone str size, u32 (total + 1)) else (⟨size, true⟩, total)
  else (⟨s.next - n, s.active⟩, total)

/-- The seek of the strided operations, `none` past the end. -/
def seek (r : BlockArray A) : Nat → Option Nat → Nat → Outcome (Option (Nat × Nat))
  | _, none, _ => .ok none
  | 0, some _, _ => .error .fuel
  | n + 1, some cur, bidx => do
    let b ← r.block cur
    if b.len ≤ bidx then seek r n b.next (bidx - b.len) else .ok (some (cur, bidx))

section Walk

variable {α : Type} (copy : BlockArray A → Nat → Nat → Nat → α → Outcome (BlockArray A × α))
  (str : Stride) (size : Nat)

/-- The copy of an active run. -/
def copyRun (r : BlockArray A) (s : StrideState) (cur bidx n : Nat) (a : α) :
    Outcome (BlockArray A × α) :=
  if s.active then copy r cur bidx n a else .ok (r, a)

/-- The loop of `block_array_read` and `block_array_write`, which differ in
what they do with the bytes of a selected element. -/
def walk : Nat → BlockArray A → Nat → Nat → StrideState → Nat → α →
    Outcome (Nat × BlockArray A × α)
  | 0, _, _, _, _, _, _ => .error .fuel
  | n + 1, r, cur, bidx, s, total, a =>
    if str.nelems ≤ total then .ok (total, r, a)
    else do
      let b ← r.block cur
      let next := min s.next (b.len - bidx)
      let (r, a) ← copyRun copy r s cur bidx next a
      let (s, total) := consume str size s total next
      if bidx + next = b.len then
        match b.next with
        | none => .ok (total, r, a)
        | some cur => walk n r cur 0 s total a
      else walk n r cur (bidx + next) s total a

def seekWalk (r : BlockArray A) (a : α) : Outcome (Nat × BlockArray A × α) := do
  match ← seek r r.fuel r.head (u32 (str.start * size)) with
  | none => .ok (0, r, a)
  | some (cur, bidx) => walk copy str size r.fuel r cur bidx ⟨size, true⟩ 0 a

end Walk

/-- `memcpy (dest, ..); dest += n`. -/
def copyOut (r : BlockArray A) (cur bidx n : Nat) (dest : List UInt8) :
    Outcome (BlockArray A × List UInt8) := do
  let bytes ← r.loadBytes cur bidx n
  .ok (r, dest ++ bytes)

/-- `memcpy (.., src, n); src += n`. -/
def copyIn (src : Nat → UInt8) (r : BlockArray A) (cur bidx n : Nat) (done : Nat) :
    Outcome (BlockArray A × Nat) := do
  let r ← r.storeBytes cur bidx (load src done n)
  .ok (r, done + n)

/-- The count with the bytes written through `dest`. -/
def blockArrayRead (r : BlockArray A) (str : Stride) (size : Nat) :
    Outcome (Nat × List UInt8) := do
  let (total, _, dest) ← seekWalk copyOut str size r []
  .ok (total, dest)

def blockArrayWrite (r : BlockArray A) (str : Stride) (size : Nat) (src : Nat → UInt8) :
    Outcome (Nat × BlockArray A) := do
  let (total, r, _) ← seekWalk (copyIn src) str size r 0
  .ok (total, r)

/-! ## Removal -/

/-- The write and the read cursor of `block_array_remove`. -/
structure Cursors where
  wcur : Nat
  wbidx : Nat
  rcur : Nat
  rbidx : Nat

/-- Move `n` bytes from the read to the write cursor; a full write block is
left for the read block. -/
def moveDown (r : BlockArray A) (c : Cursors) (n : Nat) : Outcome (BlockArray A × Cursors) := do
  let bytes ← r.loadBytes c.rcur c.rbidx n
  let r ← r.storeBytes c.wcur c.wbidx bytes
  if c.wbidx + n = r.capPerNode then do
    let r := r.setLen c.wcur r.capPerNode
    assert (r.next c.wcur = some c.rcur)
    .ok (r, ⟨c.rcur, 0, c.rcur, c.rbidx + n⟩)
  else .ok (r, ⟨c.wcur, c.wbidx + n, c.rcur, c.rbidx + n⟩)

/-- Unlink a block and give it back. -/
def deleteBlock (r : BlockArray A) (p : Nat) : Outcome (BlockArray A) := do
  let b ← r.block p
  let r ← r.setNextOf b.prev b.next
  let r ← r.setPrevOf b.next b.prev
  let s ← A.free r.blockAlloc p
  .ok (r.setAlloc s)

/-- `if (rcur != wcur)`, delete the read block. -/
def dropRead (r : BlockArray A) (c : Cursors) : Outcome (BlockArray A) :=
  if c.rcur ≠ c.wcur then deleteBlock r c.rcur else .ok r

/-- The copy to `dest` when it is not `NULL`. -/
def copyDest (r : BlockArray A) (c : Cursors) (dest : Bool) (n : Nat) : Outcome (List UInt8) :=
  if dest then r.loadBytes c.rcur c.rbidx n else .ok []

/-- One run of either kind: its length, the bytes written through `dest`, and
the array and cursors behind it. -/
def removeRun (r : BlockArray A) (c : Cursors) (s : StrideState) (dest : Bool) :
    Outcome (Nat × List UInt8 × BlockArray A × Cursors) := do
  let b ← r.block c.rcur
  if s.active then do
    let n := min s.next (b.len - c.rbidx)
    let bytes ← copyDest r c dest n
    .ok (n, bytes, r, { c with rbidx := c.rbidx + n })
  else do
    let n := min (min s.next (r.capPerNode - c.wbidx)) (b.len - c.rbidx)
    let (r, c) ← moveDown r c n
    .ok (n, [], r, c)

/-- What the first loop of `block_array_remove` ends with; `ended` says that
the read cursor ran off the last block. -/
structure Removed (A : BlockAllocator) where
  array : BlockArray A
  cursors : Cursors
  ended : Bool
  total : Nat
  bytes : List UInt8

def removeLoop (str : Stride) (size : Nat) (dest : Bool) :
    Nat → BlockArray A → Cursors → StrideState → Nat → List UInt8 → Outcome (Removed A)
  | 0, _, _, _, _, _ => .error .fuel
  | n + 1, r, c, s, total, bytes =>
    if str.nelems ≤ total then .ok ⟨r, c, false, total, bytes⟩
    else do
      let (next, more, r, c) ← removeRun r c s dest
      let (s, total) := consume str size s total next
      let b ← r.block c.rcur
      if c.rbidx = b.len then do
        let r ← dropRead r c
        match b.next with
        | none => .ok ⟨r, c, true, total, bytes ++ more⟩
        | some rcur =>
          removeLoop str size dest n r { c with rcur := rcur, rbidx := 0 } s total (bytes ++ more)
      else removeLoop str size dest n r c s total (bytes ++ more)

/-- The loop that compacts the rest of the read block. -/
def compactLoop : Nat → BlockArray A → Cursors → Outcome (BlockArray A × Cursors)
  | 0, _, _ => .error .fuel
  | n + 1, r, c => do
    let b ← r.block c.rcur
    let (r, c) ← moveDown r c (min (r.capPerNode - c.wbidx) (b.len - c.rbidx))
    let b ← r.block c.rcur
    if c.rbidx = b.len then do
      let r ← dropRead r c
      .ok (r, c)
    else compactLoop n r c

/-- The second loop runs unless the read cursor ran off the last block. -/
def compactRest (fuel : Nat) (d : Removed A) : Outcome (BlockArray A × Cursors) :=
  if d.ended then .ok (d.array, d.cursors) else compactLoop fuel d.array d.cursors

/-- `block_array_remove` from the block and offset that the seek found. -/
def removeFrom (r : BlockArray A) (str : Stride) (size : Nat) (dest : Bool) (cur bidx : Nat) :
    Outcome (Nat × List UInt8 × BlockArray A) := do
  let d ← removeLoop str size dest r.fuel r ⟨cur, bidx, cur, bidx⟩ ⟨size, true⟩ 0 []
  let (r, c) ← compactRest r.fuel d
  let _ ← r.block c.wcur
  .ok (d.total, d.bytes, r.setLen c.wcur c.wbidx)

/-- The count with the bytes written through `dest`. -/
def blockArrayRemove (r : BlockArray A) (str : Stride) (size : Nat) (dest : Bool) :
    Outcome (Nat × List UInt8 × BlockArray A) := do
  match ← seek r r.fuel r.head (u32 (str.start * size)) with
  | none => .ok (0, [], r)
  | some (cur, bidx) => removeFrom r str size dest cur bidx

/-- Walk `next` from `cur`. -/
def walkBlocks (r : BlockArray A) : Nat → Option Nat → Outcome (List Nat)
  | _, none => .ok []
  | 0, some _ => .error .fuel
  | n + 1, some cur => do
    let b ← r.block cur
    let rest ← walkBlocks r n b.next
    .ok (cur :: rest)

/-- The bytes of the blocks, in order. -/
def flat (r : BlockArray A) (ps : List Nat) : List UInt8 :=
  ps.flatMap fun p => load (r.data p) 0 (r.len p)

def getlenLoop (r : BlockArray A) : Nat → Option Nat → Nat → Outcome Nat
  | _, none, len => .ok len
  | 0, some _, _ => .error .fuel
  | n + 1, some cur, len => do
    let b ← r.block cur
    getlenLoop r n b.next (len + b.len)

def blockArrayGetlen (r : BlockArray A) : Outcome Nat := getlenLoop r r.fuel r.head 0

/-- The byte sequence obtained by walking the blocks. -/
def contents (r : BlockArray A) : Outcome (List UInt8) := do
  let ps ← walkBlocks r r.fuel r.head
  .ok (flat r ps)

def step (r : BlockArray A) : Op → Outcome (Reply × BlockArray A)
  | .insert ofst src _ => do
    let r ← blockArrayInsert r ofst src
    .ok (.inserted, r)
  | .read str size => do
    let (n, bytes) ← blockArrayRead r str size
    .ok (.count n bytes, r)
  | .write str size src => do
    let (n, r) ← blockArrayWrite r str size src
    .ok (.count n [], r)
  | .remove str size dest => do
    let (n, bytes, r) ← blockArrayRemove r str size dest
    .ok (.count n bytes, r)
  | .getlen => do
    let n ← blockArrayGetlen r
    .ok (.length n, r)

end BlockArrays
