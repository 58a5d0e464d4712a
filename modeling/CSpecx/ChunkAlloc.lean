import CSpecx.LinearAllocator
import Mathlib.Algebra.BigOperators.Group.List.Basic

/-!
# The chunk allocator

`chunk_alloc.c`. Chunks are listed from `head`, and each is found at the address
that `malloc` gave. Of `target_chunk_mult` only the comparison with 1 and the
truncated product with a request are read; a product outside 32 bits is
undefined. Each function runs between `latch_lock` and `latch_unlock`.
-/

namespace ChunkAllocator

open CExec Errors LinearAllocator

/-- `struct chunk` at `addr`; its bytes begin behind the header. -/
structure Chunk where
  addr : Nat
  alloc : Lalloc
  deriving DecidableEq, Repr

/-- `sizeof (struct chunk)`. -/
def headerSize : Nat := 32

/-- `target_chunk_mult`. -/
structure Multiplier where
  atLeastOne : Bool
  product : Nat → Nat

/-- `struct chunk_alloc_settings`. -/
structure Settings where
  maxAllocSize : Nat
  maxTotalSize : Nat
  targetChunkMult : Multiplier
  minChunkSize : Nat
  maxChunkSize : Nat
  maxChunks : Nat
  min_lt : minChunkSize < 2 ^ 32

structure ChunkAlloc where
  settings : Settings
  chunks : List Chunk
  numChunks : Nat
  totalAllocated : Nat
  totalUsed : Nat

def Chunk.limit (c : Chunk) : Nat := c.alloc.limit

def Chunk.used (c : Chunk) : Nat := c.alloc.used

/-- The predicate of `chunk_assert__`. -/
def Chunk.Valid (c : Chunk) : Prop :=
  c.alloc.data = c.addr + headerSize ∧ c.alloc.used ≤ c.alloc.limit ∧ 0 < c.alloc.limit

instance (c : Chunk) : Decidable c.Valid := inferInstanceAs (Decidable (_ ∧ _))

/-- What `chunk_alloc_create` accepts. -/
def Settings.Accepted (s : Settings) : Prop :=
  s.targetChunkMult.atLeastOne = true ∧ 0 < s.minChunkSize ∧
    (s.maxChunkSize = 0 ∨ s.minChunkSize ≤ s.maxChunkSize)

instance (s : Settings) : Decidable s.Accepted := inferInstanceAs (Decidable (_ ∧ _))

def ChunkAlloc.limits (ca : ChunkAlloc) : Nat := (ca.chunks.map Chunk.limit).sum

def ChunkAlloc.useds (ca : ChunkAlloc) : Nat := (ca.chunks.map Chunk.used).sum

/-- The predicate of `chunk_alloc_assert__`. -/
def ChunkAlloc.Valid (ca : ChunkAlloc) : Prop :=
  ca.settings.Accepted ∧ (ca.chunks ≠ [] ∨ ca.numChunks = 0) ∧
    ca.totalUsed ≤ ca.totalAllocated ∧
    (ca.settings.maxTotalSize = 0 ∨ ca.totalAllocated ≤ ca.settings.maxTotalSize) ∧
    (ca.settings.maxChunks = 0 ∨ ca.numChunks < ca.settings.maxChunks) ∧
    (∀ c ∈ ca.chunks, c.Valid) ∧
    (ca.settings.maxChunks = 0 ∨ ca.chunks.length ≤ ca.settings.maxChunks) ∧
    ca.chunks.length ≤ 100000 ∧ ca.chunks.length = ca.numChunks ∧
    u32 ca.limits = ca.totalAllocated ∧ u32 ca.useds = ca.totalUsed

instance (ca : ChunkAlloc) : Decidable ca.Valid := inferInstanceAs (Decidable (_ ∧ _))

/-- `i_malloc (bytes, 1, e)`; `block` is what `malloc` returns. -/
def iMallocBlock (build : Build) (bytes : Nat) (block : Option Nat) (e : ErrorObject) :
    Outcome (Option Nat × ErrorObject) := do
  build.check (0 < bytes)
  match block with
  | none => .ok (none, (errorCausef e errNomem ⟨"malloc %d*%d: %s", [bytes, 1]⟩).2)
  | some addr => .ok (some addr, e)

/-- The header is stored in the block. -/
def chunkCreate (build : Build) (size : Nat) (block : Option Nat) (e : ErrorObject) :
    Outcome (Option Chunk × ErrorObject) := do
  let (ret, e) ← iMallocBlock build (u32 (headerSize + size)) block e
  match ret with
  | none => .ok (none, e)
  | some addr => do
    access (headerSize ≤ u32 (headerSize + size))
    let alloc ← lallocCreate build (addr + headerSize) size
    build.check (Chunk.Valid ⟨addr, alloc⟩)
    .ok (some ⟨addr, alloc⟩, e)

/-- The size that `compute_new_chunk_size` returns. -/
def newChunkSize (s : Settings) (allocSize : Nat) : Nat :=
  let size := s.targetChunkMult.product allocSize
  let size := if size < s.minChunkSize then s.minChunkSize else size
  let size := if 0 < s.maxChunkSize ∧ s.maxChunkSize < size then s.maxChunkSize else size
  if size < allocSize then allocSize else size

def computeNewChunkSize (build : Build) (ca : ChunkAlloc) (allocSize : Nat) : Outcome Nat := do
  build.check ca.Valid
  access (ca.settings.targetChunkMult.product allocSize < 2 ^ 32)
  .ok (newChunkSize ca.settings allocSize)

def chunkAllocCreate (build : Build) (settings : Settings) : Outcome ChunkAlloc := do
  build.check settings.Accepted
  let dest : ChunkAlloc :=
    { settings := settings, chunks := [], numChunks := 0, totalAllocated := 0, totalUsed := 0 }
  build.check dest.Valid
  .ok dest

/-- `chunk_alloc_create_default`. -/
def defaultSettings : Settings where
  maxAllocSize := 0
  maxTotalSize := 0
  targetChunkMult := ⟨true, fun n => n * 10⟩
  minChunkSize := 10
  maxChunkSize := 0
  maxChunks := 0
  min_lt := by decide

/-- The loop of `chunk_alloc_free_all`. -/
def freeChunks (build : Build) : List Chunk → Outcome Unit
  | [] => .ok ()
  | c :: cs => do
    build.check c.Valid
    freeChunks build cs

def chunkAllocFreeAll (build : Build) (ca : ChunkAlloc) : Outcome ChunkAlloc := do
  build.check ca.Valid
  freeChunks build ca.chunks
  .ok { ca with chunks := [], numChunks := 0, totalAllocated := 0, totalUsed := 0 }

/-- The loop of `chunk_alloc_reset_all`. -/
def resetChunks (build : Build) : List Chunk → Outcome (List Chunk)
  | [] => .ok []
  | c :: cs => do
    build.check c.Valid
    let alloc ← lallocReset build c.alloc
    let cs ← resetChunks build cs
    .ok ({ c with alloc := alloc } :: cs)

def chunkAllocResetAll (build : Build) (ca : ChunkAlloc) : Outcome ChunkAlloc := do
  build.check ca.Valid
  let chunks ← resetChunks build ca.chunks
  .ok { ca with chunks := chunks, totalUsed := 0 }

def chunkAllocAddNewChunk (build : Build) (ca : ChunkAlloc) (size : Nat) (block : Option Nat)
    (e : ErrorObject) : Outcome (Int × ChunkAlloc × ErrorObject) := do
  build.check ca.Valid
  if 0 < ca.settings.maxChunks ∧ ca.settings.maxChunks ≤ ca.numChunks then
    let (code, e) := errorCausef e errNomem ⟨"chunk limit reached (%u/%u chunks)",
      [ca.numChunks, ca.settings.maxChunks]⟩
    .ok (code, ca, e)
  else do
    build.check (ca.settings.minChunkSize ≤ size)
    build.check (ca.settings.maxChunkSize = 0 ∨ size ≤ ca.settings.maxChunkSize)
    if 0 < ca.settings.maxTotalSize ∧
        ca.settings.maxTotalSize < u32 (ca.totalAllocated + size) then
      let (code, e) := errorCausef e errNomem
        ⟨"alloc %u bytes would exceed %u byte limit (%u allocated)",
          [size, ca.settings.maxTotalSize, ca.totalAllocated]⟩
      .ok (code, ca, e)
    else do
      let (newChunk, e) ← chunkCreate build size block e
      match newChunk with
      | none => .ok (errorTrace e, ca, e)
      | some c => .ok (success, { ca with
          chunks := c :: ca.chunks
          numChunks := u32 (ca.numChunks + 1)
          totalAllocated := u32 (ca.totalAllocated + size) }, e)

/-- `lmalloc` on the head chunk, and the bytes of the request counted if it is served. -/
def mallocHead (build : Build) (ca : ChunkAlloc) (req size : Nat) (e : Option ErrorObject) :
    Outcome (Option Nat × ChunkAlloc × Option ErrorObject) :=
  match ca.chunks with
  | [] => .error .undefined
  | c :: cs => do
    let (ptr, alloc, e) ← lmalloc build c.alloc req size e
    let ca := { ca with chunks := { c with alloc := alloc } :: cs }
    match ptr with
    | none => .ok (none, ca, e)
    | some ptr => .ok (some ptr, { ca with totalUsed := u32 (ca.totalUsed + u32 (req * size)) }, e)

/-- The second half of `chunk_malloc`: a new chunk, and the allocation from it. -/
def mallocNew (build : Build) (ca : ChunkAlloc) (req size : Nat) (block : Option Nat)
    (e : ErrorObject) : Outcome (Option Nat × ChunkAlloc × ErrorObject) := do
  let newSize ← computeNewChunkSize build ca (u32 (req * size))
  let (code, ca, e) ← chunkAllocAddNewChunk build ca newSize block e
  if code ≠ success then
    .ok (none, ca, e)
  else do
    let (ptr, ca, e') ← mallocHead build ca req size (some e)
    .ok (ptr, ca, e'.getD e)

def chunkMalloc (build : Build) (ca : ChunkAlloc) (req size : Nat) (block : Option Nat)
    (e : ErrorObject) : Outcome (Option Nat × ChunkAlloc × ErrorObject) := do
  build.check ca.Valid
  if 0 < req ∧ (2 ^ 32 - 1) / req < size then
    .ok (none, ca, (errorCausef e errNomem ⟨"alloc overflow: %u * %u", [req, size]⟩).2)
  else if 0 < ca.settings.maxAllocSize ∧ ca.settings.maxAllocSize < u32 (req * size) then
    .ok (none, ca, (errorCausef e errNomem ⟨"alloc %u bytes exceeds max %u",
      [(u32 (req * size) : Nat), ca.settings.maxAllocSize]⟩).2)
  else if ca.chunks = [] then
    mallocNew build ca req size block e
  else do
    let (ptr, ca', _) ← mallocHead build ca req size none
    match ptr with
    | some ptr => .ok (some ptr, ca', e)
    | none => mallocNew build ca' req size block e

/-- `memset` stays inside the bytes of the head chunk; the bytes are not modelled. -/
def chunkCalloc (build : Build) (ca : ChunkAlloc) (req size : Nat) (block : Option Nat)
    (e : ErrorObject) : Outcome (Option Nat × ChunkAlloc × ErrorObject) := do
  build.check ca.Valid
  let (ptr, ca, e) ← chunkMalloc build ca req size block e
  match ptr with
  | none => .ok (none, ca, e)
  | some ptr => do
    access (∃ c ∈ ca.chunks, c.alloc.data ≤ ptr ∧
      ptr + u32 (req * size) ≤ c.alloc.data + c.alloc.limit)
    .ok (some ptr, ca, e)

end ChunkAllocator
