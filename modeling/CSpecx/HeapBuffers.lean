import CSpecx.Errors
import Mathlib.Data.Finset.Basic

/-!
# Heap buffers

Blocks of bytes from `memory.c`. A pointer carries the block it points to,
since each block has one pointer only; the heap keeps the set of blocks that
are allocated. A new block gets an identity that was never used before.
-/

namespace HeapBuffers

open CExec Errors

/-- `dangling` is a pointer whose block was freed. -/
inductive Ptr where
  | null
  | dangling
  | block (id : Nat) (bytes : List UInt8)
  deriving DecidableEq, Repr

structure Heap where
  live : Finset Nat
  next : Nat
  below : ∀ id ∈ live, id < next

/-- What a call of `malloc` or `realloc` meets: whether it returns memory and
what that memory holds. -/
structure Grant where
  granted : Bool
  junk : Nat → UInt8

def Grant.fill (g : Grant) (n : Nat) : List UInt8 := (List.range n).map g.junk

@[simp] theorem Grant.length_fill (g : Grant) (n : Nat) : (g.fill n).length = n := by
  simp [Grant.fill]

namespace Heap

theorem next_notMem (h : Heap) : h.next ∉ h.live := fun hmem =>
  absurd (h.below h.next hmem) (Nat.lt_irrefl _)

/-- The heap with the next block. -/
def grow (h : Heap) : Heap where
  live := insert h.next h.live
  next := h.next + 1
  below id hid := by
    rcases Finset.mem_insert.mp hid with rfl | hold
    · exact Nat.lt_succ_self _
    · exact Nat.lt_succ_of_lt (h.below id hold)

def free (h : Heap) (id : Nat) : Heap where
  live := h.live.erase id
  next := h.next
  below q hq := h.below q (Finset.mem_of_mem_erase hq)

@[simp] theorem mem_grow {h : Heap} {id : Nat} : id ∈ h.grow.live ↔ id = h.next ∨ id ∈ h.live :=
  Finset.mem_insert

@[simp] theorem mem_free {h : Heap} {q id : Nat} :
    q ∈ (h.free id).live ↔ q ≠ id ∧ q ∈ h.live := Finset.mem_erase

end Heap

/-- `i_malloc (n, 1, e)`. -/
def iMallocBytes (g : Grant) (n : Nat) (h : Heap) (e : ErrorObject) :
    Outcome (Ptr × Heap × ErrorObject) := do
  let (ok, e) ← iMalloc g.granted n 1 e
  if ok then .ok (.block h.next (g.fill n), h.grow, e)
  else .ok (.null, h, e)

/-- `i_realloc (ptr, n, 1, e)`. The product with one does not overflow. -/
def iRealloc (g : Grant) (p : Ptr) (n : Nat) (h : Heap) (e : ErrorObject) :
    Outcome (Ptr × Heap × ErrorObject) := do
  assert (0 < n)
  match p with
  | .dangling => .error .undefined
  | .null =>
    if g.granted then .ok (.block h.next (g.fill n), h.grow, e)
    else .ok (.null, h, (errorCausef e errNomem ⟨"realloc %u bytes: %s", [n]⟩).2)
  | .block id bytes => do
    access (id ∈ h.live)
    if g.granted then
      .ok (.block h.next (bytes.take n ++ (g.fill n).drop bytes.length), (h.free id).grow, e)
    else .ok (.null, h, (errorCausef e errNomem ⟨"realloc %u bytes: %s", [n]⟩).2)

/-- `i_realloc_right (ptr, old_nelem, new_nelem, 1, e)`. -/
def iReallocRight (g : Grant) (p : Ptr) (oldNelem newNelem : Nat) (h : Heap) (e : ErrorObject) :
    Outcome (Ptr × Heap × ErrorObject) := do
  assert (p = .null → oldNelem = 0)
  assert (0 < newNelem)
  iRealloc g p newNelem h e

def iFree (p : Ptr) (h : Heap) : Outcome Heap :=
  match p with
  | .null => .error .assertion
  | .dangling => .error .undefined
  | .block id _ => do
    access (id ∈ h.live)
    .ok (h.free id)

namespace Ptr

/-- The bytes behind the pointer. -/
def bytes : Ptr → List UInt8
  | block _ bytes => bytes
  | _ => []

/-- The number of bytes allocated behind the pointer. -/
def size (p : Ptr) : Nat := p.bytes.length

/-- The block of the pointer, when it has one. -/
def blocks : Ptr → List Nat
  | block id _ => [id]
  | _ => []

/-- `p + o` as the argument of a socket call, which asserts that it is not null. -/
def offset (p : Ptr) (o : Nat) : Outcome Unit :=
  match p with
  | null => if o = 0 then .error .assertion else .error .undefined
  | dangling => .error .undefined
  | block _ _ => .ok ()

/-- The source half of a copy of `n` bytes from `p + o`. -/
def load (p : Ptr) (o n : Nat) : Outcome (List UInt8) :=
  match p with
  | block _ bytes => do
    access (o + n ≤ bytes.length)
    .ok ((bytes.drop o).take n)
  | _ => .error .undefined

/-- The destination half of a copy to `p + o`. -/
def store (p : Ptr) (o : Nat) (xs : List UInt8) : Outcome Ptr :=
  match p with
  | block id bytes => do
    access (o + xs.length ≤ bytes.length)
    .ok (.block id (bytes.take o ++ xs ++ bytes.drop (o + xs.length)))
  | _ => .error .undefined

end Ptr

section Rules

variable {g : Grant} {h : Heap} {e : ErrorObject} {id n o : Nat} {bytes xs : List UInt8}

@[simp] theorem bytes_block : (Ptr.block id bytes).bytes = bytes := rfl

@[simp] theorem size_block : (Ptr.block id bytes).size = bytes.length := rfl

@[simp] theorem blocks_block : (Ptr.block id bytes).blocks = [id] := rfl

@[simp] theorem offset_block : (Ptr.block id bytes).offset o = .ok () := rfl

theorem iMallocBytes_granted (hg : g.granted = true) (hn : 0 < n) (hsmall : n < 2 ^ 32) :
    iMallocBytes g n h e = .ok (.block h.next (g.fill n), h.grow, e) := by
  have hbytes : n * 1 < 2 ^ 32 := by omega
  have hmalloc : iMalloc g.granted n 1 e = .ok (true, e) := by
    rw [hg]
    exact iMalloc_granted hn Nat.one_pos hbytes
  simp only [iMallocBytes, hmalloc, ok_bind, if_true]

theorem iReallocRight_granted {m : Nat} (bytes : List UInt8) (hg : g.granted = true) (hn : 0 < n)
    (hlive : id ∈ h.live) :
    iReallocRight g (.block id bytes) m n h e =
      .ok (.block h.next (bytes.take n ++ (g.fill n).drop bytes.length), (h.free id).grow, e) := by
  have hptr : Ptr.block id bytes = .null → m = 0 := Ptr.noConfusion
  simp only [iReallocRight, assert_pos hptr, assert_pos hn, ok_bind, iRealloc, access_pos hlive, hg,
    if_true]

theorem iFree_block (hlive : id ∈ h.live) : iFree (.block id bytes) h = .ok (h.free id) := by
  simp only [iFree, access_pos hlive, ok_bind]

/-- A reallocated block has the length that was asked for. -/
theorem length_realloc :
    (bytes.take n ++ (g.fill n).drop bytes.length).length = n := by
  simp only [List.length_append, List.length_take, List.length_drop, Grant.length_fill]
  omega

theorem load_block (hn : o + n ≤ bytes.length) :
    (Ptr.block id bytes).load o n = .ok ((bytes.drop o).take n) := by
  simp only [Ptr.load, access_pos hn, ok_bind]

theorem store_block (hn : o + xs.length ≤ bytes.length) :
    (Ptr.block id bytes).store o xs =
      .ok (.block id (bytes.take o ++ xs ++ bytes.drop (o + xs.length))) := by
  simp only [Ptr.store, access_pos hn, ok_bind]

theorem length_store (hn : o + xs.length ≤ bytes.length) :
    (bytes.take o ++ xs ++ bytes.drop (o + xs.length)).length = bytes.length := by
  simp only [List.length_append, List.length_take, List.length_drop]
  omega

end Rules

end HeapBuffers
