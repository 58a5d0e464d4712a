import CSpecx.Component
import CSpecx.CellMemory

/-!
# The circular buffer of `cbuffer.c`

A pointer argument is an optional memory, `none` for NULL; a destination is
returned with what was copied into it. Every copy checks that it stays inside
the backing array.
-/

namespace CircularBuffer

open CExec CellMemory Component

abbrev Bytes := Nat → UInt8

structure Cbuffer where
  data : Bytes
  cap : Nat
  head : Nat
  tail : Nat
  isfull : Bool

def cbufferLen (b : Cbuffer) : Nat :=
  if b.isfull then b.cap
  else if b.tail ≤ b.head then sub32 b.head b.tail
  else sub32 b.cap (sub32 b.tail b.head)

/-- `cbuffer_assert__`, run by `DBG_ASSERT` at the start of each operation. -/
def cbufferAssert (b : Cbuffer) : Outcome Unit := do
  assert (0 < b.cap)
  assert (b.isfull → b.tail = b.head)
  assert (cbufferLen b ≤ b.cap)

def cbufferAvail (b : Cbuffer) : Outcome Nat := do
  cbufferAssert b
  assert (cbufferLen b ≤ b.cap)
  return sub32 b.cap (cbufferLen b)

def cbufferCreate (data : Option Bytes) (cap : Nat) : Outcome Cbuffer := do
  let d ← nonNull data
  assert (0 < cap)
  return { data := d, cap := cap, head := 0, tail := 0, isfull := false }

def cbufferCreateWith (data : Option Bytes) (cap len : Nat) : Outcome Cbuffer := do
  let d ← nonNull data
  assert (0 < cap)
  assert (len ≤ cap)
  return { data := d, cap := cap, head := len % cap, tail := 0, isfull := len = cap }

def cbufferDiscardAll (b : Cbuffer) : Outcome Cbuffer := do
  cbufferAssert b
  return { b with tail := 0, head := 0, isfull := false }

def cbufferFakewrite (b : Cbuffer) (nbytes : Nat) : Outcome Cbuffer := do
  cbufferAssert b
  assert (nbytes ≤ (← cbufferAvail b))
  let head := u32 (b.head + nbytes) % b.cap
  return { b with
    head := head
    isfull := if 0 < nbytes ∧ head = b.tail then true else b.isfull }

def cbufferFakeread (b : Cbuffer) (nbytes : Nat) : Outcome Cbuffer := do
  cbufferAssert b
  assert (nbytes ≤ cbufferLen b)
  return { b with
    tail := u32 (b.tail + nbytes) % b.cap
    isfull := if 0 < nbytes then false else b.isfull }

/-! ## Raw read and write -/

/-- `memcpy` out of the backing array. -/
def copyOut (b : Cbuffer) (o n : Nat) : Outcome (List UInt8) := do
  access (o + n ≤ b.cap)
  return load b.data o n

/-- `memcpy` into the backing array. -/
def copyIn (b : Cbuffer) (o : Nat) (xs : List UInt8) : Outcome Cbuffer := do
  access (o + xs.length ≤ b.cap)
  return { b with data := store b.data o xs }

structure ReadState where
  bread : Nat
  tail : Nat
  isfull : Bool
  output : Option Bytes

/-- The loop of `cbuffer_read` and `cbuffer_copy`, over the cursors that the
first keeps in the buffer and the second in locals. -/
def readLoop (b : Cbuffer) (btoread : Nat) : Nat → ReadState → Outcome ReadState
  | 0, _ => .error .fuel
  | fuel + 1, s =>
    if s.bread < btoread then do
      let rest := sub32 btoread s.bread
      let next := if s.isfull = false ∧ s.tail < b.head
        then min (sub32 b.head s.tail) rest else min (sub32 b.cap s.tail) rest
      let chunk ← copyOut b s.tail next
      readLoop b btoread fuel {
        bread := u32 (s.bread + next)
        tail := u32 (s.tail + next) % b.cap
        isfull := false
        output := s.output.map fun d => store d s.bread chunk }
    else .ok s

def cbufferRead (dest : Option Bytes) (size n : Nat) (b : Cbuffer) :
    Outcome (Nat × Option Bytes × Cbuffer) := do
  cbufferAssert b
  assert (0 < size)
  assert (0 < n)
  let len := cbufferLen b / size
  let ntoread := if n < len then n else len
  let btoread := u32 (ntoread * size)
  let s ← readLoop b btoread (btoread + 1) ⟨0, b.tail, b.isfull, dest⟩
  assert (u32 (ntoread * size) = s.bread)
  return (ntoread, s.output, { b with tail := s.tail, isfull := s.isfull })

def cbufferCopy (dest : Option Bytes) (size n : Nat) (b : Cbuffer) :
    Outcome (Nat × Option Bytes) := do
  cbufferAssert b
  assert (0 < size)
  assert (0 < n)
  let len := cbufferLen b / size
  let ntoread := if n < len then n else len
  let btoread := u32 (ntoread * size)
  let s ← readLoop b btoread (btoread + 1) ⟨0, b.tail, b.isfull, dest⟩
  assert (u32 (ntoread * size) = s.bread)
  return (ntoread, s.output)

/-- Where the next chunk goes and how long it is. -/
def writeCursor (b : Cbuffer) (rest : Nat) : Outcome (Nat × Nat) :=
  if b.tail ≤ b.head then do
    assert (b.head < b.cap)
    let next := min (sub32 b.cap b.head) rest
    return if next = 0 then (0, b.tail) else (b.head, next)
  else do
    assert (b.head < b.tail)
    return (b.head, min (sub32 b.tail b.head) rest)

def writeLoop (input : Bytes) (btowrite : Nat) : Nat → Nat → Cbuffer → Outcome (Nat × Cbuffer)
  | 0, _, _ => .error .fuel
  | fuel + 1, bwrite, b =>
    if bwrite < btowrite then do
      assert (bwrite < btowrite)
      let (head, next) ← writeCursor b (sub32 btowrite bwrite)
      let b ← copyIn b head (load input bwrite next)
      let head := u32 (head + next) % b.cap
      writeLoop input btowrite fuel (u32 (bwrite + next))
        { b with head := head, isfull := if head = b.tail then true else b.isfull }
    else .ok (bwrite, b)

def cbufferWrite (src : Option Bytes) (size n : Nat) (b : Cbuffer) :
    Outcome (Nat × Cbuffer) := do
  cbufferAssert b
  let input ← nonNull src
  assert (0 < size)
  assert (0 < n)
  assert (cbufferLen b ≤ b.cap)
  let avail := sub32 b.cap (cbufferLen b) / size
  let ntowrite := if n < avail then n else avail
  let btowrite := u32 (ntowrite * size)
  let (bwrite, b) ← writeLoop input btowrite (btowrite + 1) 0 b
  assert (u32 (ntowrite * size) = bwrite)
  return (ntowrite, b)

/-! ## Single elements -/

/-- One `memcpy`, or two when the element continues at the start of the array. -/
def elementOut (b : Cbuffer) (offset size : Nat) (dest : Bytes) : Outcome Bytes :=
  if u32 (offset + size) ≤ b.cap then do
    return store dest 0 (← copyOut b offset size)
  else do
    let first := sub32 b.cap offset
    let left ← copyOut b offset first
    let right ← copyOut b 0 (sub32 size first)
    return store (store dest 0 left) first right

def elementIn (b : Cbuffer) (offset size : Nat) (src : Bytes) : Outcome Cbuffer :=
  if u32 (offset + size) ≤ b.cap then copyIn b offset (load src 0 size)
  else do
    let first := sub32 b.cap offset
    let b ← copyIn b offset (load src 0 first)
    copyIn b 0 (load src first (sub32 size first))

def cbufferGetNoCheck (dest : Option Bytes) (size idx : Nat) (b : Cbuffer) :
    Outcome (Option Bytes) := do
  cbufferAssert b
  assert (0 < size)
  assert (u32 (idx * size) < b.cap)
  let len := cbufferLen b / size
  assert (idx < len)
  match dest with
  | none => return none
  | some d => do
    let offset := u32 (b.tail + u32 (idx * size)) % b.cap
    return some (← elementOut b offset size d)

def cbufferGet (dest : Option Bytes) (size idx : Nat) (b : Cbuffer) :
    Outcome (Bool × Option Bytes) := do
  cbufferAssert b
  let d ← nonNull dest
  if b.isfull = false ∧ sub32 (u32 (b.head + b.cap)) b.tail % b.cap ≤ idx then
    return (false, some d)
  else
    return (true, ← cbufferGetNoCheck (some d) size idx b)

def cbufferPushBack (src : Bytes) (size : Nat) (b : Cbuffer) : Outcome (Bool × Cbuffer) := do
  cbufferAssert b
  assert (0 < size)
  if (← cbufferAvail b) < size then return (false, b)
  else
    let b ← elementIn b b.head size src
    let head := u32 (b.head + size) % b.cap
    return (true, { b with head := head, isfull := if head = b.tail then true else b.isfull })

def cbufferPushFront (src : Bytes) (size : Nat) (b : Cbuffer) : Outcome (Bool × Cbuffer) := do
  cbufferAssert b
  assert (0 < size)
  if (← cbufferAvail b) < size then return (false, b)
  else
    let newTail := sub32 (u32 (b.tail + b.cap)) size % b.cap
    let b ← elementIn b newTail size src
    return (true, { b with
      tail := newTail
      isfull := if b.head = newTail then true else b.isfull })

/-- The common body of `cbuffer_pop_back` and `cbuffer_pop_front`. -/
def popTail (dest : Option Bytes) (size : Nat) (b : Cbuffer) :
    Outcome (Bool × Bytes × Cbuffer) := do
  let d ← nonNull dest
  cbufferAssert b
  assert (0 < size)
  if b.isfull = false ∧ b.head = b.tail then return (false, d, b)
  else
    let d ← elementOut b b.tail size d
    return (true, d, { b with tail := u32 (b.tail + size) % b.cap, isfull := false })

def cbufferPopBack (dest : Option Bytes) (size : Nat) (b : Cbuffer) :
    Outcome (Bool × Bytes × Cbuffer) := popTail dest size b

def cbufferPopFront (dest : Option Bytes) (size : Nat) (b : Cbuffer) :
    Outcome (Bool × Bytes × Cbuffer) := popTail dest size b

end CircularBuffer
