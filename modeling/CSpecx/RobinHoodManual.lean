import CSpecx.RobinHood

/-!
# The Robin Hood table with a hash function

`robin_hood_manual_ht.h` for any `VTYPE`, `HASH_FUNC` and `CMP_FUNC`. Sums of a
hash and an offset wrap at 32 bits before the remainder by the capacity is
taken.
-/

namespace RobinHoodManual

open CExec
open RobinHood (HtiRes HtaRes)

/-- `HASH_FUNC` and `CMP_FUNC`. -/
structure Funcs (V : Type) where
  hashFunc : V → Nat
  cmpFunc : V → V → Bool

structure HEntry (V : Type) where
  value : V
  hash : Nat
  dib : Nat
  present : Bool

structure HashTable (V : Type) where
  cap : Nat
  elems : Nat → HEntry V

variable {V : Type}

/-- `u32 hash = HASH_FUNC (value)`. -/
def Funcs.hash (f : Funcs V) (value : V) : Nat := u32 (f.hashFunc value)

/-- `(hash + offset) % ht->cap`. -/
def probeIndex (ht : HashTable V) (hash offset : Nat) : Nat := u32 (hash + offset) % ht.cap

def HashTable.set (ht : HashTable V) (i : Nat) (e : HEntry V) : HashTable V :=
  { ht with elems := Function.update ht.elems i e }

/-- `HT_INIT`: the array has `nelem` elements and is zeroed. -/
def htInit [Inhabited V] (nelem : Nat) : HashTable V :=
  { cap := nelem
    elems := fun _ => { value := default, hash := 0, dib := 0, present := false } }

/-- The loop of `HT_INSERT` with `n` iterations to go. -/
def insertLoop (f : Funcs V) : Nat → HashTable V → V → Nat → Nat → HtiRes × HashTable V
  | 0, ht, _, _, _ => (.full, ht)
  | n + 1, ht, value, hash, dibn =>
    let i := probeIndex ht hash dibn
    if !(ht.elems i).present then
      (.success, ht.set i { value := value, hash := hash, dib := dibn, present := true })
    else if (ht.elems i).dib < dibn then
      -- swap: the displaced entry is compared with the one just stored
      let temp := ht.elems i
      let ht := ht.set i { temp with value := value, hash := hash, dib := dibn }
      if decide (hash = temp.hash) && f.cmpFunc value temp.value then
        (.exists, ht)
      else
        insertLoop f n ht temp.value temp.hash (temp.dib + 1)
    else if decide ((ht.elems i).hash = hash) && f.cmpFunc (ht.elems i).value value then
      (.exists, ht)
    else
      insertLoop f n ht value hash (dibn + 1)

def htInsert (f : Funcs V) (ht : HashTable V) (value : V) : Outcome (HtiRes × HashTable V) := do
  assert (ht.cap > 0)
  .ok (insertLoop f ht.cap ht value (f.hash value) 0)

/-- The search loop of `HT_GET` and `HT_DELETE` with `n` iterations to go: the
iteration and the slot that hold the value. There `dibn` is `i`. -/
def searchLoop (f : Funcs V) (ht : HashTable V) (value : V) (hash : Nat) :
    Nat → Nat → Option (Nat × Nat)
  | 0, _ => none
  | n + 1, i =>
    let s := probeIndex ht hash i
    if !(ht.elems s).present then
      none
    else if (ht.elems s).dib < i then
      none
    else if decide ((ht.elems s).hash = hash) && f.cmpFunc (ht.elems s).value value then
      some (i, s)
    else
      searchLoop f ht value hash n (i + 1)

/-- The second component is what is stored through `dest` when it is not null. -/
def htGet (f : Funcs V) (ht : HashTable V) (value : V) : Outcome (HtaRes × Option V) := do
  assert (ht.cap > 0)
  match searchLoop f ht value (f.hash value) ht.cap 0 with
  | none => .ok (.doesntExist, none)
  | some (_, s) => .ok (.success, some (ht.elems s).value)

/-- The shifts of `HT_DELETE` with `n` iterations to go. -/
def shiftLoop (hash : Nat) : Nat → HashTable V → Nat → Outcome (HtaRes × HashTable V)
  | 0, ht, _ => .ok (.doesntExist, ht)
  | n + 1, ht, i => do
    let hole := probeIndex ht hash i
    let next := probeIndex ht hash (i + 1)
    if !(ht.elems next).present || (ht.elems next).dib == 0 then
      .ok (.success, ht.set hole { ht.elems hole with present := false })
    else do
      let ht := ht.set hole { ht.elems hole with value := (ht.elems next).value }
      let ht := ht.set hole { ht.elems hole with hash := (ht.elems next).hash }
      assert ((ht.elems next).dib > 0)
      let ht := ht.set hole { ht.elems hole with dib := (ht.elems next).dib - 1 }
      assert ((ht.elems hole).present)
      shiftLoop hash n ht (i + 1)

def htDelete (f : Funcs V) (ht : HashTable V) (value : V) :
    Outcome (HtaRes × Option V × HashTable V) := do
  assert (ht.cap > 0)
  match searchLoop f ht value (f.hash value) ht.cap 0 with
  | none => .ok (.doesntExist, none, ht)
  | some (i, s) => do
    let (res, ht') ← shiftLoop (f.hash value) (ht.cap - i) ht i
    .ok (res, some (ht.elems s).value, ht')

end RobinHoodManual
