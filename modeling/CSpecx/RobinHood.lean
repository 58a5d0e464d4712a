import CSpecx.CExec
import Mathlib.Data.Int.Init
import Mathlib.Logic.Function.Basic

/-!
# The Robin Hood hash table

`robin_hood_ht.h`, with any integer type as `KTYPE` and any `VTYPE`. Sums are
formed in the wider of `KTYPE` and `int`. They wrap when that type is unsigned
and are undefined outside it otherwise; `%` truncates, so a negative key can
index before the array. A distance never exceeds the index of the loop that
computes it and is a natural number.
-/

namespace RobinHood

open CExec

/-- `KTYPE`. -/
structure KeyType where
  signed : Bool
  bits : Nat
  deriving DecidableEq, Repr

namespace KeyType

/-- The default of the header. -/
def int : KeyType := ⟨true, 32⟩

def u32 : KeyType := ⟨false, 32⟩

end KeyType

structure HData (V : Type) where
  key : Int
  value : V
  deriving DecidableEq, Repr

structure HEntry (V : Type) where
  data : HData V
  dib : Nat
  present : Bool

structure HashTable (V : Type) where
  cap : Nat
  elems : Nat → HEntry V

inductive HtiRes where
  | success
  | exists
  | full
  deriving DecidableEq, Repr

inductive HtaRes where
  | success
  | doesntExist
  deriving DecidableEq, Repr

variable {V : Type} (K : KeyType)

/-- `(KTYPE)ht->cap`. -/
def ktypeCap (cap : Nat) : Int :=
  if K.signed then Int.bmod cap (2 ^ K.bits) else (cap : Int) % 2 ^ K.bits

/-- The width a sum of two `KTYPE` values is computed in. -/
def sumBits : Nat := max K.bits 32

/-- Sums of two `KTYPE` values wrap: the narrower unsigned types are promoted to `int`. -/
def KeyType.wraps : Bool := !K.signed && decide (32 ≤ K.bits)

/-- `key + offset`. -/
def keySum (key : Int) (offset : Nat) : Outcome Int :=
  if K.wraps then .ok ((key + offset) % 2 ^ K.bits)
  else do
    access (-2 ^ (sumBits K - 1) ≤ key + offset ∧ key + offset < 2 ^ (sumBits K - 1))
    .ok (key + offset)

/-- `(key + offset) % (KTYPE)ht->cap`, the sum and the use as an index checked. -/
def probeIndex (cap : Nat) (key : Int) (offset : Nat) : Outcome Nat := do
  let sum ← keySum K key offset
  access (0 ≤ sum.tmod (ktypeCap K cap) ∧ sum.tmod (ktypeCap K cap) < cap)
  .ok (sum.tmod (ktypeCap K cap)).toNat

def HashTable.set (ht : HashTable V) (i : Nat) (e : HEntry V) : HashTable V :=
  { ht with elems := Function.update ht.elems i e }

/-- `HT_INIT`: the array has `nelem` elements and is zeroed. -/
def htInit [Inhabited V] (nelem : Nat) : HashTable V :=
  { cap := nelem
    elems := fun _ => { data := { key := 0, value := default }, dib := 0, present := false } }

/-- The loop of `HT_INSERT` with `n` iterations to go. -/
def insertLoop : Nat → HashTable V → HData V → Nat → Outcome (HtiRes × HashTable V)
  | 0, ht, _, _ => .ok (.full, ht)
  | n + 1, ht, data, dibn => do
    let i ← probeIndex K ht.cap data.key dibn
    if !(ht.elems i).present then
      .ok (.success, ht.set i { data := data, dib := dibn, present := true })
    else if (ht.elems i).dib < dibn then
      -- swap: the displaced entry is compared with the one just stored
      let temp := ht.elems i
      let ht := ht.set i { temp with data := data, dib := dibn }
      if data.key = temp.data.key then
        .ok (.exists, ht)
      else
        insertLoop n ht temp.data (temp.dib + 1)
    else if (ht.elems i).data.key = data.key then
      .ok (.exists, ht)
    else
      insertLoop n ht data (dibn + 1)

def htInsert (ht : HashTable V) (data : HData V) : Outcome (HtiRes × HashTable V) := do
  assert (ht.cap > 0)
  insertLoop K (ktypeCap K ht.cap).toNat ht data 0

/-- The search loop of `HT_GET` and `HT_DELETE` with `n` iterations to go: the
iteration and the slot that hold the key. There `dibn` is `i`. -/
def searchLoop (ht : HashTable V) (key : Int) : Nat → Nat → Outcome (Option (Nat × Nat))
  | 0, _ => .ok none
  | n + 1, i => do
    let s ← probeIndex K ht.cap key i
    if !(ht.elems s).present then
      .ok none
    else if (ht.elems s).dib < i then
      .ok none
    else if (ht.elems s).data.key = key then
      .ok (some (i, s))
    else
      searchLoop ht key n (i + 1)

/-- The second component is what is stored through `dest` when it is not null. -/
def htGet (ht : HashTable V) (key : Int) : Outcome (HtaRes × Option (HData V)) := do
  assert (ht.cap > 0)
  match ← searchLoop K ht key (ktypeCap K ht.cap).toNat 0 with
  | none => .ok (.doesntExist, none)
  | some (_, s) => .ok (.success, some (ht.elems s).data)

/-- The shifts of `HT_DELETE` with `n` iterations to go. -/
def shiftLoop (key : Int) : Nat → HashTable V → Nat → Outcome (HtaRes × HashTable V)
  | 0, ht, _ => .ok (.doesntExist, ht)
  | n + 1, ht, i => do
    let hole ← probeIndex K ht.cap key i
    let next ← probeIndex K ht.cap key (i + 1)
    if !(ht.elems next).present || (ht.elems next).dib == 0 then
      .ok (.success, ht.set hole { ht.elems hole with present := false })
    else do
      let ht := ht.set hole { ht.elems hole with data := (ht.elems next).data }
      assert ((ht.elems next).dib > 0)
      let ht := ht.set hole { ht.elems hole with dib := (ht.elems next).dib - 1 }
      assert ((ht.elems hole).present)
      shiftLoop key n ht (i + 1)

def htDelete (ht : HashTable V) (key : Int) :
    Outcome (HtaRes × Option (HData V) × HashTable V) := do
  assert (ht.cap > 0)
  match ← searchLoop K ht key (ktypeCap K ht.cap).toNat 0 with
  | none => .ok (.doesntExist, none, ht)
  | some (i, s) => do
    let (res, ht') ← shiftLoop K key ((ktypeCap K ht.cap).toNat - i) ht i
    .ok (res, some (ht.elems s).data, ht')

def htCount (ht : HashTable V) : Outcome Nat := do
  assert (ht.cap > 0)
  .ok ((List.range ht.cap).countP fun i => (ht.elems i).present)

end RobinHood
