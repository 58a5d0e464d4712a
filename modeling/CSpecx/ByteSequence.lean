import CSpecx.CExec
import CSpecx.Strided

/-!
# A byte sequence with strided access

What `ext_array` and `block_array` are for, stated on a list of bytes: bytes
are inserted anywhere, and the elements a stride selects are read, overwritten
or removed. Both arrays refine it.
-/

namespace ByteSequence

open CellMemory Strided

/-- `struct stride`. -/
structure Stride where
  start : Nat
  stride : Nat
  nelems : Nat

abbrev Stride.selection (str : Stride) (size : Nat) : Selection :=
  ⟨str.start, str.stride, str.nelems, size⟩

/-- The first `n` elements. -/
def Stride.first (str : Stride) (n : Nat) : Stride := { str with nelems := n }

/-- A source buffer is as long as the call reads. `grown` is what the memory
beyond the old contents holds when the insertion enlarges an `ext_array`;
`dest` says whether the destination of a removal is not `NULL`. -/
inductive Op where
  | insert (ofst : Nat) (src : List UInt8) (grown : Nat → UInt8)
  | read (str : Stride) (size : Nat)
  | write (str : Stride) (size : Nat) (src : Nat → UInt8)
  | remove (str : Stride) (size : Nat) (dest : Bool)
  | getlen

inductive Reply where
  | inserted
  | count (n : Nat) (bytes : List UInt8)
  | length (n : Nat)
  deriving DecidableEq, Repr

/-- Elements of `size` bytes within 32 bits. -/
structure Bounded (str : Stride) (size : Nat) : Prop where
  size_pos : 0 < size
  stride_pos : 0 < str.stride
  nelems_pos : 0 < str.nelems
  bound : (str.start + str.nelems * str.stride) * size < 2 ^ 32

/-- Positions within 32 bits, of any number of elements. -/
structure Spanned (str : Stride) (size : Nat) : Prop where
  size_pos : 0 < size
  stride_pos : 0 < str.stride
  bound : (str.start + str.nelems * str.stride) * size < 2 ^ 32

/-- The sequence is a whole number of elements. -/
structure InRange (str : Stride) (size len : Nat) : Prop extends Bounded str size where
  divides : size ∣ len

def Permitted (len : Nat) : Op → Prop
  | .insert ofst src _ => ofst ≤ len ∧ src ≠ [] ∧ len + src.length < 2 ^ 31
  | .read str size | .write str size _ | .remove str size _ => InRange str size len
  | .getlen => True

/-- The operations on a sequence that need not be a whole number of elements. -/
def Allowed (len : Nat) : Op → Prop
  | .insert ofst src _ => ofst ≤ len ∧ src ≠ [] ∧ len + src.length < 2 ^ 31
  | .read str size | .write str size _ | .remove str size _ => Spanned str size
  | .getlen => True

def selected (str : Stride) (size : Nat) (xs : List UInt8) : List UInt8 :=
  select (str.selection size).Picked 0 xs

def remaining (str : Stride) (size : Nat) (xs : List UInt8) : List UInt8 :=
  select (fun p => ¬ (str.selection size).Picked p) 0 xs

def overwritten (str : Stride) (size : Nat) (src : Nat → UInt8) (xs : List UInt8) :
    List UInt8 :=
  overlay (str.selection size).Picked (fun p => src ((str.selection size).rank p)) 0 xs

def elements (str : Stride) (size : Nat) (xs : List UInt8) : Nat :=
  (str.selection size).count xs.length

def apply (xs : List UInt8) : Op → Reply × List UInt8
  | .insert ofst src _ => (.inserted, xs.take ofst ++ src ++ xs.drop ofst)
  | .read str size => (.count (elements str size xs) (selected str size xs), xs)
  | .write str size src => (.count (elements str size xs) [], overwritten str size src xs)
  | .remove str size dest =>
    (.count (elements str size xs) (if dest then selected str size xs else []),
      remaining str size xs)
  | .getlen => (.length xs.length, xs)

example : apply [1, 2, 3, 4, 5, 6, 7, 8] (.remove ⟨1, 2, 2⟩ 2 true) =
    (.count 2 [3, 4, 7, 8], [1, 2, 5, 6]) := by decide

section Ranges

variable {str : Stride} {size len k : Nat}

theorem InRange.spanned (range : InRange str size len) : Spanned str size :=
  ⟨range.size_pos, range.stride_pos, range.bound⟩

theorem Permitted.allowed {op : Op} (permitted : Permitted len op) : Allowed len op := by
  cases op with
  | insert ofst src grown => exact permitted
  | read str size => exact InRange.spanned permitted
  | write str size src => exact InRange.spanned permitted
  | remove str size dest => exact InRange.spanned permitted
  | getlen => trivial

theorem Spanned.bounded (spanned : Spanned str size) (h : 0 < str.nelems) : Bounded str size :=
  ⟨spanned.size_pos, spanned.stride_pos, h, spanned.bound⟩

/-- The position at which every operation seeks. -/
theorem Spanned.start_eq (spanned : Spanned str size) :
    CExec.u32 (str.start * size) = str.start * size := by
  have hle : str.start * size ≤ (str.start + str.nelems * str.stride) * size :=
    Nat.mul_le_mul_right size (Nat.le_add_right _ _)
  exact CExec.u32_of_lt (lt_of_le_of_lt hle spanned.bound)

/-- No position of the selection passes 32 bits. -/
theorem Bounded.pos_le (range : Bounded str size) (hk : k ≤ str.nelems) :
    (str.selection size).pos k < 2 ^ 32 := by
  have hmul : k * str.stride ≤ str.nelems * str.stride := Nat.mul_le_mul_right _ hk
  have hpos : (str.selection size).pos k ≤ (str.start + str.nelems * str.stride) * size :=
    Nat.mul_le_mul_right size (Nat.add_le_add_left hmul str.start)
  exact lt_of_le_of_lt hpos range.bound

theorem Bounded.index_lt (range : Bounded str size) (hk : k ≤ str.nelems) :
    str.start + k * str.stride < 2 ^ 32 :=
  lt_of_le_of_lt (Nat.le_mul_of_pos_right _ range.size_pos) (range.pos_le hk)

theorem Bounded.end_le (range : Bounded str size) (hk : k < str.nelems) :
    (str.selection size).pos k + size < 2 ^ 32 := by
  have hstep : size ≤ str.stride * size := Nat.le_mul_of_pos_left _ range.stride_pos
  have hsucc : (str.selection size).pos (k + 1) =
      (str.selection size).pos k + str.stride * size := Selection.pos_succ k
  have hk' : k + 1 ≤ str.nelems := hk
  have := range.pos_le hk'
  omega

theorem Bounded.nelems_lt (range : Bounded str size) : str.nelems < 2 ^ 32 := by
  have h₁ : str.nelems ≤ str.nelems * str.stride :=
    Nat.le_mul_of_pos_right _ range.stride_pos
  have h₂ : str.start + str.nelems * str.stride ≤
      (str.start + str.nelems * str.stride) * size :=
    Nat.le_mul_of_pos_right _ range.size_pos
  have := range.bound
  omega

/-- An element begins no earlier than its number. -/
theorem le_pos (hsize : 0 < size) (hstep : 0 < str.stride) (k : Nat) :
    k ≤ (str.selection size).pos k := by
  have hstride : k ≤ k * str.stride := Nat.le_mul_of_pos_right k hstep
  have hindex : k ≤ str.start + k * str.stride := le_trans hstride (Nat.le_add_left _ _)
  exact le_trans hindex (Nat.le_mul_of_pos_right _ hsize)

theorem picked_before_iff {n p : Nat} (hstep : 0 < str.stride) (hn : n ≤ str.nelems) :
    ((str.first n).selection size).Picked p ↔
      (str.selection size).Picked p ∧ p < (str.selection size).pos n := by
  constructor
  · rintro ⟨k, hk, hlow, hhigh⟩
    have hk' : k < n := hk
    have hend : (str.selection size).pos k + size ≤ (str.selection size).pos n :=
      Selection.end_le_pos hstep hk'
    exact ⟨⟨k, lt_of_lt_of_le hk' hn, hlow, hhigh⟩, lt_of_lt_of_le hhigh hend⟩
  · rintro ⟨⟨k, hk, hlow, hhigh⟩, hbefore⟩
    have hk' : k < n := by
      refine Nat.lt_of_not_le fun hge => ?_
      have hmono : (str.selection size).pos n ≤ (str.selection size).pos k :=
        Selection.pos_mono hge
      omega
    exact ⟨k, hk', hlow, hhigh⟩

/-- Whole elements: one that begins inside the sequence ends inside it. -/
theorem pos_whole (divides : size ∣ len) (h : (str.selection size).pos k < len) :
    (str.selection size).pos k + size ≤ len := by
  obtain ⟨d, rfl⟩ := divides
  have hpos : (str.selection size).pos k = size * (str.start + k * str.stride) :=
    Nat.mul_comm _ _
  rw [hpos] at h ⊢
  have hlt : str.start + k * str.stride < d := Nat.lt_of_mul_lt_mul_left h
  exact Nat.mul_le_mul_left size hlt

/-- In whole elements the counted ones are all that is picked. -/
theorem picked_whole_iff {p : Nat} (hstep : 0 < str.stride) (divides : size ∣ len) (hp : p < len) :
    ((str.first ((str.selection size).count len)).selection size).Picked p ↔
      (str.selection size).Picked p := by
  rw [picked_before_iff hstep (Selection.count_whole (str.selection size) len).1]
  constructor
  · exact And.left
  · rintro ⟨k, hk, hlow, hhigh⟩
    have hfits := pos_whole divides (lt_of_le_of_lt hlow hp)
    have hcounted : k < (str.selection size).count len := Selection.lt_count_iff.mpr ⟨hk, hfits⟩
    have hend : (str.selection size).pos k + size ≤
        (str.selection size).pos ((str.selection size).count len) :=
      Selection.end_le_pos hstep hcounted
    exact ⟨⟨k, hk, hlow, hhigh⟩, lt_of_lt_of_le hhigh hend⟩

theorem selected_first_whole {xs : List UInt8} (hstep : 0 < str.stride)
    (divides : size ∣ xs.length) :
    selected (str.first (elements str size xs)) size xs = selected str size xs :=
  select_congr fun p _ hp => picked_whole_iff hstep divides (by omega)

theorem overwritten_first_whole {xs : List UInt8} {src : Nat → UInt8} (hstep : 0 < str.stride)
    (divides : size ∣ xs.length) :
    overwritten (str.first (elements str size xs)) size src xs = overwritten str size src xs := by
  refine List.map_congr_left fun a ha => ?_
  have hp := (position_bounds ha).2
  exact if_congr (picked_whole_iff hstep divides (by omega)) rfl rfl

end Ranges

end ByteSequence
