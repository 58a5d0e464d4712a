import CSpecx.EmptySelections
import CSpecx.StrideResolve
import CSpecx.StridedItems

/-!
# Arrays of items under slices

The callers of both arrays hold items of one size in them and resolve a user
stride against the number of items before each access. Resolved and accessed so,
both arrays are lists of items with the slices of Python.
-/

namespace SlicedArrays

open CExec CellMemory Component Errors Strided ByteSequence Slices StrideResolve BlockArrays
  ExtArrays ArrayAgreement SlabBlocks
open SlabAllocator (SlabAlloc Granted alignedSize blockHeader headerSize)

/-- What a caller does with items; `grown` is as for the arrays. -/
inductive SliceOp where
  | insert (i : Nat) (items : List (List UInt8)) (grown : Nat → UInt8)
  | get (src : UserStride)
  | set (src : UserStride) (items : List (List UInt8))
  | del (src : UserStride)

inductive SliceReply where
  | refused (code : Int)
  | answered (blocks ext : Reply)
  deriving DecidableEq, Repr

variable {A : BlockAllocator} {size : Nat}

/-- `stride_resolve` on the number of items, and the access if it succeeds. -/
def resolved (A : BlockAllocator) (size : Nat) (st : BlockArray A × ExtArray) (src : UserStride)
    (access : Stride → Op) : Outcome (SliceReply × BlockArray A × ExtArray) := do
  let (code, str, _) ← strideResolve ⟨0, 0, 0⟩ src (extArrayGetLen st.2 / size) errorCreate
  if code ≠ success then .ok (.refused code, st)
  else do
    let ((blocks, ext), st) ← (both A).step st (access str)
    .ok (.answered blocks ext, st)

def sliceStep (A : BlockAllocator) (size : Nat) (st : BlockArray A × ExtArray) :
    SliceOp → Outcome (SliceReply × BlockArray A × ExtArray)
  | .insert i items grown => do
    let ((blocks, ext), st) ← (both A).step st (.insert (i * size) items.flatten grown)
    .ok (.answered blocks ext, st)
  | .get src => resolved A size st src fun str => .read str size
  | .set src items =>
    resolved A size st src fun str => .write str size fun p => items.flatten.getD p 0
  | .del src => resolved A size st src fun str => .remove str size true

/-- A slice that selects an item, with all sums inside 32 bits. -/
def Fits (size n : Nat) (src : UserStride) : Prop :=
  0 < stepOf src → (sliceOf src).indices n ≠ [] ∧ (n + (stepOf src).toNat) * size < 2 ^ 32

/-- What a caller that holds `n` items is held to. -/
def Usable (size n : Nat) : SliceOp → Prop
  | .insert i items _ => i ≤ n ∧ items ≠ [] ∧ Uniform size items ∧
      (n + items.length) * size < 2 ^ 31
  | .get src => Fits size n src
  | .set src items => Fits size n src ∧ Uniform size items ∧
      (0 < stepOf src → items.length = ((sliceOf src).indices n).length)
  | .del src => Fits size n src

def sliced (A : BlockAllocator) (size : Nat) :
    Interface (BlockArray A × ExtArray) SliceOp SliceReply where
  pre st op := Usable size (extArrayGetLen st.2 / size) op
  step := sliceStep A size

/-- The answer of both arrays to an access to `n` items. -/
def counted (n : Nat) (items : List (List UInt8)) : SliceReply :=
  .answered (.count n items.flatten) (.count n items.flatten)

/-- A step that is not positive. -/
def Refuses : SliceOp → Prop
  | .insert _ _ _ => False
  | .get src | .set src _ | .del src => stepOf src ≤ 0

/-- Lists of items in Python. -/
inductive PyStep (xs : List (List UInt8)) : SliceOp → SliceReply → List (List UInt8) → Prop where
  | refused {op : SliceOp} : Refuses op → PyStep xs op (.refused errInvalidArgument) xs
  | insert {i : Nat} {items : List (List UInt8)} {grown : Nat → UInt8} :
      PyStep xs (.insert i items grown) (.answered .inserted .inserted)
        (xs.take i ++ items ++ xs.drop i)
  | get {src : UserStride} : 0 < stepOf src →
      PyStep xs (.get src) (counted ((sliceOf src).get xs).length ((sliceOf src).get xs)) xs
  | set {src : UserStride} {items : List (List UInt8)} : 0 < stepOf src →
      PyStep xs (.set src items) (counted items.length []) ((sliceOf src).set xs items)
  | del {src : UserStride} : 0 < stepOf src →
      PyStep xs (.del src) (counted ((sliceOf src).get xs).length ((sliceOf src).get xs))
        ((sliceOf src).del xs)

/-- Both arrays hold the items, one behind the other. -/
structure Holds (size : Nat) (st : BlockArray A × ExtArray) (items : List (List UInt8)) : Prop where
  uniform : Uniform size items
  related : Related st items.flatten

section Items

variable {s : Slice} {xs items : List (List UInt8)}

/-- The stride that a slice of `n` items resolves to. -/
def strideOf (s : Slice) (n : Nat) : Stride := ⟨s.lower n, s.step, s.count n⟩

theorem picked_items (n : Nat) (hstep : 0 < s.step) {k p : Nat} (hlow : k * size ≤ p)
    (hhigh : p < (k + 1) * size) :
    ((strideOf s n).selection size).Picked p ↔ k ∈ s.indices n :=
  (Selection.picked_iff hlow hhigh).trans (Slice.index_iff hstep)

theorem selected_items (uniform : Uniform size xs) (hstep : 0 < s.step) :
    selected (strideOf s xs.length) size xs.flatten = (s.get xs).flatten := by
  have hcells := select_flatten (o := 0) uniform fun k p => picked_items xs.length hstep
  rwa [Nat.zero_mul] at hcells

theorem remaining_items (uniform : Uniform size xs) (hstep : 0 < s.step) :
    remaining (strideOf s xs.length) size xs.flatten = (s.del xs).flatten := by
  have hcells := select_flatten (o := 0) uniform fun k p hlow hhigh =>
    not_congr (picked_items xs.length hstep hlow hhigh)
  rwa [Nat.zero_mul] at hcells

theorem overwritten_items (uniform : Uniform size xs) (huniform : Uniform size items)
    (hstep : 0 < s.step) (hlength : items.length = (s.indices xs.length).length) :
    overwritten (strideOf s xs.length) size (fun p => items.flatten.getD p 0) xs.flatten =
      (s.set xs items).flatten := by
  have hcells := overlay_flatten (o := 0)
    (f := fun p => items.flatten.getD (((strideOf s xs.length).selection size).rank p) 0)
    (g := fun k => items.getD ((s.indices xs.length).idxOf k) default) uniform
    (fun k p => picked_items xs.length hstep) fun k hk => by
      obtain ⟨j, hj, rfl⟩ := (Slice.mem_indices hstep).mp hk
      obtain ⟨hitem, hget⟩ := Slice.getD_idxOf hstep hlength hj
      rw [hget, ← huniform.load_item hitem 0]
      exact Selection.load_rank ((strideOf s xs.length).selection size) j
        (fun p => items.flatten.getD p 0) hstep
  rwa [Nat.zero_mul] at hcells

/-- Every selected item lies inside. -/
theorem elements_items (uniform : Uniform size xs) (hstep : 0 < s.step) :
    elements (strideOf s xs.length) size xs.flatten = s.count xs.length := by
  rw [elements, uniform.length_flatten]
  refine Selection.count_eq le_rfl (fun j hj => ?_) fun h => absurd h (Nat.lt_irrefl _)
  have hlast := (Slice.lt_count_iff hstep).mp hj
  have hupper := s.upper_le xs.length
  have hwhole : (s.lower xs.length + j * s.step + 1) * size ≤ xs.length * size :=
    Nat.mul_le_mul_right size (by omega)
  rwa [Nat.succ_mul] at hwhole

theorem inRange_items (hsize : 0 < size) (hstep : 0 < s.step) {n : Nat} (hsome : s.indices n ≠ [])
    (hsmall : (n + s.step) * size < 2 ^ 32) : InRange (strideOf s n) size (n * size) := by
  refine ⟨⟨hsize, hstep, ?_, ?_⟩, Nat.dvd_mul_left size n⟩
  · show 0 < s.count n
    rw [← Slice.length_indices hstep]
    exact List.length_pos_iff.mpr hsome
  · exact lt_of_le_of_lt (Nat.mul_le_mul_right size (Slice.end_le hstep hsome)) hsmall

end Items

section Steps

variable {st st' : BlockArray A × ExtArray} {xs items : List (List UInt8)} {src : UserStride}

theorem Holds.length (holds : Holds size st xs) (hsize : 0 < size) :
    extArrayGetLen st.2 / size = xs.length := by
  have hlen : extArrayGetLen st.2 = xs.length * size := by
    rw [← holds.uniform.length_flatten, holds.related.2.length]
    rfl
  rw [hlen, Nat.mul_div_cancel _ hsize]

/-- A slice with a positive step resolves, and both arrays answer the access. -/
theorem Holds.resolved (holds : Holds size st xs) (room : A.Fits) (hsize : 0 < size)
    (hstep : 0 < stepOf src) (fits : Fits size xs.length src) (access : Stride → Op)
    (hpermits : ∀ str, InRange str size xs.flatten.length →
      Permitted xs.flatten.length (access str)) :
    ∃ st', SlicedArrays.resolved A size st src access =
        .ok (.answered (apply xs.flatten (access (strideOf (sliceOf src) xs.length))).1
          (apply xs.flatten (access (strideOf (sliceOf src) xs.length))).1, st') ∧
      Related st' (apply xs.flatten (access (strideOf (sliceOf src) xs.length))).2 := by
  obtain ⟨hsome, hsmall⟩ := fits hstep
  have hpos : 0 < (sliceOf src).step := by
    rw [sliceOf_step]
    omega
  have hsum : xs.length + (stepOf src).toNat < 2 ^ 32 :=
    lt_of_le_of_lt (Nat.le_mul_of_pos_right _ hsize) hsmall
  have hresolve : strideResolve ⟨0, 0, 0⟩ src xs.length errorCreate =
      .ok (success, strideOf (sliceOf src) xs.length, errorCreate) := by
    have harr : xs.length ≤ 2 ^ 62 := by omega
    rw [strideResolve_eq (by omega) hstep (sumFits_of_small harr (by omega)), u32_of_lt (by omega)]
    rfl
  have hrange := inRange_items hsize hpos hsome hsmall
  rw [← holds.uniform.length_flatten] at hrange
  have hpre : (both A).pre st (access (strideOf (sliceOf src) xs.length)) :=
    (congrArg (fun len => Permitted len (access (strideOf (sliceOf src) xs.length)))
      holds.related.2.length).mp (hpermits _ hrange)
  obtain ⟨reply, st', ys, hrun, hanswer, related⟩ := both_simulates room _ _ _ holds.related hpre
  cases hanswer
  refine ⟨st', ?_, related⟩
  rw [SlicedArrays.resolved, holds.length hsize, hresolve, ok_bind]
  dsimp only
  rw [if_neg (fun h => h rfl), hrun, ok_bind]

theorem Holds.refuses (hstep : ¬ 0 < stepOf src) (access : Stride → Op) :
    SlicedArrays.resolved A size st src access = .ok (.refused errInvalidArgument, st) := by
  have hresolve : ∃ e', strideResolve ⟨0, 0, 0⟩ src (extArrayGetLen st.2 / size) errorCreate =
      .ok (errInvalidArgument, ⟨0, 0, 0⟩, e') := ⟨_, if_pos (Int.not_lt.mp hstep)⟩
  obtain ⟨e', hresolve⟩ := hresolve
  rw [SlicedArrays.resolved, hresolve, ok_bind]
  rfl

/-- An insertion of items puts them between two of those there are. -/
theorem Holds.inserts (holds : Holds size st xs) (room : A.Fits) (hsize : 0 < size) {i : Nat}
    {grown : Nat → UInt8} (usable : Usable size xs.length (.insert i items grown)) :
    ∃ st', sliceStep A size st (.insert i items grown) = .ok (.answered .inserted .inserted, st') ∧
      Holds size st' (xs.take i ++ items ++ xs.drop i) := by
  obtain ⟨hi, hsome, huniform, hsmall⟩ := usable
  have hbytes : xs.flatten.length + items.flatten.length < 2 ^ 31 := by
    rwa [holds.uniform.length_flatten, huniform.length_flatten, ← Nat.add_mul]
  have hne : items.flatten ≠ [] := by
    intro hnil
    have hlength := huniform.length_flatten
    rw [hnil, List.length_nil] at hlength
    have := Nat.mul_pos (List.length_pos_iff.mpr hsome) hsize
    omega
  have hpre : (both A).pre st (.insert (i * size) items.flatten grown) := by
    refine ⟨?_, hne, ?_⟩
    · rw [← holds.related.2.length, holds.uniform.length_flatten]
      exact Nat.mul_le_mul_right size hi
    · rwa [← holds.related.2.length]
  obtain ⟨reply, st', ys, hrun, hanswer, related⟩ := both_simulates room _ _ _ holds.related hpre
  cases hanswer
  refine ⟨st', by rw [sliceStep, hrun, ok_bind]; rfl, ?_, ?_⟩
  · intro x hx
    rcases List.mem_append.mp hx with hx | hx
    · rcases List.mem_append.mp hx with hx | hx
      · exact holds.uniform x (List.mem_of_mem_take hx)
      · exact huniform x hx
    · exact holds.uniform x (List.mem_of_mem_drop hx)
  · rw [List.flatten_append, List.flatten_append, ← holds.uniform.take_flatten hi,
      ← holds.uniform.drop_flatten hi]
    exact related

/-- Each step on both arrays is the step of a list. -/
theorem sliced_simulation (room : A.Fits) (hsize : 0 < size) :
    Simulation (sliced A size) PyStep (Holds size) := by
  intro st xs op holds usable
  have hpre : Usable size xs.length op := by
    have usable : Usable size (extArrayGetLen st.2 / size) op := usable
    rwa [holds.length hsize] at usable
  cases op with
  | insert i items grown =>
    obtain ⟨st', hrun, holds'⟩ := holds.inserts room hsize hpre
    exact ⟨_, st', _, hrun, .insert, holds'⟩
  | get src =>
    by_cases hstep : 0 < stepOf src
    · obtain ⟨st', hrun, related⟩ :=
        holds.resolved room hsize hstep hpre (fun str => .read str size) fun _ h => h
      have hpos : 0 < (sliceOf src).step := Int.pos_iff_toNat_pos.mp hstep
      simp only [apply, elements_items holds.uniform hpos, selected_items holds.uniform hpos,
        ← Slice.length_get hpos] at hrun related
      exact ⟨_, st', xs, hrun, .get hstep, holds.uniform, related⟩
    · exact ⟨_, st, xs, Holds.refuses hstep fun str => .read str size,
        .refused (Int.not_lt.mp hstep), holds⟩
  | set src items =>
    obtain ⟨fits, huniform, hlength⟩ := hpre
    by_cases hstep : 0 < stepOf src
    · obtain ⟨st', hrun, related⟩ := holds.resolved room hsize hstep fits
        (fun str => .write str size fun p => items.flatten.getD p 0) fun _ h => h
      have hpos : 0 < (sliceOf src).step := Int.pos_iff_toNat_pos.mp hstep
      have hcount : (sliceOf src).count xs.length = items.length := by
        rw [hlength hstep, Slice.length_indices hpos]
      simp only [apply, elements_items holds.uniform hpos, hcount,
        overwritten_items holds.uniform huniform hpos (hlength hstep)] at hrun related
      exact ⟨_, st', _, hrun, .set hstep,
        Slice.uniform_set hpos holds.uniform huniform (hlength hstep), related⟩
    · exact ⟨_, st, xs, Holds.refuses hstep
        fun str => .write str size fun p => items.flatten.getD p 0,
        .refused (Int.not_lt.mp hstep), holds⟩
  | del src =>
    by_cases hstep : 0 < stepOf src
    · obtain ⟨st', hrun, related⟩ :=
        holds.resolved room hsize hstep hpre (fun str => .remove str size true) fun _ h => h
      have hpos : 0 < (sliceOf src).step := Int.pos_iff_toNat_pos.mp hstep
      simp only [apply, elements_items holds.uniform hpos, selected_items holds.uniform hpos,
        remaining_items holds.uniform hpos, ← Slice.length_get hpos, if_true] at hrun related
      exact ⟨_, st', _, hrun, .del hstep, holds.uniform.select, related⟩
    · exact ⟨_, st, xs, Holds.refuses hstep fun str => .remove str size true,
        .refused (Int.not_lt.mp hstep), holds⟩

end Steps

/-- Over whole runs both arrays are a list of items with the slices of Python: equal replies, the
bytes of the items, and no access that the caller may make fails. The slabs have room for their
blocks, and `malloc` succeeds. -/
theorem slices_like_python {slabs : Nat → SlabAllocator.Slab} {words : Nat → Option Nat}
    {malloc : SlabAlloc → SlabAllocator.Block} {fresh : ∀ a, Granted a (some (malloc a))}
    {tail : Nat → UInt8} {blocks : Nat → BlockArrays.Block} {cap : Nat}
    {b₀ : BlockArray (blocksOf (slabBlocks slabs words malloc fresh) cap)}
    {st : BlockArray (blocksOf (slabBlocks slabs words malloc fresh) cap) × ExtArray}
    {tr : List (SliceOp × SliceReply)} (hsize : 0 < size)
    (room : alignedSize (blockHeader + cap) * 512 + headerSize < 2 ^ 32)
    (init : blockArrayCreate (slabBlocks slabs words malloc fresh) tail blocks cap = .ok b₀)
    (run : Trace (sliced _ size) (b₀, extArrayCreate) tr st) :
    ∃ items, SpecTrace PyStep [] tr items ∧ Uniform size items ∧
      BlockArrays.contents st.1 = .ok items.flatten ∧ ExtArrays.contents st.2 = items.flatten ∧
      ∀ op, Usable size items.length op →
        ∃ reply st', sliceStep _ size st op = .ok (reply, st') := by
  have hfits := (create_fits_iff (cap_lt room) init).mpr room
  have holds₀ : Holds size (b₀, extArrayCreate) [] :=
    ⟨fun _ hx => absurd hx List.not_mem_nil, create_related init⟩
  obtain ⟨items, hspec, holds⟩ := (sliced_simulation hfits hsize).trace holds₀ run
  refine ⟨items, hspec, holds.uniform, contents_spec holds.related.1, holds.related.2.contents_eq,
    fun op usable => ?_⟩
  have hpre : (sliced _ size).pre st op := by
    show Usable size (extArrayGetLen st.2 / size) op
    rwa [holds.length hsize]
  exact (sliced_simulation hfits hsize).returns holds hpre

/-- `[-2:]`. -/
def lastTwo : UserStride := ⟨asI64 (-2), asI64 1, asI64 0, startPresent⟩

/-- Three items of two bytes in blocks of one byte, of which the last two are deleted. -/
theorem slices_like_python_last :
    ∃ (st : BlockArray EmptySelections.oneByteBlocks × ExtArray)
      (tr : List (SliceOp × SliceReply)),
      tr.map Prod.snd = [.answered .inserted .inserted, counted 2 [[3, 4], [5, 6]]] ∧
      ∃ items, SpecTrace PyStep [] tr items ∧ Uniform 2 items ∧
        BlockArrays.contents st.1 = .ok items.flatten ∧ ExtArrays.contents st.2 = items.flatten ∧
        ∀ op, Usable 2 items.length op →
          ∃ reply st', sliceStep EmptySelections.oneByteBlocks 2 st op = .ok (reply, st') := by
  have room : alignedSize (blockHeader + 1) * 512 + headerSize < 2 ^ 32 := by decide
  obtain ⟨b₀, init⟩ : ∃ b₀, EmptySelections.oneByteCreate = .ok b₀ :=
    create_returns _ _ _ _ _ Nat.one_pos room
  have hfits := (create_fits_iff (cap_lt room) init).mpr room
  have sim := sliced_simulation hfits (show 0 < 2 by decide)
  have holds₀ : Holds 2 (b₀, extArrayCreate) [] :=
    ⟨fun _ hx => absurd hx List.not_mem_nil, create_related init⟩
  have usable₁ : (sliced EmptySelections.oneByteBlocks 2).pre (b₀, extArrayCreate)
      (.insert 0 [[1, 2], [3, 4], [5, 6]] fun _ => 0) := by
    have hnone : extArrayGetLen extArrayCreate / 2 = 0 := holds₀.length (by decide)
    have usable : Usable 2 0 (.insert 0 [[1, 2], [3, 4], [5, 6]] fun _ => 0) :=
      ⟨le_rfl, by decide, by unfold Uniform; decide, by decide⟩
    rwa [← hnone] at usable
  obtain ⟨r₁, st₁, items₁, hrun₁, hspec₁, holds₁⟩ := sim _ _ _ holds₀ usable₁
  cases hspec₁ with
  | insert =>
    have usable₂ : (sliced EmptySelections.oneByteBlocks 2).pre st₁ (.del lastTwo) := by
      show Fits 2 (extArrayGetLen st₁.2 / 2) lastTwo
      rw [holds₁.length (by decide)]
      exact fun _ => by decide
    obtain ⟨r₂, st₂, items₂, hrun₂, hspec₂, holds₂⟩ := sim _ _ _ holds₁ usable₂
    cases hspec₂ with
    | refused hrefused => exact absurd hrefused (show ¬ stepOf lastTwo ≤ 0 by decide)
    | del hstep =>
      exact ⟨st₂, _, rfl, slices_like_python (by decide) room init
        (.cons usable₁ hrun₁ (.cons usable₂ hrun₂ (.nil _)))⟩
  | refused hrefused => exact hrefused.elim

end SlicedArrays
