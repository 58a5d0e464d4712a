import CSpecx.ByteSequence
import CSpecx.Errors
import CSpecx.Slices

/-!
# Resolving user strides

`stride_resolve` turns a Python slice into a `struct stride`. The bounds are
signed and the length of the array unsigned, so a negative bound is added to
the length in unsigned arithmetic and the sum is converted back. The sums in
the number of elements are signed, and an overflow is undefined.
-/

namespace StrideResolve

open CExec Errors ByteSequence Slices

/-- The values of a signed 64-bit integer. -/
abbrev I64 := { n : Int // -2 ^ 63 ≤ n ∧ n < 2 ^ 63 }

/-- Conversion to a signed 64-bit integer. -/
def asI64 (n : Int) : I64 where
  val := n.bmod (2 ^ 64)
  property := by
    constructor
    · simpa using Int.le_bmod (x := n) (show 0 < 2 ^ 64 by decide)
    · simpa using Int.bmod_lt (x := n) (show 0 < 2 ^ 64 by decide)

/-- Conversion to an unsigned 64-bit integer. -/
def asU64 (n : Int) : Nat := (n % 2 ^ 64).toNat

/-- The result of a signed 64-bit operation. -/
def signed (n : Int) : Outcome I64 :=
  if h : -2 ^ 63 ≤ n ∧ n < 2 ^ 63 then .ok ⟨n, h⟩ else .error .undefined

structure UserStride where
  start : I64
  step : I64
  stop : I64
  present : BitVec 32

def stopPresent : BitVec 32 := 1#32 <<< 0

def stepPresent : BitVec 32 := 1#32 <<< 1

def startPresent : BitVec 32 := 1#32 <<< 2

def colonPresent : BitVec 32 := 1#32 <<< 3

/-- `src.present & flag`. -/
def UserStride.Has (src : UserStride) (flag : BitVec 32) : Prop := src.present &&& flag ≠ 0

instance (src : UserStride) (flag : BitVec 32) : Decidable (src.Has flag) :=
  inferInstanceAs (Decidable (_ ≠ _))

/-- `(src.present & STEP_PRESENT) ? src.step : 1`. -/
def stepOf (src : UserStride) : Int := if src.Has stepPresent then src.step else 1

/-- A bound that is present: counted from the end when negative, then clamped. -/
def clampBound (bound : I64) (arrlen : Nat) : I64 :=
  let bound := if bound.val < 0 then asI64 (bound.val + arrlen) else bound
  let bound := if bound.val < 0 then asI64 0 else bound
  if (asI64 arrlen).val < bound.val then asI64 arrlen else bound

def startOf (src : UserStride) (arrlen : Nat) : I64 :=
  if src.Has startPresent then clampBound src.start arrlen else asI64 0

def stopOf (src : UserStride) (arrlen : Nat) : I64 :=
  if src.Has stopPresent then clampBound src.stop arrlen else asI64 arrlen

/-- `(stop - start + step - 1) / step`, or zero when `stop <= start`. -/
def elementsBetween (start stop : I64) (step : Int) : Outcome Nat :=
  if stop.val ≤ start.val then .ok 0
  else do
    let span ← signed (stop.val - start.val)
    let sum ← signed (span.val + step)
    let sum ← signed (sum.val - 1)
    .ok (asU64 (sum.val.tdiv step))

def strideResolveExpect (src : UserStride) (arrlen : Nat) : Outcome Stride := do
  let step := stepOf src
  assert (0 < step)
  if arrlen = 0 then .ok ⟨0, u32 step.toNat, 0⟩
  else do
    let start := startOf src arrlen
    let nelems ← elementsBetween start (stopOf src arrlen) step
    .ok ⟨asU64 start.val, u32 step.toNat, nelems⟩

/-- The returned code with `*dest` and the error object behind the call. -/
def strideResolve (dest : Stride) (src : UserStride) (arrlen : Nat) (e : ErrorObject) :
    Outcome (Int × Stride × ErrorObject) :=
  if stepOf src ≤ 0 then
    let (code, e) := errorCausef e errInvalidArgument ⟨"stride step must be positive", []⟩
    .ok (code, dest, e)
  else do
    let dest ← strideResolveExpect src arrlen
    .ok (success, dest, e)

def ustride012 (start step stop : I64) : UserStride :=
  ⟨start, step, stop, stopPresent ||| stepPresent ||| startPresent ||| colonPresent⟩

def usfrms (str : Stride) : UserStride :=
  ustride012 (asI64 str.start) (asI64 str.stride)
    (asI64 ((str.start + str.stride * str.nelems) % 2 ^ 64 : Nat))

/-! ## The slice that a user stride stands for -/

/-- `start:stop:step` with the parts that are present. -/
def sliceOf (src : UserStride) : Slice where
  start := if src.Has startPresent then some src.start.val else none
  stop := if src.Has stopPresent then some src.stop.val else none
  step := (stepOf src).toNat

/-- The positions of the elements. -/
def positions (str : Stride) : List Nat := progression str.start str.stride str.nelems

section Rules

variable {src : UserStride} {str dest : Stride} {arrlen : Nat} {n : Int} {e : ErrorObject}

theorem asI64_of_mem (hlow : -2 ^ 63 ≤ n) (hhigh : n < 2 ^ 63) : (asI64 n).val = n :=
  Int.bmod_eq_of_le (by omega) (by omega)

theorem asU64_natCast {k : Nat} (h : k < 2 ^ 64) : asU64 k = k := by
  unfold asU64
  omega

theorem signed_of_mem (h : -2 ^ 63 ≤ n ∧ n < 2 ^ 63) : signed n = .ok ⟨n, h⟩ := dif_pos h

theorem signed_overflow (h : ¬ (-2 ^ 63 ≤ n ∧ n < 2 ^ 63)) : signed n = .error .undefined :=
  dif_neg h

/-- The clamping is that of a slice. -/
theorem clampBound_eq (harr : arrlen < 2 ^ 63) (bound : I64) :
    (clampBound bound arrlen).val = position arrlen bound.val := by
  obtain ⟨i, hlow, hhigh⟩ := bound
  have hlen : (asI64 arrlen).val = arrlen := asI64_of_mem (by omega) (by omega)
  have hzero : (asI64 0).val = 0 := asI64_of_mem (by omega) (by omega)
  unfold clampBound position
  by_cases hneg : i < 0
  · have hsum : (asI64 (i + arrlen)).val = i + arrlen := asI64_of_mem (by omega) (by omega)
    simp only [hneg, if_true, hsum]
    by_cases hback : i + arrlen < 0
    · simp only [hback, if_true, hzero, hlen]
      rw [if_neg (by omega), hzero]
      omega
    · simp only [hback, if_false, hsum, hlen]
      rw [if_neg (by omega), hsum]
      omega
  · simp only [hneg, if_false, hlen]
    split
    · rw [hlen]
      omega
    · dsimp only
      omega

theorem startOf_eq (src : UserStride) (harr : arrlen < 2 ^ 63) :
    (startOf src arrlen).val = (sliceOf src).lower arrlen := by
  unfold startOf sliceOf Slice.lower
  by_cases hstart : src.Has startPresent
  · simp only [hstart, if_true, Option.elim_some]
    exact clampBound_eq harr src.start
  · simp only [hstart, if_false, Option.elim_none]
    exact asI64_of_mem (by omega) (by omega)

theorem stopOf_eq (src : UserStride) (harr : arrlen < 2 ^ 63) :
    (stopOf src arrlen).val = (sliceOf src).upper arrlen := by
  unfold stopOf sliceOf Slice.upper
  by_cases hstop : src.Has stopPresent
  · simp only [hstop, if_true, Option.elim_some]
    exact clampBound_eq harr src.stop
  · simp only [hstop, if_false, Option.elim_none]
    exact asI64_of_mem (by omega) (by omega)

@[simp] theorem sliceOf_step : (sliceOf src).step = (stepOf src).toNat := rfl

theorem stepOf_lt (src : UserStride) : stepOf src < 2 ^ 63 := by
  unfold stepOf
  split
  · exact src.step.property.2
  · decide

/-- No sum in the number of elements overflows. -/
def SumFits (src : UserStride) (arrlen : Nat) : Prop :=
  (sliceOf src).upper arrlen ≤ (sliceOf src).lower arrlen ∨
    ((sliceOf src).upper arrlen - (sliceOf src).lower arrlen : Int) + stepOf src < 2 ^ 63

theorem sumFits_of_small (harr : arrlen ≤ 2 ^ 62) (hstep : stepOf src < 2 ^ 32) :
    SumFits src arrlen := by
  have hupper := (sliceOf src).upper_le arrlen
  right
  omega

theorem elementsBetween_eq (harr : arrlen < 2 ^ 63) (hstep : 0 < stepOf src)
    (fits : SumFits src arrlen) :
    elementsBetween (startOf src arrlen) (stopOf src arrlen) (stepOf src) =
      .ok ((sliceOf src).count arrlen) := by
  have hupper := (sliceOf src).upper_le arrlen
  have hlarge := stepOf_lt src
  obtain ⟨step, hs⟩ : ∃ step : Nat, stepOf src = step := Int.eq_ofNat_of_zero_le (by omega)
  have hpos : 0 < (sliceOf src).step := by
    rw [sliceOf_step]
    omega
  unfold elementsBetween
  rw [startOf_eq src harr, stopOf_eq src harr]
  split
  · next hempty =>
    rw [Slice.count_eq_zero (by omega) hpos]
  · next hmore =>
    have hsum := fits.resolve_left (by omega)
    rw [signed_of_mem (by omega), ok_bind, signed_of_mem (by dsimp only; omega), ok_bind,
      signed_of_mem (by dsimp only; omega), ok_bind]
    dsimp only
    have hnat : ((sliceOf src).upper arrlen - (sliceOf src).lower arrlen + stepOf src - 1 : Int) =
        ((sliceOf src).upper arrlen - (sliceOf src).lower arrlen + step - 1 : Nat) := by omega
    have hcount : (sliceOf src).count arrlen =
        ((sliceOf src).upper arrlen - (sliceOf src).lower arrlen + step - 1) / step := by
      rw [Slice.count, sliceOf_step, hs, Int.toNat_natCast]
    have hle := Nat.div_le_self
      ((sliceOf src).upper arrlen - (sliceOf src).lower arrlen + step - 1) step
    rw [hnat, hs, ← Int.ofNat_tdiv, ← hcount, asU64_natCast (by omega)]

theorem elementsBetween_overflow (harr : arrlen < 2 ^ 63) (overflow : ¬ SumFits src arrlen) :
    elementsBetween (startOf src arrlen) (stopOf src arrlen) (stepOf src) = .error .undefined := by
  have hupper := (sliceOf src).upper_le arrlen
  obtain ⟨hmore, hsum⟩ := not_or.mp overflow
  unfold elementsBetween
  rw [startOf_eq src harr, stopOf_eq src harr, if_neg (by omega), signed_of_mem (by omega), ok_bind,
    signed_overflow (by dsimp only; omega), error_bind]

/-- The resolved stride, when no sum overflows. -/
theorem strideResolve_eq (harr : arrlen < 2 ^ 63) (hstep : 0 < stepOf src)
    (fits : SumFits src arrlen) :
    strideResolve dest src arrlen e =
      .ok (success, ⟨(sliceOf src).lower arrlen, u32 (stepOf src).toNat,
        (sliceOf src).count arrlen⟩, e) := by
  have hpos : 0 < (sliceOf src).step := by
    rw [sliceOf_step]
    omega
  have hlower := (sliceOf src).lower_le arrlen
  have hupper := (sliceOf src).upper_le arrlen
  unfold strideResolve strideResolveExpect
  dsimp only
  rw [if_neg (by omega), assert_pos hstep, ok_bind]
  by_cases hempty : arrlen = 0
  · rw [if_pos hempty, ok_bind, Slice.count_eq_zero (by omega) hpos,
      show (sliceOf src).lower arrlen = 0 by omega]
  · rw [if_neg hempty, elementsBetween_eq harr hstep fits, ok_bind, ok_bind, startOf_eq src harr,
      asU64_natCast (by omega)]

theorem strideResolve_overflow (harr : arrlen < 2 ^ 63) (hstep : 0 < stepOf src)
    (overflow : ¬ SumFits src arrlen) :
    strideResolve dest src arrlen e = .error .undefined := by
  have hupper := (sliceOf src).upper_le arrlen
  have hmore : arrlen ≠ 0 := by
    rintro rfl
    exact overflow (.inl (by omega))
  unfold strideResolve strideResolveExpect
  dsimp only
  rw [if_neg (by omega), assert_pos hstep, ok_bind, if_neg hmore,
    elementsBetween_overflow harr overflow, error_bind, error_bind]

end Rules

/-! ## Resolving a slice -/

section Resolving

variable {src : UserStride} {arrlen : Nat}

/-- On arrays of at most 2 ^ 62 elements the positions of the resolved stride are
those of the slice, and a step that is not positive is refused. -/
theorem stride_resolve_slices (harr : arrlen ≤ 2 ^ 62) (src : UserStride) (dest : Stride)
    (e : ErrorObject) :
    (0 < stepOf src → stepOf src < 2 ^ 32 →
      ∃ str, strideResolve dest src arrlen e = .ok (success, str, e) ∧
        positions str = (sliceOf src).indices arrlen ∧ str.start ≤ arrlen ∧
        ∀ p ∈ positions str, p < arrlen) ∧
    (stepOf src ≤ 0 →
      ∃ e', strideResolve dest src arrlen e = .ok (errInvalidArgument, dest, e')) := by
  constructor
  · intro hstep hsmall
    have hpos : 0 < (sliceOf src).step := by
      rw [sliceOf_step]
      omega
    have hpositions : positions ⟨(sliceOf src).lower arrlen, u32 (stepOf src).toNat,
        (sliceOf src).count arrlen⟩ = (sliceOf src).indices arrlen := by
      rw [Slice.indices_eq hpos, positions, u32_of_lt (by omega), sliceOf_step]
    refine ⟨_, strideResolve_eq (by omega) hstep (sumFits_of_small harr hsmall), hpositions,
      (sliceOf src).lower_le arrlen, fun p hp => ?_⟩
    rw [hpositions] at hp
    exact List.mem_range.mp (List.mem_filter.mp hp).1
  · intro hstep
    exact ⟨_, if_pos hstep⟩

/-- `[-7::3]`. -/
def fromMinusSeven : UserStride := ⟨asI64 (-7), asI64 3, asI64 0, startPresent ||| stepPresent⟩

theorem from_minus_seven_resolves :
    ∃ str, strideResolve ⟨0, 0, 0⟩ fromMinusSeven 10 errorCreate = .ok (success, str, errorCreate) ∧
      positions str = [3, 6, 9] := by
  obtain ⟨str, hrun, hpositions, -, -⟩ :=
    (stride_resolve_slices (show 10 ≤ 2 ^ 62 by decide) fromMinusSeven ⟨0, 0, 0⟩ errorCreate).1
      (by decide) (by decide)
  exact ⟨str, hrun, hpositions.trans (by decide)⟩

/-- The resolved stride is the step, and no sum overflows. -/
def StepExact (src : UserStride) (arrlen : Nat) (out : Outcome (Int × Stride × ErrorObject)) :
    Prop :=
  ∃ str e, out = .ok (success, str, e) ∧ (str.stride : Int) = stepOf src ∧
    str.nelems = ((sliceOf src).indices arrlen).length ∧
    (1 ≤ str.nelems → str.start + (str.nelems - 1) * str.stride < arrlen)

theorem step_exact_iff (harr : arrlen < 2 ^ 63) (hstep : 0 < stepOf src) (dest : Stride)
    (e : ErrorObject) :
    StepExact src arrlen (strideResolve dest src arrlen e) ↔
      stepOf src < 2 ^ 32 ∧ SumFits src arrlen := by
  have hpos : 0 < (sliceOf src).step := by
    rw [sliceOf_step]
    omega
  constructor
  · rintro ⟨str, e', hrun, hstride, -, -⟩
    by_cases fits : SumFits src arrlen
    · rw [strideResolve_eq harr hstep fits] at hrun
      obtain ⟨-, rfl, -⟩ := ok_triple_inj hrun
      have hlt := u32_lt (stepOf src).toNat
      exact ⟨by dsimp only at hstride; omega, fits⟩
    · rw [strideResolve_overflow harr hstep fits] at hrun
      cases hrun
  · rintro ⟨hsmall, fits⟩
    have hnarrow : u32 (stepOf src).toNat = (sliceOf src).step := by
      rw [u32_of_lt (by omega), sliceOf_step]
    refine ⟨_, e, strideResolve_eq harr hstep fits, ?_, ?_, fun hmore => ?_⟩
    · dsimp only
      rw [hnarrow, sliceOf_step]
      omega
    · exact (Slice.length_indices hpos).symm
    · dsimp only at hmore ⊢
      rw [hnarrow]
      have hlast := (Slice.lt_count_iff (n := arrlen) (k := (sliceOf src).count arrlen - 1)
        hpos).mp (by omega)
      exact lt_of_lt_of_le hlast ((sliceOf src).upper_le arrlen)

/-- `[2::4]`. -/
def fromTwo : UserStride := ⟨asI64 2, asI64 4, asI64 0, startPresent ||| stepPresent⟩

theorem from_two_exact :
    StepExact fromTwo 10 (strideResolve ⟨0, 0, 0⟩ fromTwo 10 errorCreate) :=
  (step_exact_iff (show 10 < 2 ^ 63 by decide) (by decide) _ _).mpr
    ⟨by decide, .inr (by decide)⟩

/-- `[::2 ** 32]`. -/
def wideStep : UserStride := ⟨asI64 0, asI64 (2 ^ 32), asI64 0, stepPresent⟩

/-- `[:]`. -/
def wholeArray : UserStride := ⟨asI64 0, asI64 0, asI64 0, 0⟩

/-- A step of 2 ^ 32 becomes a stride of zero, and all of an array of 2 ^ 63 - 1
elements overflows the sum. -/
theorem wide_steps_inexact :
    strideResolve ⟨0, 0, 0⟩ wideStep 10 errorCreate = .ok (success, ⟨0, 0, 1⟩, errorCreate) ∧
      ¬ StepExact wideStep 10 (strideResolve ⟨0, 0, 0⟩ wideStep 10 errorCreate) ∧
      strideResolve ⟨0, 0, 0⟩ wholeArray (2 ^ 63 - 1) errorCreate = .error .undefined ∧
      ¬ StepExact wholeArray (2 ^ 63 - 1)
        (strideResolve ⟨0, 0, 0⟩ wholeArray (2 ^ 63 - 1) errorCreate) := by
  have hwide : strideResolve ⟨0, 0, 0⟩ wideStep 10 errorCreate =
      .ok (success, ⟨0, 0, 1⟩, errorCreate) := rfl
  have hwhole : strideResolve ⟨0, 0, 0⟩ wholeArray (2 ^ 63 - 1) errorCreate =
      .error .undefined := rfl
  refine ⟨hwide, ?_, hwhole, ?_⟩
  · rintro ⟨str, e, hrun, hstride, -, -⟩
    rw [hwide] at hrun
    obtain ⟨-, rfl, -⟩ := ok_triple_inj hrun
    exact absurd hstride (by decide)
  · rintro ⟨str, e, hrun, -, -, -⟩
    rw [hwhole] at hrun
    cases hrun

/-! ## Strides as user strides -/

theorem sliceOf_ustride012 (start step stop : I64) :
    sliceOf (ustride012 start step stop) = ⟨some start.val, some stop.val, step.val.toNat⟩ := by
  have hstart : (ustride012 start step stop).Has startPresent := by
    show (stopPresent ||| stepPresent ||| startPresent ||| colonPresent) &&& startPresent ≠ 0
    decide
  have hstep : (ustride012 start step stop).Has stepPresent := by
    show (stopPresent ||| stepPresent ||| startPresent ||| colonPresent) &&& stepPresent ≠ 0
    decide
  have hstop : (ustride012 start step stop).Has stopPresent := by
    show (stopPresent ||| stepPresent ||| startPresent ||| colonPresent) &&& stopPresent ≠ 0
    decide
  rw [sliceOf, stepOf, if_pos hstart, if_pos hstep, if_pos hstop]
  rfl

/-- Clamping the exclusive stop of a progression inside the array loses none of it. -/
theorem count_clamped {start stride nelems : Nat} (hstride : 1 ≤ stride)
    (inside : nelems = 0 ∨ start + (nelems - 1) * stride < arrlen) (hstart : start ≤ arrlen) :
    Slice.count ⟨some (start : Int), some ((start + stride * nelems : Nat) : Int), stride⟩ arrlen =
      nelems := by
  have hlower : position arrlen start = start := by
    rw [position, if_neg (by omega), Int.toNat_natCast]
    omega
  have hupper : position arrlen (start + stride * nelems : Nat) =
      min (start + stride * nelems) arrlen := by
    rw [position, if_neg (by omega), Int.toNat_natCast]
  have hiff : ∀ k, k < Slice.count
      ⟨some (start : Int), some ((start + stride * nelems : Nat) : Int),
      stride⟩ arrlen ↔ _ := fun k => Slice.lt_count_iff (show 0 < stride from hstride)
  refine eq_of_forall_lt_iff fun k => (hiff k).trans ?_
  show position arrlen start + k * stride < position arrlen (start + stride * nelems : Nat) ↔ _
  rw [hlower, hupper, Nat.mul_comm stride]
  constructor
  · intro hlt
    exact Nat.lt_of_mul_lt_mul_right (show k * stride < nelems * stride by omega)
  · intro hk
    have hmul : k * stride < nelems * stride := (Nat.mul_lt_mul_right hstride).mpr hk
    have hlast : k * stride ≤ (nelems - 1) * stride := Nat.mul_le_mul_right stride (by omega)
    have hend := inside.resolve_left (by omega)
    omega

/-- Resolving the user stride of a stride inside the array gives the stride back. -/
theorem stride_resolve_usfrms (harr : arrlen ≤ 2 ^ 62) {str : Stride} (hstride : 1 ≤ str.stride)
    (hsmall : str.stride < 2 ^ 32) (hstart : str.start ≤ arrlen)
    (inside : str.nelems = 0 ∨ str.start + (str.nelems - 1) * str.stride < arrlen)
    (dest : Stride) (e : ErrorObject) :
    strideResolve dest (usfrms str) arrlen e = .ok (success, str, e) := by
  obtain ⟨start, stride, nelems⟩ := str
  dsimp only at hstride hsmall hstart inside
  have hbound : start + stride * nelems ≤ arrlen + stride := by
    rcases inside with rfl | hlast
    · omega
    · have hmul : nelems * stride ≤ (nelems - 1) * stride + stride := by
        rw [← Nat.succ_mul]
        exact Nat.mul_le_mul_right stride (by omega)
      rw [Nat.mul_comm]
      omega
  have hsum : (start + stride * nelems) % 2 ^ 64 = start + stride * nelems :=
    Nat.mod_eq_of_lt (by omega)
  have hfirst : (asI64 start).val = start := asI64_of_mem (by omega) (by omega)
  have hstep : (asI64 stride).val = stride := asI64_of_mem (by omega) (by omega)
  have hstop : (asI64 (start + stride * nelems : Nat)).val = (start + stride * nelems : Nat) :=
    asI64_of_mem (by omega) (by omega)
  have hslice : sliceOf (usfrms ⟨start, stride, nelems⟩) =
      ⟨some (start : Int), some ((start + stride * nelems : Nat) : Int), stride⟩ := by
    rw [usfrms, sliceOf_ustride012, hsum, hfirst, hstop, hstep, Int.toNat_natCast]
  have hstepOf : stepOf (usfrms ⟨start, stride, nelems⟩) = stride := by
    have hnat : (sliceOf (usfrms ⟨start, stride, nelems⟩)).step =
        (stepOf (usfrms ⟨start, stride, nelems⟩)).toNat := rfl
    rw [hslice] at hnat
    dsimp only at hnat
    omega
  have hlower : (sliceOf (usfrms ⟨start, stride, nelems⟩)).lower arrlen = start := by
    rw [hslice]
    show position arrlen start = start
    rw [position, if_neg (by omega), Int.toNat_natCast]
    omega
  rw [strideResolve_eq (by omega) (by omega) (sumFits_of_small harr (by omega)), hlower, hslice,
    count_clamped hstride inside hstart, hstepOf, Int.toNat_natCast, u32_of_lt hsmall]

theorem last_position_kept :
    strideResolve ⟨0, 0, 0⟩ (usfrms ⟨2, 3, 3⟩) 9 errorCreate =
      .ok (success, ⟨2, 3, 3⟩, errorCreate) :=
  stride_resolve_usfrms (by decide) (by decide) (by decide) (by decide) (.inr (by decide)) _ _

end Resolving

end StrideResolve
