import Mathlib.Logic.Function.Iterate
import Mathlib.Tactic.Common

/-!
# Cyclic redundancy checks

A reflected register of any width takes in one bit at a time, the lowest first.
The step is linear in exclusive or, and with the top bit of the polynomial set
it loses nothing. So a run over no more bits than the register has is a run over
zeros from the register with the bits packed into it.
-/

namespace CyclicChecks

universe u

variable {w : Nat} (poly : BitVec w)

/-- What a bit that falls out does to the register. -/
def feedback (bit : Bool) : BitVec w := if bit then poly else 0#w

/-- One step of the register. -/
def step (c : BitVec w) : BitVec w := (c >>> 1) ^^^ feedback poly (c.getLsbD 0)

/-- A single bit at the lowest place. -/
def lowBit (bit : Bool) : BitVec w := if bit then 1#w else 0#w

def feed (c : BitVec w) (bit : Bool) : BitVec w := step poly (c ^^^ lowBit bit)

/-- The register behind a string of bits. -/
def run (c : BitVec w) (bits : List Bool) : BitVec w := bits.foldl (feed poly) c

/-- The bits from the lowest place on. -/
def pack : List Bool → BitVec w
  | [] => 0#w
  | bit :: bits => lowBit bit ^^^ (pack bits <<< 1)

section Step

variable {poly} {a b c : BitVec w}

theorem feedback_xor (x y : Bool) :
    feedback poly (x ^^ y) = feedback poly x ^^^ feedback poly y := by
  cases x <;> cases y <;> simp [feedback]

theorem step_xor (a b : BitVec w) : step poly (a ^^^ b) = step poly a ^^^ step poly b := by
  rw [step, step, step, BitVec.ushiftRight_xor_distrib, BitVec.getLsbD_xor, feedback_xor]
  ac_rfl

theorem step_of_clear (hlow : c.getLsbD 0 = false) : step poly c = c >>> 1 := by
  rw [step, hlow]
  exact BitVec.xor_zero

/-- A step that ends in zero started there. -/
theorem step_eq_zero (htop : poly.getLsbD (w - 1) = true) (h : step poly c = 0#w) : c = 0#w := by
  have hbit : ∀ i, (step poly c).getLsbD i = false := by
    intro i
    rw [h, BitVec.getLsbD_zero]
  have hlow : c.getLsbD 0 = false := by
    by_contra hset
    rw [Bool.not_eq_false] at hset
    have hlast := hbit (w - 1)
    have hout : c.getLsbD (1 + (w - 1)) = false := BitVec.getLsbD_of_ge _ _ (by omega)
    rw [step, hset, feedback, if_pos rfl, BitVec.getLsbD_xor, BitVec.getLsbD_ushiftRight, hout,
      htop] at hlast
    exact absurd hlast (by decide)
  refine BitVec.eq_of_getLsbD_eq fun i hi => ?_
  rw [BitVec.getLsbD_zero]
  cases i with
  | zero => exact hlow
  | succ i =>
    have hnext := hbit i
    rw [step_of_clear hlow, BitVec.getLsbD_ushiftRight, Nat.add_comm] at hnext
    exact hnext

theorem step_injective (htop : poly.getLsbD (w - 1) = true) : Function.Injective (step poly) := by
  intro a b h
  have hzero : step poly (a ^^^ b) = 0#w := by rw [step_xor, h, BitVec.xor_self]
  exact BitVec.xor_eq_zero_iff.mp (step_eq_zero htop hzero)

theorem iterate_step_xor (k : Nat) (a b : BitVec w) :
    (step poly)^[k] (a ^^^ b) = (step poly)^[k] a ^^^ (step poly)^[k] b := by
  induction k generalizing a b with
  | zero => rfl
  | succ k ih =>
    rw [Function.iterate_succ_apply, Function.iterate_succ_apply, Function.iterate_succ_apply,
      step_xor, ih]

/-- Steps that meet no bit only shift. -/
theorem iterate_step_shift (k : Nat) (hclear : ∀ i < k, c.getLsbD i = false) :
    (step poly)^[k] c = c >>> k := by
  induction k generalizing c with
  | zero => rfl
  | succ k ih =>
    rw [Function.iterate_succ_apply, step_of_clear (hclear 0 k.succ_pos), ih,
      ← BitVec.shiftRight_add, Nat.add_comm]
    intro i hi
    rw [BitVec.getLsbD_ushiftRight]
    exact hclear (1 + i) (by omega)

/-- The bits that a run of steps meets can be looked up, the others shift down. -/
theorem iterate_step_split (poly : BitVec w) (k : Nat) (low : BitVec w)
    (hlow : ∀ i, low.getLsbD i = (decide (i < k) && c.getLsbD i)) :
    (step poly)^[k] c = (c >>> k) ^^^ (step poly)^[k] low := by
  have hhigh : (step poly)^[k] (c ^^^ low) = (c ^^^ low) >>> k := by
    refine iterate_step_shift k fun i hi => ?_
    rw [BitVec.getLsbD_xor, hlow, decide_eq_true hi, Bool.true_and, Bool.xor_self]
  have hshift : (c ^^^ low) >>> k = c >>> k := by
    refine BitVec.eq_of_getLsbD_eq fun i hi => ?_
    have hout : ¬ k + i < k := by omega
    rw [BitVec.getLsbD_ushiftRight, BitVec.getLsbD_xor, hlow, BitVec.getLsbD_ushiftRight,
      decide_eq_false hout, Bool.false_and, Bool.xor_false]
  calc (step poly)^[k] c = (step poly)^[k] ((c ^^^ low) ^^^ low) := by
        rw [BitVec.xor_assoc, BitVec.xor_self, BitVec.xor_zero]
    _ = (c >>> k) ^^^ (step poly)^[k] low := by rw [iterate_step_xor, hhigh, hshift]

end Step

section Runs

variable {poly}

theorem getLsbD_lowBit (bit : Bool) (i : Nat) :
    (lowBit bit : BitVec w).getLsbD i = (decide (i < w) && decide (i = 0) && bit) := by
  cases bit
  · simp [lowBit]
  · by_cases hi : i = 0
    · simp [lowBit, BitVec.getLsbD_one, hi]
    · simp [lowBit, BitVec.getLsbD_one, hi]

/-- The packed bits are the bits of the string. -/
theorem getLsbD_pack (bits : List Bool) (i : Nat) :
    (pack bits : BitVec w).getLsbD i = (decide (i < w) && bits[i]?.getD false) := by
  induction bits generalizing i with
  | nil => simp [pack]
  | cons bit bits ih =>
    rw [pack, BitVec.getLsbD_xor, getLsbD_lowBit, BitVec.getLsbD_shiftLeft, ih]
    cases i with
    | zero => simp
    | succ i =>
      by_cases hi : i + 1 < w
      · have hlt : i < w := by omega
        simp [hi, hlt]
      · simp [hi]

theorem pack_injective {bits bits' : List Bool} (hlength : bits.length = bits'.length)
    (hle : bits.length ≤ w) (h : (pack bits : BitVec w) = pack bits') : bits = bits' := by
  refine List.ext_getElem hlength fun i hi hi' => ?_
  have hbit := getLsbD_pack (w := w) bits i
  rw [h, getLsbD_pack, decide_eq_true (by omega), Bool.true_and, Bool.true_and,
    List.getElem?_eq_getElem hi, List.getElem?_eq_getElem hi'] at hbit
  exact hbit.symm

/-- Taking the bits in is stepping from the register with the bits packed into it. -/
theorem run_eq_iterate (c : BitVec w) (bits : List Bool) (hle : bits.length ≤ w) :
    run poly c bits = (step poly)^[bits.length] (c ^^^ pack bits) := by
  induction bits generalizing c with
  | nil => rw [run, pack, BitVec.xor_zero]; rfl
  | cons bit bits ih =>
    rw [List.length_cons] at hle
    have hrest : step poly (pack bits <<< 1) = pack bits := by
      have hclear : ((pack bits : BitVec w) <<< 1).getLsbD 0 = false := by
        rw [BitVec.getLsbD_shiftLeft]
        simp
      rw [step_of_clear hclear]
      refine BitVec.eq_of_getLsbD_eq fun i hi => ?_
      rw [BitVec.getLsbD_ushiftRight, BitVec.getLsbD_shiftLeft,
        Nat.add_sub_cancel_left, getLsbD_pack]
      by_cases hlast : 1 + i < w
      · simp [hlast]
      · have hout : bits[i]? = none := List.getElem?_eq_none (by omega)
        simp [hlast, hout]
    have hstep := ih (feed poly c bit) (by omega)
    rw [run] at hstep
    rw [run, List.foldl_cons, hstep, List.length_cons, Function.iterate_succ_apply, pack,
      ← BitVec.xor_assoc, step_xor, hrest]
    rfl

theorem run_append (c : BitVec w) (bits bits' : List Bool) :
    run poly c (bits ++ bits') = run poly (run poly c bits) bits' := List.foldl_append

theorem run_injective (htop : poly.getLsbD (w - 1) = true) (bits : List Bool) :
    Function.Injective fun c => run poly c bits := by
  induction bits with
  | nil => exact fun _ _ h => h
  | cons bit bits ih =>
    intro a b h
    have hfeed : feed poly a bit = feed poly b bit := ih h
    exact (BitVec.xor_left_inj (lowBit bit)).mp (step_injective htop hfeed)

/-- Different strings of no more bits than the register has end in different registers,
whatever comes before and behind them. -/
theorem run_burst (htop : poly.getLsbD (w - 1) = true) (c : BitVec w)
    {before after bits bits' : List Bool} (hlength : bits.length = bits'.length)
    (hle : bits.length ≤ w) (hne : bits ≠ bits') :
    run poly c (before ++ bits ++ after) ≠ run poly c (before ++ bits' ++ after) := by
  intro h
  rw [run_append, run_append, run_append, run_append] at h
  have hburst := run_injective htop after h
  have hle' : bits'.length ≤ w := hlength ▸ hle
  rw [run_eq_iterate _ bits hle, run_eq_iterate _ bits' hle', ← hlength] at hburst
  have hpacked := (step_injective htop).iterate bits.length hburst
  exact hne (pack_injective hlength hle ((BitVec.xor_right_inj _).mp hpacked))

end Runs

end CyclicChecks
