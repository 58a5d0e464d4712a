import Mathlib.Data.List.Sort
import Mathlib.Tactic.Common

/-!
# Slices with a positive step

The positions that a Python slice selects from a sequence, and the arithmetic
progression that lists them.
-/

namespace Slices

/-- `start:stop:step`, with `None` for a bound that is left out. -/
structure Slice where
  start : Option Int
  stop : Option Int
  step : Nat

/-- A position in a sequence of `n` items: a negative one counts from the end,
and one outside `[0, n]` is moved to the nearer end. -/
def position (n : Nat) (i : Int) : Nat := if i < 0 then (n + i).toNat else min i.toNat n

namespace Slice

def lower (s : Slice) (n : Nat) : Nat := s.start.elim 0 (position n)

def upper (s : Slice) (n : Nat) : Nat := s.stop.elim n (position n)

/-- `range(n)[start:stop:step]`. -/
def indices (s : Slice) (n : Nat) : List Nat :=
  (List.range n).filter fun i => s.lower n ≤ i ∧ i < s.upper n ∧ (i - s.lower n) % s.step = 0

/-- The length of a slice, by a division that rounds up. -/
def count (s : Slice) (n : Nat) : Nat := (s.upper n - s.lower n + s.step - 1) / s.step

end Slice

/-- `start`, `start + step` and so on, `count` of them. -/
def progression (start step count : Nat) : List Nat :=
  (List.range count).map fun k => start + k * step

section Rules

variable {s : Slice} {n k start step count : Nat} {i : Int}

theorem position_le (n : Nat) (i : Int) : position n i ≤ n := by
  unfold position
  split <;> omega

@[simp] theorem length_progression : (progression start step count).length = count := by
  simp [progression]

theorem mem_progression {p : Nat} :
    p ∈ progression start step count ↔ ∃ k < count, start + k * step = p := by
  simp [progression]

theorem progression_increases (hstep : 0 < step) :
    (progression start step count).Pairwise (· < ·) := by
  refine List.pairwise_map.mpr (List.pairwise_lt_range.imp fun {a b} hab => ?_)
  exact Nat.add_lt_add_left ((Nat.mul_lt_mul_right hstep).mpr hab) start

namespace Slice

theorem lower_le (s : Slice) (n : Nat) : s.lower n ≤ n := by
  unfold lower
  cases s.start with
  | none => exact Nat.zero_le n
  | some i => exact position_le n i

theorem upper_le (s : Slice) (n : Nat) : s.upper n ≤ n := by
  unfold upper
  cases s.stop with
  | none => exact le_refl n
  | some i => exact position_le n i

/-- The rounded division counts the terms below the upper bound. -/
theorem lt_count_iff (hstep : 0 < s.step) :
    k < s.count n ↔ s.lower n + k * s.step < s.upper n := by
  have hdiv : k + 1 ≤ s.count n ↔ (k + 1) * s.step ≤ s.upper n - s.lower n + s.step - 1 :=
    Nat.le_div_iff_mul_le hstep
  rw [Nat.succ_mul] at hdiv
  omega

theorem count_eq_zero (hempty : s.upper n ≤ s.lower n) (hstep : 0 < s.step) : s.count n = 0 := by
  by_contra hpos
  have hfirst := (lt_count_iff (s := s) (n := n) (k := 0) hstep).mp (by omega)
  omega

theorem mem_indices (hstep : 0 < s.step) {p : Nat} :
    p ∈ s.indices n ↔ ∃ k < s.count n, s.lower n + k * s.step = p := by
  have hupper := s.upper_le n
  simp only [indices, List.mem_filter, List.mem_range, decide_eq_true_eq]
  constructor
  · rintro ⟨-, hlow, hhigh, hmod⟩
    have hmul : (p - s.lower n) / s.step * s.step = p - s.lower n :=
      Nat.div_mul_cancel (Nat.dvd_of_mod_eq_zero hmod)
    refine ⟨(p - s.lower n) / s.step, (lt_count_iff hstep).mpr ?_, ?_⟩ <;> omega
  · rintro ⟨k, hk, rfl⟩
    have hhigh := (lt_count_iff hstep).mp hk
    refine ⟨by omega, by omega, hhigh, ?_⟩
    rw [Nat.add_sub_cancel_left, Nat.mul_mod_left]

/-- The selected positions in order. -/
theorem indices_eq (hstep : 0 < s.step) :
    s.indices n = progression (s.lower n) s.step (s.count n) := by
  have hsorted : (s.indices n).Pairwise (· < ·) := List.pairwise_lt_range.filter _
  refine hsorted.eq_of_mem_iff (progression_increases hstep) fun p => ?_
  rw [mem_indices hstep, mem_progression]

theorem length_indices (hstep : 0 < s.step) : (s.indices n).length = s.count n := by
  rw [indices_eq hstep, length_progression]

end Slice

end Rules

end Slices
