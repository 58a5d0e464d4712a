import Mathlib.Algebra.BigOperators.Group.List.Basic
import Mathlib.Algebra.Order.Ring.Int

/-!
# Regions of an address space
-/

namespace Regions

structure Region where
  base : Nat
  bytes : Nat
  deriving DecidableEq, Repr

def Region.Inside (r s : Region) : Prop := s.base ≤ r.base ∧ r.base + r.bytes ≤ s.base + s.bytes

def Region.Apart (r s : Region) : Prop := r.base + r.bytes ≤ s.base ∨ s.base + s.bytes ≤ r.base

variable {r r' s s' : Region}

theorem Region.Apart.symm (h : r.Apart s) : s.Apart r := Or.symm h

theorem Region.Inside.trans (h : r.Inside s) (h' : s.Inside s') : r.Inside s' :=
  ⟨Nat.le_trans h'.1 h.1, Nat.le_trans h.2 h'.2⟩

/-- Parts of regions that are apart are apart. -/
theorem Region.Apart.inside (h : r.Apart s) (hr : r'.Inside r) (hs : s'.Inside s) :
    r'.Apart s' := by
  rcases h with h | h
  · exact Or.inl (Nat.le_trans hr.2 (Nat.le_trans h hs.1))
  · exact Or.inr (Nat.le_trans hs.2 (Nat.le_trans h hr.1))

/-- The regions fill `n` bytes from `base` on, each behind the one handed out before it. -/
inductive Stacked (base : Nat) : List Region → Nat → Prop where
  | nil : Stacked base [] 0
  | push {rs : List Region} {n : Nat} (k : Nat) :
      Stacked base rs n → Stacked base (⟨base + n, k⟩ :: rs) (n + k)

variable {base n m : Nat} {rs : List Region}

theorem Stacked.inside (stacked : Stacked base rs n) (hn : n ≤ m) :
    ∀ r ∈ rs, r.Inside ⟨base, m⟩ := by
  induction stacked with
  | nil => exact fun _ hr => absurd hr List.not_mem_nil
  | @push rs n k _ ih =>
    intro r hr
    rcases List.mem_cons.mp hr with rfl | hr
    · constructor
      · exact Nat.le_add_right base n
      · show base + n + k ≤ base + m
        omega
    · exact ih (by omega) r hr

theorem Stacked.apart (stacked : Stacked base rs n) : rs.Pairwise Region.Apart := by
  induction stacked with
  | nil => exact List.Pairwise.nil
  | @push rs n k below ih =>
    refine List.pairwise_cons.mpr ⟨fun r hr => ?_, ih⟩
    exact Or.inr (below.inside (Nat.le_refl n) r hr).2

theorem Stacked.bytes (stacked : Stacked base rs n) : (rs.map Region.bytes).sum = n := by
  induction stacked with
  | nil => rfl
  | @push rs n k _ ih =>
    rw [List.map_cons, List.sum_cons, ih]
    exact Nat.add_comm k n

end Regions
