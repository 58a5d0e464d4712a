import Mathlib.Algebra.BigOperators.Group.List.Basic
import Mathlib.Algebra.Order.Ring.Int
import Mathlib.Tactic.Common

/-!
# Bump allocation from the newest block

A request is served from the block opened last when it leaves a byte there;
otherwise it opens a block of a size that depends on the request, and the rest
of the older block is not used any more.
-/

namespace BumpBlocks

/-- The block opened last; before the first one it has no bytes. -/
structure Block where
  limit : Nat
  used : Nat
  deriving DecidableEq, Repr

def Block.none : Block := ⟨0, 0⟩

def Block.Fits (b : Block) (n : Nat) : Prop := n < b.limit - b.used

instance (b : Block) (n : Nat) : Decidable (b.Fits n) :=
  inferInstanceAs (Decidable (n < b.limit - b.used))

/-- The newest block after a request. -/
def put (newSize : Nat → Nat) (b : Block) (n : Nat) : Block :=
  if b.Fits n then ⟨b.limit, b.used + n⟩ else ⟨newSize n, n⟩

/-- The newest block after some requests. -/
def newest (newSize : Nat → Nat) : Block → List Nat → Block
  | b, [] => b
  | b, n :: ns => newest newSize (put newSize b n) ns

/-- The number of blocks that some requests open. -/
def opened (newSize : Nat → Nat) : Block → List Nat → Nat
  | _, [] => 0
  | b, n :: ns => (if b.Fits n then 0 else 1) + opened newSize (put newSize b n) ns

section Rules

variable {newSize : Nat → Nat} {b : Block} {ns : List Nat}

/-- Nothing is opened exactly when all requests together leave a byte. -/
theorem opened_eq_zero_iff : opened newSize b ns = 0 ↔ ns = [] ∨ ns.sum < b.limit - b.used := by
  induction ns generalizing b with
  | nil => exact iff_of_true rfl (Or.inl rfl)
  | cons n ns ih =>
    have hcons : n :: ns ≠ [] := List.cons_ne_nil n ns
    simp only [opened, List.sum_cons, hcons, false_or]
    by_cases hfits : b.Fits n
    · rw [if_pos hfits, Nat.zero_add, ih, put, if_pos hfits]
      have hn : n < b.limit - b.used := hfits
      show ns = [] ∨ ns.sum < b.limit - (b.used + n) ↔ _
      constructor
      · rintro (rfl | hlt)
        · rwa [List.sum_nil, Nat.add_zero]
        · omega
      · intro hlt
        exact Or.inr (by omega)
    · have hn : ¬ n < b.limit - b.used := hfits
      rw [if_neg hfits]
      constructor
      · intro hzero
        omega
      · intro hlt
        omega

end Rules

end BumpBlocks
