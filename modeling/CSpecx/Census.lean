import Mathlib.Algebra.BigOperators.Group.Finset.Piecewise
import Mathlib.Algebra.Order.BigOperators.Group.Finset
import Mathlib.Data.Fintype.Card
import Mathlib.Logic.Function.Basic
import Mathlib.Tactic.Common

/-!
# Counting threads

How many threads are at a place of some kind. One thread that moves changes the
count by what it was and what it is.
-/

namespace Census

variable {T α : Type} [Fintype T]

def census (p : α → Bool) (places : T → α) : Nat := (Finset.univ.filter fun t => p (places t)).card

variable {p : α → Bool} {places : T → α} {t t' : T}

theorem census_eq_sum : census p places = ∑ q, (p (places q)).toNat := by
  rw [census, Finset.card_filter]
  refine Finset.sum_congr rfl fun q _ => ?_
  cases p (places q) <;> rfl

theorem census_update [DecidableEq T] (p : α → Bool) (places : T → α) (t : T) (a : α) :
    census p (Function.update places t a) + (p (places t)).toNat =
      census p places + (p a).toNat := by
  have hsplit : ∀ f : T → Nat, ∑ q, f q = f t + ∑ q ∈ Finset.univ.erase t, f q :=
    fun f => (Finset.add_sum_erase _ f (Finset.mem_univ t)).symm
  have hrest : ∑ q ∈ Finset.univ.erase t, (p (Function.update places t a q)).toNat =
      ∑ q ∈ Finset.univ.erase t, (p (places q)).toNat := by
    refine Finset.sum_congr rfl fun q hq => ?_
    rw [Function.update_of_ne (Finset.ne_of_mem_erase hq)]
  rw [census_eq_sum, census_eq_sum, hsplit, hsplit fun q => (p (places q)).toNat, hrest,
    Function.update_self]
  omega

theorem census_le_card : census p places ≤ Fintype.card T := Finset.card_le_univ _

/-- A thread outside is not counted. -/
theorem census_lt_card (h : p (places t) = false) : census p places < Fintype.card T := by
  refine Finset.card_lt_univ_of_notMem (x := t) ?_
  simp [h]

theorem census_pos (h : p (places t) = true) : 0 < census p places :=
  Finset.card_pos.mpr ⟨t, by simp [h]⟩

theorem exists_of_census_pos (h : 0 < census p places) : ∃ t, p (places t) = true := by
  obtain ⟨t, ht⟩ := Finset.card_pos.mp h
  exact ⟨t, (Finset.mem_filter.mp ht).2⟩

theorem eq_of_census_le_one (h : census p places ≤ 1) (ht : p (places t) = true)
    (ht' : p (places t') = true) : t = t' :=
  Finset.card_le_one.mp h t (by simp [ht]) t' (by simp [ht'])

end Census
