import Mathlib.Algebra.Order.Ring.Int
import Mathlib.Tactic.Common

/-!
# Outcomes of C code

A modelled function returns a value or a fault. A failed assertion, an access
outside an object and an exhausted loop bound are different faults, so a
theorem that a call returns excludes all three. Unsigned 32-bit arithmetic is
arithmetic on natural numbers with the reduction written out.
-/

namespace CExec

universe u v

/-- `assertion`: a failing `ASSERT`, `panic` or `UNREACHABLE`. `undefined`: an
access outside an object or an overflow the language leaves undefined.
`fuel`: the bound a modelled loop carries is used up. -/
inductive Fault where
  | assertion
  | undefined
  | fuel
  deriving DecidableEq, Repr

abbrev Outcome (α : Type u) := Except Fault α

def assert (p : Prop) [Decidable p] : Outcome Unit :=
  if p then .ok () else .error .assertion

def access (p : Prop) [Decidable p] : Outcome Unit :=
  if p then .ok () else .error .undefined

/-- `ASSERT (p)` on a pointer, followed by the use of what it points to. -/
def nonNull {α : Type u} : Option α → Outcome α
  | some a => .ok a
  | none => .error .assertion

section Rules

variable {α : Type u} {β : Type u} {p : Prop} [Decidable p]

@[simp] theorem ok_bind (a : α) (f : α → Outcome β) :
    ((Except.ok a : Outcome α) >>= f) = f a := rfl

@[simp] theorem error_bind (e : Fault) (f : α → Outcome β) :
    ((Except.error e : Outcome α) >>= f) = .error e := rfl

theorem assert_pos (h : p) : assert p = .ok () := if_pos h

theorem access_pos (h : p) : access p = .ok () := if_pos h

theorem assert_neg (h : ¬ p) : assert p = .error .assertion := if_neg h

theorem access_neg (h : ¬ p) : access p = .error .undefined := if_neg h

@[simp] theorem assert_eq_ok_iff {u : Unit} : assert p = .ok u ↔ p := by
  by_cases h : p <;> simp [assert, h]

@[simp] theorem access_eq_ok_iff {u : Unit} : access p = .ok u ↔ p := by
  by_cases h : p <;> simp [access, h]

theorem ok_pair_inj {a a' : α} {b b' : β} (h : (.ok (a, b) : Outcome (α × β)) = .ok (a', b')) :
    a = a' ∧ b = b' := Prod.mk.inj (Except.ok.inj h)

theorem ok_triple_inj {γ : Type u} {a a' : α} {b b' : β} {c c' : γ}
    (h : (.ok (a, b, c) : Outcome (α × β × γ)) = .ok (a', b', c')) :
    a = a' ∧ b = b' ∧ c = c' := by
  obtain ⟨hfirst, hrest⟩ := ok_pair_inj h
  exact ⟨hfirst, Prod.mk.inj hrest⟩

/-- A computation that returns ran both of its halves. -/
theorem bind_eq_ok {x : Outcome α} {f : α → Outcome β} {b : β} :
    (x >>= f) = .ok b ↔ ∃ a, x = .ok a ∧ f a = .ok b := by
  cases x with
  | error e => simp
  | ok a => simp

end Rules

/-- Reduction to an unsigned 32-bit value. -/
def u32 (n : Nat) : Nat := n % 2 ^ 32

/-- Unsigned 32-bit subtraction. -/
def sub32 (a b : Nat) : Nat := (a + 2 ^ 32 - b) % 2 ^ 32

theorem u32_of_lt {n : Nat} (h : n < 2 ^ 32) : u32 n = n := Nat.mod_eq_of_lt h

theorem u32_lt (n : Nat) : u32 n < 2 ^ 32 := Nat.mod_lt _ (by decide)

theorem u32_le (n : Nat) : u32 n ≤ n := Nat.mod_le n _

theorem u32_add {a b : Nat} : u32 (u32 a + b) = u32 (a + b) := Nat.mod_add_mod a (2 ^ 32) b

theorem sub32_of_le {a b : Nat} (hb : b ≤ a) (ha : a < 2 ^ 32) : sub32 a b = a - b := by
  unfold sub32
  have he : a + 2 ^ 32 - b = a - b + 2 ^ 32 := by omega
  rw [he, Nat.add_mod_right, Nat.mod_eq_of_lt (by omega)]

end CExec
