import Mathlib.Algebra.Order.Field.Power
import Mathlib.Algebra.Order.Ring.Rat
import Mathlib.Data.Rat.Cast.CharZero
import Mathlib.Tactic.Common
import Mathlib.Tactic.Ring

/-!
# Binary floating-point formats

A pattern is a sign, a biased exponent and the digits of a mantissa. Every
finite number is a whole number of units, the unit being the least positive
number of the format. Patterns without their signs are ordered as their
numbers are, so a pattern is determined by what it denotes.
-/

namespace BinaryFloats

structure Format where
  exponentBits : Nat
  mantissaBits : Nat

/-- A number with a sign of its own, an infinity, or a NaN with its payload. -/
inductive Datum where
  | finite (negative : Bool) (magnitude : ℚ)
  | infinite (negative : Bool)
  | nan (negative : Bool) (payload : Nat)
  deriving DecidableEq

/-- The payload of a NaN moved up, as its digits are in a longer mantissa. -/
def Datum.extend (s : Nat) : Datum → Datum
  | nan negative payload => nan negative (payload * 2 ^ s)
  | d => d

namespace Format

variable (F : Format)

/-- The digits in front of the sign. -/
def bodyBits : Nat := F.exponentBits + F.mantissaBits

def bias : Int := 2 ^ (F.exponentBits - 1) - 1

/-- The exponent of infinities and NaNs. -/
def topExponent : Nat := 2 ^ F.exponentBits - 1

def exponent (body : Nat) : Nat := body / 2 ^ F.mantissaBits

def mantissa (body : Nat) : Nat := body % 2 ^ F.mantissaBits

def body (exponent mantissa : Nat) : Nat := exponent * 2 ^ F.mantissaBits + mantissa

/-- A number with exponent 0 has no leading digit in front of its mantissa. -/
def units (body : Nat) : Nat :=
  if F.exponent body = 0 then F.mantissa body
  else (2 ^ F.mantissaBits + F.mantissa body) * 2 ^ (F.exponent body - 1)

def unit : ℚ := 2 ^ (1 - F.bias - F.mantissaBits)

def pack (negative : Bool) (body : Nat) : Nat := negative.toNat * 2 ^ F.bodyBits + body

def datum (negative : Bool) (body : Nat) : Datum :=
  if F.exponent body = F.topExponent then
    if F.mantissa body = 0 then .infinite negative else .nan negative (F.mantissa body)
  else .finite negative (F.units body * F.unit)

def decode (pattern : Nat) : Datum :=
  F.datum (decide (2 ^ F.bodyBits ≤ pattern)) (pattern % 2 ^ F.bodyBits)

end Format

section Fields

variable {F : Format} {exponent mantissa b b' : Nat} {negative negative' : Bool}

theorem exponent_body (h : mantissa < 2 ^ F.mantissaBits) :
    F.exponent (F.body exponent mantissa) = exponent := by
  rw [Format.exponent, Format.body, Nat.mul_comm, Nat.mul_add_div (Nat.two_pow_pos _),
    Nat.div_eq_of_lt h, Nat.add_zero]

theorem mantissa_body (h : mantissa < 2 ^ F.mantissaBits) :
    F.mantissa (F.body exponent mantissa) = mantissa := by
  rw [Format.mantissa, Format.body, Nat.mul_comm, Nat.mul_add_mod, Nat.mod_eq_of_lt h]

theorem body_fields (F : Format) (b : Nat) : F.body (F.exponent b) (F.mantissa b) = b := by
  rw [Format.body, Format.exponent, Format.mantissa, Nat.mul_comm]
  exact Nat.div_add_mod b _

theorem mantissa_lt (F : Format) (b : Nat) : F.mantissa b < 2 ^ F.mantissaBits :=
  Nat.mod_lt b (Nat.two_pow_pos _)

theorem units_subnormal (h : mantissa < 2 ^ F.mantissaBits) :
    F.units (F.body 0 mantissa) = mantissa := by
  rw [Format.units, exponent_body h, if_pos rfl, mantissa_body h]

theorem units_normal (h : mantissa < 2 ^ F.mantissaBits) (hpos : 0 < exponent) :
    F.units (F.body exponent mantissa) = (2 ^ F.mantissaBits + mantissa) * 2 ^ (exponent - 1) := by
  rw [Format.units, exponent_body h, if_neg (Nat.pos_iff_ne_zero.mp hpos), mantissa_body h]

theorem decode_pack (h : b < 2 ^ F.bodyBits) :
    F.decode (F.pack negative b) = F.datum negative b := by
  rw [Format.decode, Format.pack, Nat.mul_comm, Nat.mul_add_mod, Nat.mod_eq_of_lt h]
  cases negative with
  | false =>
    rw [decide_eq_false (by rw [Bool.toNat_false]; omega)]
  | true =>
    rw [decide_eq_true (by rw [Bool.toNat_true]; omega)]

/-- A pattern in range is a sign and a body. -/
theorem exists_pack {pattern : Nat} (h : pattern < 2 ^ (1 + F.bodyBits)) :
    ∃ negative b, b < 2 ^ F.bodyBits ∧ pattern = F.pack negative b := by
  rw [pow_add, pow_one] at h
  by_cases hsign : pattern < 2 ^ F.bodyBits
  · refine ⟨false, pattern, hsign, ?_⟩
    rw [Format.pack, Bool.toNat_false]
    omega
  · refine ⟨true, pattern - 2 ^ F.bodyBits, by omega, ?_⟩
    rw [Format.pack, Bool.toNat_true]
    omega

end Fields

section Order

variable {F : Format} {b b' : Nat}

/-- One more in the pattern is more in the number, also where the exponent changes. -/
theorem units_lt_succ (F : Format) (b : Nat) : F.units b < F.units (b + 1) := by
  obtain ⟨exponent, mantissa, hm, rfl⟩ : ∃ exponent mantissa, mantissa < 2 ^ F.mantissaBits ∧
      F.body exponent mantissa = b := ⟨_, _, mantissa_lt F b, body_fields F b⟩
  have hpow := Nat.two_pow_pos F.mantissaBits
  by_cases hlast : mantissa + 1 < 2 ^ F.mantissaBits
  · have hnext : F.body exponent mantissa + 1 = F.body exponent (mantissa + 1) := rfl
    rw [hnext]
    cases exponent with
    | zero =>
      rw [units_subnormal hm, units_subnormal hlast]
      exact Nat.lt_succ_self _
    | succ exponent =>
      rw [units_normal hm (Nat.succ_pos _), units_normal hlast (Nat.succ_pos _)]
      exact Nat.mul_lt_mul_of_pos_right (by omega) (Nat.two_pow_pos _)
  · have hnext : F.body exponent mantissa + 1 = F.body (exponent + 1) 0 := by
      rw [Format.body, Format.body, Nat.succ_mul]
      omega
    rw [hnext, units_normal hpow (Nat.succ_pos _), Nat.add_zero, Nat.succ_sub_one]
    cases exponent with
    | zero =>
      rw [units_subnormal hm, pow_zero, Nat.mul_one]
      exact hm
    | succ exponent =>
      rw [units_normal hm (Nat.succ_pos _), Nat.succ_sub_one, pow_succ', ← Nat.mul_assoc]
      exact Nat.mul_lt_mul_of_pos_right (by omega) (Nat.two_pow_pos _)

theorem units_strictMono (F : Format) : StrictMono F.units :=
  strictMono_nat_of_lt_succ (units_lt_succ F)

theorem unit_pos (F : Format) : 0 < F.unit := zpow_pos (by norm_num) _

theorem datum_injective {negative negative' : Bool}
    (h : F.datum negative b = F.datum negative' b') : negative = negative' ∧ b = b' := by
  have hfields : ∀ {c c' : Nat}, F.exponent c = F.exponent c' → F.mantissa c = F.mantissa c' →
      c = c' := by
    intro c c' hexponent hmantissa
    rw [← body_fields F c, ← body_fields F c', hexponent, hmantissa]
  rw [Format.datum, Format.datum] at h
  split at h
  · next htop =>
    split at h
    · next hzero =>
      split at h
      · next htop' =>
        split at h
        · next hzero' =>
          exact ⟨Datum.infinite.inj h, hfields (htop.trans htop'.symm) (hzero.trans hzero'.symm)⟩
        · cases h
      · cases h
    · split at h
      · next htop' =>
        split at h
        · cases h
        · obtain ⟨hsign, hpayload⟩ := Datum.nan.inj h
          exact ⟨hsign, hfields (htop.trans htop'.symm) hpayload⟩
      · cases h
  · split at h
    · split at h <;> cases h
    · obtain ⟨hsign, hvalue⟩ := Datum.finite.inj h
      have hunits := Nat.cast_injective (mul_right_cancel₀ (unit_pos F).ne' hvalue)
      exact ⟨hsign, (units_strictMono F).injective hunits⟩

/-- Different patterns denote different data. -/
theorem decode_injective {pattern pattern' : Nat} (hpattern : pattern < 2 ^ (1 + F.bodyBits))
    (hpattern' : pattern' < 2 ^ (1 + F.bodyBits)) (h : F.decode pattern = F.decode pattern') :
    pattern = pattern' := by
  obtain ⟨negative, b, hb, rfl⟩ := exists_pack hpattern
  obtain ⟨negative', b', hb', rfl⟩ := exists_pack hpattern'
  rw [decode_pack hb, decode_pack hb'] at h
  obtain ⟨rfl, rfl⟩ := datum_injective h
  rfl

end Order

/-! ## A wider format -/

section Widening

variable {F G : Format} {s d : Nat}

/-- `G` has `s` more digits in the mantissa and a bias greater by `d`. -/
structure Wider (F G : Format) (s d : Nat) : Prop where
  mantissa : G.mantissaBits = F.mantissaBits + s
  bias : G.bias = F.bias + d

theorem Wider.unit_eq (wider : Wider F G s d) : F.unit = G.unit * 2 ^ (s + d) := by
  have htwo : (2 : ℚ) ≠ 0 := by norm_num
  rw [Format.unit, Format.unit, ← zpow_natCast, ← zpow_add₀ htwo, wider.mantissa, wider.bias]
  congr 1
  push_cast
  ring

/-- Digits moved up by `k` until the leading one is in front of the mantissa, with the exponent
lowered by `k`, are the same number. -/
theorem Wider.units_eq (wider : Wider F G s d) {digits k exponent : Nat}
    (hlead : 2 ^ F.mantissaBits ≤ digits * 2 ^ k)
    (hdigits : digits * 2 ^ k < 2 * 2 ^ F.mantissaBits) (hpos : 0 < exponent) (hk : k ≤ d) :
    G.units (G.body (exponent + d - k) ((digits * 2 ^ k - 2 ^ F.mantissaBits) * 2 ^ s)) =
      digits * 2 ^ (exponent - 1) * 2 ^ (s + d) := by
  have hpow : 2 ^ G.mantissaBits = 2 ^ F.mantissaBits * 2 ^ s := by
    rw [wider.mantissa, pow_add]
  have hmantissa : (digits * 2 ^ k - 2 ^ F.mantissaBits) * 2 ^ s < 2 ^ G.mantissaBits := by
    rw [hpow]
    exact Nat.mul_lt_mul_of_pos_right (by omega) (Nat.two_pow_pos s)
  have hexponent : exponent + d - k - 1 + k = exponent - 1 + d := by omega
  rw [units_normal hmantissa (by omega), hpow, ← Nat.add_mul, Nat.add_sub_cancel' hlead]
  calc digits * 2 ^ k * 2 ^ s * 2 ^ (exponent + d - k - 1)
      = digits * 2 ^ s * 2 ^ (exponent + d - k - 1 + k) := by
        rw [pow_add]
        ring
    _ = digits * 2 ^ (exponent - 1) * 2 ^ (s + d) := by
        rw [hexponent, pow_add, pow_add]
        ring

theorem Wider.datum_finite (wider : Wider F G s d) {b b' : Nat} (negative : Bool)
    (hb : F.exponent b ≠ F.topExponent) (hb' : G.exponent b' ≠ G.topExponent)
    (hunits : G.units b' = F.units b * 2 ^ (s + d)) :
    G.datum negative b' = (F.datum negative b).extend s := by
  have hvalue : (G.units b' : ℚ) * G.unit = F.units b * F.unit := by
    rw [hunits, wider.unit_eq, Nat.cast_mul, Nat.cast_pow, Nat.cast_two]
    ring
  rw [Format.datum, Format.datum, if_neg hb, if_neg hb', hvalue]
  rfl

theorem datum_top {b b' : Nat} (negative : Bool) (hb : F.exponent b = F.topExponent)
    (hb' : G.exponent b' = G.topExponent) (hmantissa : G.mantissa b' = F.mantissa b * 2 ^ s) :
    G.datum negative b' = (F.datum negative b).extend s := by
  rw [Format.datum, Format.datum, if_pos hb, if_pos hb', hmantissa]
  by_cases hzero : F.mantissa b = 0
  · rw [hzero, Nat.zero_mul, if_pos rfl]
    rfl
  · rw [if_neg hzero, if_neg (Nat.mul_ne_zero hzero (Nat.two_pow_pos s).ne')]
    rfl

end Widening

end BinaryFloats
