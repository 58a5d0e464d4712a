import CSpecx.CExec
import Mathlib.Tactic.Linarith

/-!
# Checked arithmetic

`safe_add`, `safe_sub` and `safe_mul` of a signed or an unsigned type: the
builtins of the compiler, and the fallback that tests the operands first. Every
difference and quotient of a test is itself computed in the type. The operands
have the type, so the casts of the fallback change nothing.
-/

namespace CheckedArithmetic

open CExec

def intMin (w : Nat) : Int := -2 ^ (w - 1)

def intMax (w : Nat) : Int := 2 ^ (w - 1) - 1

def InRange (w : Nat) (x : Int) : Prop := intMin w ≤ x ∧ x ≤ intMax w

instance (w : Nat) (x : Int) : Decidable (InRange w x) := inferInstanceAs (Decidable (_ ∧ _))

def uintMax (w : Nat) : Int := 2 ^ w - 1

def UInRange (w : Nat) (x : Int) : Prop := 0 ≤ x ∧ x ≤ uintMax w

instance (w : Nat) (x : Int) : Decidable (UInRange w x) := inferInstanceAs (Decidable (_ ∧ _))

/-- A signed result that leaves the type is undefined. -/
def signed (w : Nat) (x : Int) : Outcome Int := do
  access (InRange w x)
  .ok x

/-- `a / b` truncates. -/
def quotient (w : Nat) (a b : Int) : Outcome Int := do
  access (b ≠ 0)
  signed w (a.tdiv b)

/-- An unsigned result that leaves the type would wrap, and a test could not use it. -/
def unsigned (w : Nat) (x : Int) : Outcome Int := do
  access (UInRange w x)
  .ok x

def uquotient (w : Nat) (a b : Int) : Outcome Int := do
  access (b ≠ 0)
  unsigned w (a.tdiv b)

def atMost (a : Int) (bound : Outcome Int) : Outcome Bool := do
  let b ← bound
  .ok (a ≤ b)

def atLeast (a : Int) (bound : Outcome Int) : Outcome Bool := do
  let b ← bound
  .ok (b ≤ a)

/-- `_uadd_ok`. -/
def uaddOk (w : Nat) (a b : Int) : Outcome Bool := atMost a (unsigned w (uintMax w - b))

/-- `_usub_ok`. -/
def usubOk (a b : Int) : Outcome Bool := .ok (a ≥ b)

/-- `_umul_ok`. -/
def umulOk (w : Nat) (a b : Int) : Outcome Bool :=
  .ok (a = 0) <||> atMost b (uquotient w (uintMax w) a)

/-- `_sadd_ok`. -/
def saddOk (w : Nat) (a b : Int) : Outcome Bool :=
  (.ok (b > 0) <&&> atMost a (signed w (intMax w - b))) <||>
  (.ok (b ≤ 0) <&&> atLeast a (signed w (intMin w - b)))

/-- `_ssub_ok`. -/
def ssubOk (w : Nat) (a b : Int) : Outcome Bool :=
  (.ok (b < 0) <&&> atMost a (signed w (intMax w + b))) <||>
  (.ok (b ≥ 0) <&&> atLeast a (signed w (intMin w + b)))

/-- `_smul_ok`. -/
def smulOk (w : Nat) (a b : Int) : Outcome Bool :=
  .ok (a = 0) <||> .ok (b = 0) <||>
  (.ok (a > 0) <&&> .ok (b > 0) <&&> atMost a (quotient w (intMax w) b)) <||>
  (.ok (a < 0) <&&> .ok (b < 0) <&&> atLeast a (quotient w (intMax w) b)) <||>
  (.ok (a > 0) <&&> .ok (b < 0) <&&> atLeast b (quotient w (intMin w) a)) <||>
  (.ok (a < 0) <&&> .ok (b > 0) <&&> atLeast a (quotient w (intMin w) b))

/-- Whether the compiler has the overflow builtins. -/
inductive Build where
  | builtin
  | fallback
  deriving DecidableEq, Repr

/-- A builtin stores the wrapped result in either case, a fallback only one that fits. -/
def safeOp (build : Build) (w : Nat) (check : Outcome Bool) (exact dest : Int) :
    Outcome (Bool × Int) :=
  match build with
  | .builtin => .ok (decide (InRange w exact), exact.bmod (2 ^ w))
  | .fallback => do
    if ← check then do
      let v ← signed w exact
      .ok (true, v)
    else .ok (false, dest)

def safeOpU (build : Build) (w : Nat) (check : Outcome Bool) (exact dest : Int) :
    Outcome (Bool × Int) :=
  match build with
  | .builtin => .ok (decide (UInRange w exact), exact % 2 ^ w)
  | .fallback => do
    if ← check then do
      let v ← unsigned w exact
      .ok (true, v)
    else .ok (false, dest)

def safeAddU (build : Build) (w : Nat) (a b dest : Int) : Outcome (Bool × Int) :=
  safeOpU build w (uaddOk w a b) (a + b) dest

def safeSubU (build : Build) (w : Nat) (a b dest : Int) : Outcome (Bool × Int) :=
  safeOpU build w (usubOk a b) (a - b) dest

def safeMulU (build : Build) (w : Nat) (a b dest : Int) : Outcome (Bool × Int) :=
  safeOpU build w (umulOk w a b) (a * b) dest

def safeAdd (build : Build) (w : Nat) (a b dest : Int) : Outcome (Bool × Int) :=
  safeOp build w (saddOk w a b) (a + b) dest

/-- The second result is `*dest`. -/
def safeSub (build : Build) (w : Nat) (a b dest : Int) : Outcome (Bool × Int) :=
  safeOp build w (ssubOk w a b) (a - b) dest

def safeMul (build : Build) (w : Nat) (a b dest : Int) : Outcome (Bool × Int) :=
  safeOp build w (smulOk w a b) (a * b) dest

section Rules

variable {p : Prop} [Decidable p] {x : Outcome Bool}

theorem or_pos (h : p) : ((.ok (decide p) : Outcome Bool) <||> x) = .ok true := by
  rw [decide_eq_true h]
  rfl

theorem or_neg (h : ¬ p) : ((.ok (decide p) : Outcome Bool) <||> x) = x := by
  rw [decide_eq_false h]
  rfl

theorem and_pos (h : p) : ((.ok (decide p) : Outcome Bool) <&&> x) = x := by
  rw [decide_eq_true h]
  rfl

theorem and_neg (h : ¬ p) : ((.ok (decide p) : Outcome Bool) <&&> x) = .ok false := by
  rw [decide_eq_false h]
  rfl

theorem false_or' : ((.ok false : Outcome Bool) <||> x) = x := rfl

end Rules

section Exact

variable {w : Nat} {a b : Int}

theorem intMin_neg (w : Nat) : intMin w < 0 := by
  have hpos : (0 : Int) < 2 ^ (w - 1) := Int.pow_pos (by decide)
  rw [intMin]
  omega

theorem intMax_eq (w : Nat) : intMax w = -intMin w - 1 := by
  rw [intMax, intMin, Int.neg_neg]

theorem intMax_ge (hw : 8 ≤ w) : 127 ≤ intMax w := by
  have hpow : (2 : Int) ^ 7 ≤ 2 ^ (w - 1) := pow_le_pow_right₀ (by decide) (by omega)
  rw [intMax]
  omega

theorem signed_of_inRange (h : InRange w a) : signed w a = .ok a := by
  rw [signed, access_pos h, ok_bind]

/-- The operand may be one past the maximum, as the negative of the minimum is. -/
theorem saddOk_eq (ha : InRange w a) (hlow : intMin w ≤ b) (hhigh : b ≤ intMax w + 1) :
    saddOk w a b = .ok (decide (InRange w (a + b))) := by
  have hneg := intMin_neg w
  have hmax := intMax_eq w
  obtain ⟨halow, hahigh⟩ := ha
  rw [saddOk]
  by_cases hsign : 0 < b
  · rw [and_pos hsign, and_neg (not_le.mpr hsign), signed_of_inRange ⟨by omega, by omega⟩, atMost,
      ok_bind]
    by_cases hle : a ≤ intMax w - b
    · rw [or_pos hle, decide_eq_true (show InRange w (a + b) from ⟨by omega, by omega⟩)]
    · rw [or_neg hle, decide_eq_false fun h => hle (by have := h.2; omega)]
  · rw [and_neg hsign, false_or', and_pos (not_lt.mp hsign), signed_of_inRange ⟨by omega, by omega⟩,
      atLeast, ok_bind]
    refine congrArg _ (decide_eq_decide.mpr ⟨fun h => ⟨by omega, by omega⟩, fun h => ?_⟩)
    have := h.1
    omega

/-- The test of a difference is that of a sum with the negative. -/
theorem ssubOk_eq_saddOk (w : Nat) (a b : Int) : ssubOk w a b = saddOk w a (-b) := by
  rw [ssubOk, saddOk, Int.sub_neg, Int.sub_neg,
    decide_eq_decide.mpr (show b < 0 ↔ -b > 0 by omega),
    decide_eq_decide.mpr (show b ≥ 0 ↔ -b ≤ 0 by omega)]

theorem ssubOk_eq (ha : InRange w a) (hb : InRange w b) :
    ssubOk w a b = .ok (decide (InRange w (a - b))) := by
  have hmax := intMax_eq w
  obtain ⟨hblow, hbhigh⟩ := hb
  rw [ssubOk_eq_saddOk, Int.sub_eq_add_neg]
  exact saddOk_eq ha (by omega) (by omega)

/-- A quotient of a bound of the type by a positive number stays in the type. -/
theorem atMost_quotient (hb : 0 < b) :
    atMost a (quotient w (intMax w) b) = .ok (decide (a * b ≤ intMax w)) := by
  have hneg := intMin_neg w
  have hmax := intMax_eq w
  have hdiv : (intMax w).tdiv b = intMax w / b := Int.tdiv_eq_ediv_of_nonneg (by omega)
  have hlow : 0 ≤ intMax w / b := Int.ediv_nonneg (by omega) (by omega)
  have hhigh : intMax w / b ≤ intMax w := Int.ediv_le_self b (by omega)
  rw [quotient, access_pos (by omega), ok_bind, hdiv,
    signed_of_inRange ⟨by omega, by omega⟩, atMost, ok_bind]
  exact congrArg _ (decide_eq_decide.mpr (Int.le_ediv_iff_mul_le hb))

theorem atLeast_quotient_max (hb : b < 0) :
    atLeast a (quotient w (intMax w) b) = .ok (decide (a * b ≤ intMax w)) := by
  have hneg := intMin_neg w
  have hmax := intMax_eq w
  have hdiv : (intMax w).tdiv b = -(intMax w / -b) := by
    rw [← Int.tdiv_eq_ediv_of_nonneg (by omega), Int.tdiv_neg, Int.neg_neg]
  have hlow : 0 ≤ intMax w / -b := Int.ediv_nonneg (by omega) (by omega)
  have hhigh : intMax w / -b ≤ intMax w := Int.ediv_le_self (-b) (by omega)
  rw [quotient, access_pos (by omega), ok_bind, hdiv,
    signed_of_inRange ⟨by omega, by omega⟩, atLeast, ok_bind]
  refine congrArg _ (decide_eq_decide.mpr ?_)
  have hiff := Int.le_ediv_iff_mul_le (a := -a) (b := intMax w) (show 0 < -b by omega)
  rw [Int.neg_mul_neg] at hiff
  rw [← hiff]
  omega

theorem atLeast_quotient_min (hb : 0 < b) :
    atLeast a (quotient w (intMin w) b) = .ok (decide (intMin w ≤ a * b)) := by
  have hneg := intMin_neg w
  have hmax := intMax_eq w
  have hdiv : (intMin w).tdiv b = -(-intMin w / b) := by
    rw [← Int.tdiv_eq_ediv_of_nonneg (by omega), Int.neg_tdiv, Int.neg_neg]
  have hlow : 0 ≤ -intMin w / b := Int.ediv_nonneg (by omega) (by omega)
  have hhigh : -intMin w / b ≤ -intMin w := Int.ediv_le_self b (by omega)
  rw [quotient, access_pos (by omega), ok_bind, hdiv,
    signed_of_inRange ⟨by omega, by omega⟩, atLeast, ok_bind]
  refine congrArg _ (decide_eq_decide.mpr ?_)
  have hiff := Int.le_ediv_iff_mul_le (a := -a) (b := -intMin w) hb
  rw [Int.neg_mul] at hiff
  omega

theorem inRange_of_pos (h : 0 < a) : InRange w a ↔ a ≤ intMax w := by
  have hneg := intMin_neg w
  exact and_iff_right (by omega)

theorem inRange_of_neg (h : a < 0) : InRange w a ↔ intMin w ≤ a := by
  have hneg := intMin_neg w
  have hmax := intMax_eq w
  exact and_iff_left (by omega)

theorem inRange_zero (w : Nat) : InRange w 0 := by
  have hneg := intMin_neg w
  have hmax := intMax_eq w
  exact ⟨by omega, by omega⟩

/-- One case for each pair of signs. -/
theorem smulOk_eq (w : Nat) (a b : Int) : smulOk w a b = .ok (decide (InRange w (a * b))) := by
  rw [smulOk]
  obtain ha | rfl | ha := lt_trichotomy a 0
  · obtain hb | rfl | hb := lt_trichotomy b 0
    · rw [or_neg (by omega), or_neg (by omega), and_neg (by omega), false_or',
        and_pos ha, and_pos hb,
        atLeast_quotient_max hb, and_neg (by omega), and_pos ha, and_neg (by omega)]
      rw [decide_eq_decide.mpr (inRange_of_pos (Int.mul_pos_of_neg_of_neg ha hb))]
      by_cases hle : a * b ≤ intMax w
      · rw [or_pos hle, decide_eq_true hle]
      · rw [or_neg hle, decide_eq_false hle, false_or']
    · rw [or_neg (by omega), or_pos rfl, Int.mul_zero, decide_eq_true (inRange_zero w)]
    · rw [or_neg (by omega), or_neg (by omega), and_neg (by omega), false_or', and_pos ha,
        and_neg (by omega), false_or', and_neg (by omega), false_or', and_pos ha, and_pos hb,
        atLeast_quotient_min hb,
        decide_eq_decide.mpr (inRange_of_neg (Int.mul_neg_of_neg_of_pos ha hb))]
  · rw [or_pos rfl, Int.zero_mul, decide_eq_true (inRange_zero w)]
  · obtain hb | rfl | hb := lt_trichotomy b 0
    · rw [or_neg (by omega), or_neg (by omega), and_pos ha, and_neg (by omega), false_or',
        and_neg (by omega), false_or', and_pos ha, and_pos hb, atLeast_quotient_min ha,
        and_neg (by omega)]
      rw [decide_eq_decide.mpr (inRange_of_neg (Int.mul_neg_of_pos_of_neg ha hb)), Int.mul_comm b a]
      by_cases hle : intMin w ≤ a * b
      · rw [or_pos hle, decide_eq_true hle]
      · rw [or_neg hle, decide_eq_false hle]
    · rw [or_neg (by omega), or_pos rfl, Int.mul_zero, decide_eq_true (inRange_zero w)]
    · rw [or_neg (by omega), or_neg (by omega), and_pos ha, and_pos hb, atMost_quotient hb,
        and_neg (by omega), and_pos ha, and_neg (by omega), and_neg (by omega)]
      rw [decide_eq_decide.mpr (inRange_of_pos (Int.mul_pos ha hb))]
      by_cases hle : a * b ≤ intMax w
      · rw [or_pos hle, decide_eq_true hle]
      · rw [or_neg hle, decide_eq_false hle, false_or', false_or']

theorem bmod_of_inRange (hw : 1 ≤ w) (h : InRange w a) : a.bmod (2 ^ w) = a := by
  obtain ⟨hlow, hhigh⟩ := h
  have htwo : ((2 ^ w : Nat) : Int) = 2 * 2 ^ (w - 1) := by
    rw [Nat.cast_pow, Nat.cast_two, ← pow_succ', Nat.sub_add_cancel hw]
  rw [intMin] at hlow
  rw [intMax] at hhigh
  exact Int.bmod_eq_of_le (by omega) (by omega)

/-- With an exact test both builds tell whether the result fits, and store it where it does. -/
theorem safeOp_eq (build : Build) (hw : 1 ≤ w) {check : Outcome Bool} {exact : Int}
    (hcheck : check = .ok (decide (InRange w exact))) (dest : Int) :
    ∃ v, safeOp build w check exact dest = .ok (decide (InRange w exact), v) ∧
      (InRange w exact → v = exact) := by
  cases build with
  | builtin => exact ⟨_, rfl, bmod_of_inRange hw⟩
  | fallback =>
    rw [safeOp, hcheck, ok_bind]
    by_cases hfits : InRange w exact
    · rw [decide_eq_true hfits, if_pos rfl, signed_of_inRange hfits, ok_bind]
      exact ⟨exact, rfl, fun _ => rfl⟩
    · rw [decide_eq_false hfits, if_neg nofun]
      exact ⟨dest, rfl, fun h => absurd h hfits⟩

/-- What a test leaves behind: the exact result where it fits, and `*dest` as it was else. -/
def stored (fits : Prop) [Decidable fits] (exact dest : Int) : Bool × Int :=
  if fits then (true, exact) else (false, dest)

theorem safeOp_fallback {check : Outcome Bool} {exact : Int}
    (hcheck : check = .ok (decide (InRange w exact))) (dest : Int) :
    safeOp .fallback w check exact dest = .ok (stored (InRange w exact) exact dest) := by
  rw [safeOp, hcheck, ok_bind, stored]
  by_cases hfits : InRange w exact
  · rw [decide_eq_true hfits, if_pos rfl, signed_of_inRange hfits, ok_bind, if_pos hfits]
  · rw [decide_eq_false hfits, if_neg nofun, if_neg hfits]

end Exact

/-! ## The unsigned types -/

section Unsigned

variable {w : Nat} {a b : Int}

theorem unsigned_of_uInRange (h : UInRange w a) : unsigned w a = .ok a := by
  rw [unsigned, access_pos h, ok_bind]

theorem uInRange_of_nonneg (h : 0 ≤ a) : UInRange w a ↔ a ≤ uintMax w := and_iff_right h

theorem safeOpU_fallback {check : Outcome Bool} {exact : Int}
    (hcheck : check = .ok (decide (UInRange w exact))) (dest : Int) :
    safeOpU .fallback w check exact dest = .ok (stored (UInRange w exact) exact dest) := by
  rw [safeOpU, hcheck, ok_bind, stored]
  by_cases hfits : UInRange w exact
  · rw [decide_eq_true hfits, if_pos rfl, unsigned_of_uInRange hfits, ok_bind, if_pos hfits]
  · rw [decide_eq_false hfits, if_neg nofun, if_neg hfits]

/-- In either build a result that fits is stored. -/
theorem safeOpU_fits (build : Build) {check : Outcome Bool} {exact : Int}
    (hcheck : check = .ok (decide (UInRange w exact))) (hfits : UInRange w exact) (dest : Int) :
    safeOpU build w check exact dest = .ok (true, exact) := by
  cases build with
  | builtin =>
    have hmod : exact % 2 ^ w = exact := Int.emod_eq_of_lt hfits.1 (Int.lt_of_le_sub_one hfits.2)
    rw [safeOpU, decide_eq_true hfits, hmod]
  | fallback => rw [safeOpU_fallback hcheck, stored, if_pos hfits]

theorem uaddOk_eq (ha : UInRange w a) (hb : UInRange w b) :
    uaddOk w a b = .ok (decide (UInRange w (a + b))) := by
  obtain ⟨hapos, hahigh⟩ := ha
  obtain ⟨hbpos, hbhigh⟩ := hb
  rw [uaddOk, unsigned_of_uInRange ⟨by omega, by omega⟩, atMost, ok_bind]
  refine congrArg _ (decide_eq_decide.mpr ?_)
  rw [uInRange_of_nonneg (by omega)]
  omega

theorem usubOk_eq (ha : UInRange w a) (hb : UInRange w b) :
    usubOk a b = .ok (decide (UInRange w (a - b))) := by
  obtain ⟨hapos, hahigh⟩ := ha
  obtain ⟨hbpos, hbhigh⟩ := hb
  refine congrArg _ (decide_eq_decide.mpr ⟨fun h => ⟨by omega, by omega⟩, fun h => ?_⟩)
  have := h.1
  omega

/-- The quotient of the test is that by a positive operand. -/
theorem umulOk_eq (ha : UInRange w a) (hb : UInRange w b) :
    umulOk w a b = .ok (decide (UInRange w (a * b))) := by
  obtain ⟨hapos, hahigh⟩ := ha
  rw [umulOk]
  by_cases hzero : a = 0
  · have hfits : UInRange w (a * b) := by
      rw [hzero, Int.zero_mul]
      exact ⟨le_rfl, by omega⟩
    rw [or_pos hzero, decide_eq_true hfits]
  · have hpos : 0 < a := by omega
    have hdiv : (uintMax w).tdiv a = uintMax w / a := Int.tdiv_eq_ediv_of_nonneg (by omega)
    have hlow : 0 ≤ uintMax w / a := Int.ediv_nonneg (by omega) hapos
    have hhigh : uintMax w / a ≤ uintMax w := Int.ediv_le_self a (by omega)
    rw [or_neg hzero, uquotient, access_pos hzero, ok_bind, hdiv,
      unsigned_of_uInRange ⟨hlow, hhigh⟩, atMost, ok_bind]
    refine congrArg _ (decide_eq_decide.mpr ?_)
    rw [uInRange_of_nonneg (Int.mul_nonneg hapos hb.1), Int.mul_comm a b]
    exact Int.le_ediv_iff_mul_le hpos

end Unsigned

/-- At every width the six tests of the fallback are exact, and compute no value
outside the type. -/
theorem fallback_exact (w : Nat) (a b dest : Int) :
    (UInRange w a → UInRange w b →
      safeAddU .fallback w a b dest = .ok (stored (UInRange w (a + b)) (a + b) dest) ∧
      safeSubU .fallback w a b dest = .ok (stored (UInRange w (a - b)) (a - b) dest) ∧
      safeMulU .fallback w a b dest = .ok (stored (UInRange w (a * b)) (a * b) dest)) ∧
    (InRange w a → InRange w b →
      safeAdd .fallback w a b dest = .ok (stored (InRange w (a + b)) (a + b) dest) ∧
      safeSub .fallback w a b dest = .ok (stored (InRange w (a - b)) (a - b) dest) ∧
      safeMul .fallback w a b dest = .ok (stored (InRange w (a * b)) (a * b) dest)) := by
  constructor
  · intro ha hb
    exact ⟨safeOpU_fallback (uaddOk_eq ha hb) dest, safeOpU_fallback (usubOk_eq ha hb) dest,
      safeOpU_fallback (umulOk_eq ha hb) dest⟩
  · intro ha hb
    exact ⟨safeOp_fallback (saddOk_eq ha hb.1 (Int.le_add_one hb.2)) dest,
      safeOp_fallback (ssubOk_eq ha hb) dest, safeOp_fallback (smulOk_eq w a b) dest⟩

/-- Sixteen squared is no byte, and the minimum times minus one no signed one. -/
theorem fallback_exact_byte :
    safeMulU .fallback 8 16 16 7 = .ok (false, 7) ∧
    safeMul .fallback 8 (-128) (-1) 7 = .ok (false, 7) :=
  ⟨((fallback_exact 8 16 16 7).1 (by decide) (by decide)).2.2,
    ((fallback_exact 8 (-128) (-1) 7).2 (by decide) (by decide)).2.2⟩

end CheckedArithmetic
