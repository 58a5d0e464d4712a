import CSpecx.CheckedArithmetic
import CSpecx.Errors

/-!
# Reading decimal integers

The value is accumulated as a negative number, so that the minimum is reached
without an overflow. The two functions differ in their width and their text.
-/

namespace ParseNumbers

open CExec Errors CheckedArithmetic

/-- `is_num`. -/
def isNum (c : UInt8) : Prop := 48 ≤ c ∧ c ≤ 57

instance (c : UInt8) : Decidable (isNum c) := inferInstanceAs (Decidable (_ ∧ _))

/-- `c - '0'`. -/
def digitOf (c : UInt8) : Int := c.toNat - 48

/-- The sign and what follows it. -/
def readSign : List UInt8 → Outcome (Bool × List UInt8)
  | [] => .error .undefined
  | c :: rest =>
    if c = 43 ∨ c = 45 then do
      assert (0 < rest.length)
      .ok (c = 45, rest)
    else .ok (false, c :: rest)

/-- The loop; `none` is the jump to `failed`. -/
def accumulate (build : Build) (w : Nat) : Int → List UInt8 → Outcome (Option Int)
  | acc, [] => .ok (some acc)
  | acc, c :: rest => do
    assert (isNum c)
    let digit ← signed w (digitOf c)
    let (fits, acc) ← safeMul build w acc 10 acc
    if fits then do
      let (fits, acc) ← safeSub build w acc digit acc
      if fits then accumulate build w acc rest else .ok none
    else .ok none

/-- The label `failed`. -/
def failed (text : String) (dest : Int) (e : ErrorObject) : Int × Int × ErrorObject :=
  let (code, e) := errorCausef e errArith ⟨text, []⟩
  (code, dest, e)

/-- What follows the loop. -/
def conclude (w : Nat) (text : String) (dest : Int) (e : ErrorObject) (neg : Bool) :
    Option Int → Outcome (Int × Int × ErrorObject)
  | none => .ok (failed text dest e)
  | some acc =>
    if neg then .ok (success, acc, e)
    else if acc = intMin w then .ok (failed text dest e)
    else do
      let acc ← signed w (-acc)
      .ok (success, acc, e)

/-- `data` holds `len` bytes. The results are the code, `*dest` and the error object. -/
def parseExpect (build : Build) (w : Nat) (text : String) (dest : Int) (data : List UInt8)
    (e : ErrorObject) : Outcome (Int × Int × ErrorObject) := do
  assert (0 < data.length)
  let (neg, digits) ← readSign data
  let acc ← accumulate build w 0 digits
  conclude w text dest e neg acc

def parseI64Expect (build : Build) (dest : Int) (data : List UInt8) (e : ErrorObject) :
    Outcome (Int × Int × ErrorObject) := parseExpect build 64 "i64 overflow" dest data e

def parseI32Expect (build : Build) (dest : Int) (data : List UInt8) (e : ErrorObject) :
    Outcome (Int × Int × ErrorObject) := parseExpect build 32 "i32 overflow" dest data e

/-! ## The value of a numeral -/

inductive Sign where
  | none
  | plus
  | minus
  deriving DecidableEq, Repr

def Sign.text : Sign → List UInt8
  | .none => []
  | .plus => [43]
  | .minus => [45]

def Sign.apply : Sign → Int → Int
  | .minus, n => -n
  | _, n => n

/-- The number behind `n` followed by the digits. -/
def decimalFrom (n : Int) (digits : List UInt8) : Int :=
  digits.foldl (fun n c => 10 * n + digitOf c) n

def decimal (digits : List UInt8) : Int := decimalFrom 0 digits

section Digits

variable {build : Build} {w : Nat} {c : UInt8} {digits : List UInt8}

theorem digitOf_bounds (h : isNum c) : 0 ≤ digitOf c ∧ digitOf c ≤ 9 := by
  obtain ⟨hlow, hhigh⟩ := h
  have hlow' : 48 ≤ c.toNat := UInt8.le_iff_toNat_le.mp hlow
  have hhigh' : c.toNat ≤ 57 := UInt8.le_iff_toNat_le.mp hhigh
  unfold digitOf
  omega

theorem le_decimalFrom {n : Int} (hn : 0 ≤ n) (hnum : ∀ c ∈ digits, isNum c) :
    n ≤ decimalFrom n digits := by
  induction digits generalizing n with
  | nil => exact le_rfl
  | cons c rest ih =>
    obtain ⟨hc, hrest⟩ := List.forall_mem_cons.mp hnum
    obtain ⟨hlow, -⟩ := digitOf_bounds hc
    have hle := ih (show 0 ≤ 10 * n + digitOf c by omega) hrest
    rw [decimalFrom, List.foldl_cons]
    exact le_trans (by omega) hle

/-- An intermediate result below the minimum is never made up for. -/
theorem accumulate_eq (build : Build) (hw : 8 ≤ w) {n : Int} (hn : 0 ≤ n)
    (hmin : intMin w ≤ -n) (hnum : ∀ c ∈ digits, isNum c) :
    accumulate build w (-n) digits =
      .ok (if intMin w ≤ -decimalFrom n digits then some (-decimalFrom n digits) else none) := by
  induction digits generalizing n with
  | nil => rw [accumulate, decimalFrom, List.foldl_nil, if_pos hmin]
  | cons c rest ih =>
    obtain ⟨hc, hrest⟩ := List.forall_mem_cons.mp hnum
    obtain ⟨hlow, hhigh⟩ := digitOf_bounds hc
    have hmax := intMax_eq w
    have hwide := intMax_ge hw
    have hfinal := le_decimalFrom (show 0 ≤ 10 * n + digitOf c by omega) hrest
    have hsame : decimalFrom n (c :: rest) = decimalFrom (10 * n + digitOf c) rest := rfl
    obtain ⟨v, hmul, hvalue⟩ := safeOp_eq build (by omega) (smulOk_eq w (-n) 10) (-n)
    rw [accumulate, assert_pos hc, ok_bind, signed_of_inRange ⟨by omega, by omega⟩,
      ok_bind, safeMul, hmul, ok_bind, hsame]
    by_cases htens : InRange w (-n * 10)
    · rw [decide_eq_true htens, hvalue htens]
      have hdigit : InRange w (digitOf c) := ⟨by omega, by omega⟩
      obtain ⟨v, hsub, hvalue⟩ := safeOp_eq build (by omega) (ssubOk_eq htens hdigit) (-n * 10)
      dsimp only
      rw [if_pos rfl, safeSub, hsub, ok_bind]
      have hstep : -n * 10 - digitOf c = -(10 * n + digitOf c) := by omega
      by_cases hones : InRange w (-n * 10 - digitOf c)
      · rw [decide_eq_true hones, hvalue hones, hstep]
        dsimp only
        rw [if_pos rfl]
        exact ih (by omega) (hstep ▸ hones.1) hrest
      · rw [decide_eq_false hones]
        dsimp only
        rw [if_neg nofun, if_neg fun h => hones ⟨by omega, by omega⟩]
    · rw [decide_eq_false htens]
      dsimp only
      rw [if_neg nofun, if_neg fun h => htens ⟨by omega, by omega⟩]

end Digits

/-! ## Exactness -/

section Parse

variable {build : Build} {w : Nat} {text : String} {dest : Int} {digits : List UInt8}

theorem readSign_eq (sign : Sign) (hdigits : digits ≠ []) (hnum : ∀ c ∈ digits, isNum c) :
    readSign (sign.text ++ digits) = .ok (decide (sign = .minus), digits) := by
  obtain ⟨c, rest, rfl⟩ := List.exists_cons_of_ne_nil hdigits
  have hpos : 0 < (c :: rest).length := Nat.succ_pos _
  cases sign with
  | none =>
    obtain ⟨hlow, -⟩ := hnum c List.mem_cons_self
    have hsign : ¬ (c = 43 ∨ c = 45) := by
      rintro (rfl | rfl) <;> exact absurd hlow (by decide)
    rw [Sign.text, List.nil_append, readSign, if_neg hsign]
    rfl
  | plus =>
    rw [Sign.text, List.cons_append, List.nil_append, readSign, if_pos (.inl rfl), assert_pos hpos]
    rfl
  | minus =>
    rw [Sign.text, List.cons_append, List.nil_append, readSign, if_pos (.inr rfl), assert_pos hpos]
    rfl

theorem failed_fresh (text : String) (dest : Int) :
    failed text dest errorCreate = (errArith, dest, ⟨errArith, ⟨text, []⟩⟩) := rfl

/-- Only the magnitude of the minimum is reached and does not fit without its sign. -/
theorem conclude_eq (text : String) (sign : Sign) {n : Int} (hn : 0 ≤ n) (dest : Int) :
    conclude w text dest errorCreate (decide (sign = .minus))
        (if intMin w ≤ -n then some (-n) else none) =
      .ok (if InRange w (sign.apply n) then (success, sign.apply n, errorCreate)
        else (errArith, dest, ⟨errArith, ⟨text, []⟩⟩)) := by
  have hneg := intMin_neg w
  have hmax := intMax_eq w
  by_cases hsign : sign = .minus
  · subst hsign
    by_cases hmin : intMin w ≤ -n
    · have hfits : InRange w (-n) := ⟨hmin, by omega⟩
      rw [if_pos hmin, Sign.apply, if_pos hfits]
      rfl
    · rw [if_neg hmin, Sign.apply, if_neg fun h => hmin h.1]
      rfl
  · have happly : sign.apply n = n := by
      cases sign with
      | none => rfl
      | plus => rfl
      | minus => exact absurd rfl hsign
    rw [happly, decide_eq_false hsign]
    by_cases hmin : intMin w ≤ -n
    · rw [if_pos hmin, conclude, if_neg nofun]
      by_cases hlast : -n = intMin w
      · have hout : ¬ InRange w n := fun h => by have := h.2; omega
        rw [if_pos hlast, if_neg hout, failed_fresh]
      · have hfits : InRange w n := ⟨by omega, by omega⟩
        rw [if_neg hlast, neg_neg, signed_of_inRange hfits, ok_bind, if_pos hfits]
    · have hout : ¬ InRange w n := fun h => by have := h.2; omega
      rw [if_neg hmin, if_neg hout]
      rfl

/-- The value is stored exactly where it fits the type. -/
theorem parseExpect_eq (build : Build) (hw : 8 ≤ w) (text : String) (sign : Sign)
    (hdigits : digits ≠ []) (hnum : ∀ c ∈ digits, isNum c) (dest : Int) :
    parseExpect build w text dest (sign.text ++ digits) errorCreate =
      .ok (if InRange w (sign.apply (decimal digits))
        then (success, sign.apply (decimal digits), errorCreate)
        else (errArith, dest, ⟨errArith, ⟨text, []⟩⟩)) := by
  have hpos : 0 < (sign.text ++ digits).length := by
    rw [List.length_append]
    have := List.length_pos_iff.mpr hdigits
    omega
  have hneg := intMin_neg w
  have hvalue : 0 ≤ decimal digits := le_decimalFrom le_rfl hnum
  have hloop := accumulate_eq build hw le_rfl (show intMin w ≤ -0 by omega) hnum
  rw [neg_zero] at hloop
  rw [parseExpect, assert_pos hpos, ok_bind, readSign_eq sign hdigits hnum, ok_bind]
  dsimp only
  rw [hloop, ok_bind]
  exact conclude_eq text sign hvalue dest

end Parse

/-- Both functions are exact on every numeral, in either build. -/
theorem parse_expect_exact (build : Build) (sign : Sign) (digits : List UInt8)
    (hdigits : digits ≠ []) (hnum : ∀ c ∈ digits, isNum c) (dest : Int) :
    parseI32Expect build dest (sign.text ++ digits) errorCreate =
      .ok (if InRange 32 (sign.apply (decimal digits))
        then (success, sign.apply (decimal digits), errorCreate)
        else (errArith, dest, ⟨errArith, ⟨"i32 overflow", []⟩⟩)) ∧
    parseI64Expect build dest (sign.text ++ digits) errorCreate =
      .ok (if InRange 64 (sign.apply (decimal digits))
        then (success, sign.apply (decimal digits), errorCreate)
        else (errArith, dest, ⟨errArith, ⟨"i64 overflow", []⟩⟩)) :=
  ⟨parseExpect_eq build (by decide) "i32 overflow" sign hdigits hnum dest,
    parseExpect_eq build (by decide) "i64 overflow" sign hdigits hnum dest⟩

/-- `-2147483648` is read. -/
theorem parse_expect_minimum :
    parseI32Expect .builtin 7 (Sign.minus.text ++ [50, 49, 52, 55, 52, 56, 51, 54, 52, 56])
      errorCreate = .ok (success, intMin 32, errorCreate) := by
  have hvalue : Sign.minus.apply (decimal [50, 49, 52, 55, 52, 56, 51, 54, 52, 56]) =
      intMin 32 := by
    decide +kernel
  have hfits : InRange 32 (intMin 32) := by decide +kernel
  have hparse := (parse_expect_exact .builtin .minus [50, 49, 52, 55, 52, 56, 51, 54, 52, 56]
    (by decide) (by decide +kernel) 7).1
  rw [hvalue, if_pos hfits] at hparse
  exact hparse

example : parseI32Expect .fallback 7 [50, 49, 52, 55, 52, 56, 51, 54, 52, 56] errorCreate =
    .ok (errArith, 7, ⟨errArith, ⟨"i32 overflow", []⟩⟩) := by decide +kernel

end ParseNumbers
