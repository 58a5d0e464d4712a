import CSpecx.HashTableRuns

/-!
# Random numbers of a range

A draw of `randu64` is scaled down by the size of the range, with the high half
of a product of 128 bits. Under `_MSC_VER` the size has only 64 bits.
-/

namespace RandomRanges

open CExec

inductive Build where
  | msvc
  | other
  deriving DecidableEq, Repr

/-- The high half of the product, which `_umul128` stores. -/
def umul128 (a b : BitVec 64) : BitVec 64 :=
  ((a.setWidth 128 * b.setWidth 128) >>> 64).setWidth 64

/-- The other branch keeps the size of the range in 128 bits. -/
def mulHigh (draw : BitVec 64) (range : BitVec 128) : BitVec 64 :=
  ((draw.setWidth 128 * range) >>> 64).setWidth 64

/-- `draw` is the value of `randu64`. -/
def randu64r (build : Build) (lower upper draw : BitVec 64) : Outcome (BitVec 64) := do
  assert (lower ≤ upper)
  if upper = lower then .ok lower
  else match build with
    | .msvc => .ok (lower + umul128 draw (upper - lower + 1#64))
    | .other => .ok (lower + mulHigh draw (upper.setWidth 128 - lower.setWidth 128 + 1#128))

def randi64r (build : Build) (lower upper draw : BitVec 64) : Outcome (BitVec 64) := do
  assert (lower.toInt ≤ upper.toInt)
  if upper = lower then .ok lower
  else match build with
    | .msvc => .ok (lower + umul128 draw (upper - lower + 1#64))
    | .other => .ok (lower + mulHigh draw (upper.signExtend 128 - lower.signExtend 128 + 1#128))

def randu32r (build : Build) (lower upper : BitVec 32) (draw : BitVec 64) :
    Outcome (BitVec 32) := do
  assert (lower ≤ upper)
  if upper = lower then .ok lower
  else do
    let r ← randu64r build (lower.setWidth 64) (upper.setWidth 64) draw
    .ok (r.setWidth 32)

def randi32r (build : Build) (lower upper : BitVec 32) (draw : BitVec 64) :
    Outcome (BitVec 32) := do
  assert (lower.toInt ≤ upper.toInt)
  if upper = lower then .ok lower
  else do
    let range := upper.signExtend 64 - lower.signExtend 64 + 1#64
    let r ← randu64r build 0#64 (range - 1#64) draw
    .ok (lower + r.setWidth 32)

/-! ## Scaling -/

section Scaling

theorem scaled_lt {m size d : Nat} (hd : d < m) (hsize : 0 < size) : d * size / m < size :=
  Nat.div_lt_of_lt_mul (Nat.mul_lt_mul_of_pos_right hd hsize)

/-- The draw at which the scaled value becomes `k`. -/
theorem scaled_onto (m size k : Nat) (hle : size ≤ m) (hk : k < size) :
    ∃ d < m, d * size / m = k := by
  have hsize : 0 < size := by omega
  refine ⟨(k * m + (size - 1)) / size, ?_, ?_⟩
  · refine Nat.div_lt_of_lt_mul ?_
    have hlast : k * m + m ≤ size * m := by
      rw [← Nat.succ_mul]
      exact Nat.mul_le_mul_right m hk
    omega
  · have hdiv := Nat.div_add_mod (k * m + (size - 1)) size
    have hmod := Nat.mod_lt (k * m + (size - 1)) hsize
    rw [Nat.mul_comm size] at hdiv
    refine Nat.div_eq_of_lt_le (by omega) ?_
    rw [Nat.succ_mul]
    omega

end Scaling

/-- Every draw gives a value of the range, and every value of the range has a draw. -/
def Covers {α : Type} (draws : BitVec 64 → Outcome α) (range : α → Prop) : Prop :=
  (∀ draw, ∃ v, draws draw = .ok v ∧ range v) ∧ ∀ v, range v → ∃ draw, draws draw = .ok v

/-- The number that a draw is scaled to. -/
def scaled (size : Int) (draw : BitVec 64) : Nat := draw.toNat * size.toNat / 2 ^ 64

section Bits

variable {w : Nat} {range : BitVec 128} {draw : BitVec 64}

theorem scaled_lt_size {size : Int} (hsize : 0 < size) (draw : BitVec 64) :
    scaled size draw < size := by
  have hlt : scaled size draw < size.toNat := scaled_lt draw.isLt (by omega)
  omega

theorem covers_of_scaled {α : Type} {draws : BitVec 64 → Outcome α} {value : α → Int}
    (hinj : Function.Injective value) {lower upper : Int} (hle : lower ≤ upper)
    (hsize : upper - lower < 2 ^ 64)
    (h : ∀ draw, ∃ v, draws draw = .ok v ∧ value v = lower + scaled (upper - lower + 1) draw) :
    Covers draws fun v => lower ≤ value v ∧ value v ≤ upper := by
  constructor
  · intro draw
    obtain ⟨v, hret, hvalue⟩ := h draw
    have hlt := scaled_lt_size (show 0 < upper - lower + 1 by omega) draw
    exact ⟨v, hret, by omega, by omega⟩
  · rintro v ⟨hlow, hhigh⟩
    obtain ⟨d, hd, hdraw⟩ := scaled_onto (2 ^ 64) (upper - lower + 1).toNat
      (value v - lower).toNat (by omega) (by omega)
    obtain ⟨v', hret, hvalue⟩ := h (BitVec.ofNat 64 d)
    have hsame : v' = v := by
      refine hinj ?_
      rw [hvalue, scaled, BitVec.toNat_ofNat, Nat.mod_eq_of_lt hd, hdraw]
      omega
    exact ⟨_, hsame ▸ hret⟩

theorem toNat_cast_injective : Function.Injective fun v : BitVec w => (v.toNat : Int) :=
  fun _ _ h => BitVec.eq_of_toNat_eq (Int.ofNat_inj.mp h)

/-- With no more than 2 ^ 64 values the product does not overflow. -/
theorem toNat_mulHigh {size : Int} (hrange : (range.toNat : Int) = size) (hsize : size ≤ 2 ^ 64)
    (draw : BitVec 64) : (mulHigh draw range).toNat = scaled size draw := by
  have hdraw := draw.isLt
  have hprod : draw.toNat * range.toNat ≤ draw.toNat * 2 ^ 64 :=
    Nat.mul_le_mul_left _ (by omega)
  rw [← hrange, scaled, Int.toNat_natCast, mulHigh, BitVec.toNat_setWidth, BitVec.toNat_ushiftRight,
    BitVec.toNat_mul, BitVec.toNat_setWidth, Nat.shiftRight_eq_div_pow,
    Nat.mod_eq_of_lt (show draw.toNat < 2 ^ 128 by omega),
    Nat.mod_eq_of_lt (show draw.toNat * range.toNat < 2 ^ 128 by omega), Nat.mod_eq_of_lt]
  omega

theorem toNat_unsignedRange {lower upper : BitVec 64} (hle : lower.toNat ≤ upper.toNat) :
    ((upper.setWidth 128 - lower.setWidth 128 + 1#128).toNat : Int) =
      upper.toNat - lower.toNat + 1 := by
  have hupper := upper.isLt
  rw [BitVec.toNat_add, BitVec.toNat_sub, BitVec.toNat_setWidth, BitVec.toNat_setWidth,
    BitVec.toNat_ofNat]
  omega

/-- The size of a signed range, in a type that is wide enough for it. -/
theorem toNat_signedRange {k : Nat} (hk : w + 1 < k) {lower upper : BitVec w}
    (hle : lower.toInt ≤ upper.toInt) :
    ((upper.signExtend k - lower.signExtend k + 1#k).toNat : Int) =
      upper.toInt - lower.toInt + 1 := by
  have hlow := lower.le_two_mul_toInt
  have hhigh := upper.two_mul_toInt_lt
  have hwide : (2 : Int) ^ (w + 1) ≤ 2 ^ (k - 1) := pow_le_pow_right₀ (by decide) (by omega)
  have hpow : (2 : Int) ^ (w + 1) = 2 * 2 ^ w := pow_succ' 2 w
  have hpos : (0 : Int) < 2 ^ w := Int.pow_pos (by decide)
  have htwo : ((2 ^ k : Nat) : Int) = 2 * 2 ^ (k - 1) := by
    rw [Nat.cast_pow, Nat.cast_two, ← pow_succ', Nat.sub_add_cancel (by omega)]
  have hone : (1#k).toInt = 1 := BitVec.toInt_one (by omega)
  have hint : (upper.signExtend k - lower.signExtend k + 1#k).toInt =
      upper.toInt - lower.toInt + 1 := by
    rw [BitVec.toInt_add, BitVec.toInt_sub, hone, BitVec.toInt_signExtend_of_le (by omega),
      BitVec.toInt_signExtend_of_le (by omega), Int.bmod_add_bmod]
    exact Int.bmod_eq_of_le (by omega) (by omega)
  rw [← hint, BitVec.toInt_eq_toNat_cond]
  split
  · rfl
  · rw [BitVec.toInt_eq_toNat_cond] at hint
    have hlt := (upper.signExtend k - lower.signExtend k + 1#k).isLt
    omega

/-- An offset that stays within the range does not wrap. -/
theorem toInt_offset {lower r : BitVec w} (upper : BitVec w)
    (h : lower.toInt + r.toNat ≤ upper.toInt) :
    (lower + r).toInt = lower.toInt + r.toNat := by
  have hlow := lower.le_two_mul_toInt
  have hhigh := upper.two_mul_toInt_lt
  have hcast : ((2 ^ w : Nat) : Int) = 2 ^ w := by rw [Nat.cast_pow, Nat.cast_two]
  rw [BitVec.toInt_add, BitVec.toInt_eq_toNat_bmod r, Int.add_bmod_bmod]
  exact Int.bmod_eq_of_le (by omega) (by omega)

end Bits

/-! ## The four generators -/

section Generators

variable {draw : BitVec 64}

theorem scaled_one (draw : BitVec 64) : scaled 1 draw = 0 := by
  have hlt := scaled_lt_size (show 0 < (1 : Int) by decide) draw
  omega

/-- A range of one value needs no draw. -/
theorem single_value {α : Type} (value : α → Int) (v : α) (draw : BitVec 64) :
    ∃ v', (.ok v : Outcome α) = .ok v' ∧
      value v' = value v + scaled (value v - value v + 1) draw := by
  refine ⟨v, rfl, ?_⟩
  rw [Int.sub_self, Int.zero_add, scaled_one]
  exact (Int.add_zero _).symm

theorem randu64r_eq {lower upper : BitVec 64} (hle : lower ≤ upper) (draw : BitVec 64) :
    ∃ v, randu64r .other lower upper draw = .ok v ∧
      (v.toNat : Int) = lower.toNat + scaled (upper.toNat - lower.toNat + 1) draw := by
  have hnat : lower.toNat ≤ upper.toNat := hle
  have hupper := upper.isLt
  rw [randu64r, assert_pos hle, ok_bind]
  by_cases hsame : upper = lower
  · rw [if_pos hsame, hsame]
    exact single_value (fun v => (v.toNat : Int)) lower draw
  · rw [if_neg hsame]
    have hhigh := toNat_mulHigh (toNat_unsignedRange hnat) (by omega) draw
    have hlt := scaled_lt_size (show 0 < (upper.toNat : Int) - lower.toNat + 1 by omega) draw
    refine ⟨_, rfl, ?_⟩
    rw [BitVec.toNat_add, hhigh, Nat.mod_eq_of_lt (by omega), Nat.cast_add]

theorem randi64r_eq {lower upper : BitVec 64} (hle : lower.toInt ≤ upper.toInt)
    (draw : BitVec 64) :
    ∃ v, randi64r .other lower upper draw = .ok v ∧
      v.toInt = lower.toInt + scaled (upper.toInt - lower.toInt + 1) draw := by
  have hlow := lower.le_two_mul_toInt
  have hupper := upper.two_mul_toInt_lt
  rw [randi64r, assert_pos hle, ok_bind]
  by_cases hsame : upper = lower
  · rw [if_pos hsame, hsame]
    exact single_value BitVec.toInt lower draw
  · rw [if_neg hsame]
    have hrange := toNat_signedRange (show 64 + 1 < 128 by decide) hle
    have hhigh := toNat_mulHigh hrange (by omega) draw
    have hlt := scaled_lt_size (show 0 < upper.toInt - lower.toInt + 1 by omega) draw
    refine ⟨_, rfl, ?_⟩
    rw [toInt_offset upper (by omega), hhigh]

theorem randu32r_eq {lower upper : BitVec 32} (hle : lower ≤ upper) (draw : BitVec 64) :
    ∃ v, randu32r .other lower upper draw = .ok v ∧
      (v.toNat : Int) = lower.toNat + scaled (upper.toNat - lower.toNat + 1) draw := by
  have hnat : lower.toNat ≤ upper.toNat := hle
  have hupper := upper.isLt
  rw [randu32r, assert_pos hle, ok_bind]
  by_cases hsame : upper = lower
  · rw [if_pos hsame, hsame]
    exact single_value (fun v => (v.toNat : Int)) lower draw
  · rw [if_neg hsame]
    have hlower : (lower.setWidth 64).toNat = lower.toNat := by
      rw [BitVec.toNat_setWidth]
      omega
    have hwide : (upper.setWidth 64).toNat = upper.toNat := by
      rw [BitVec.toNat_setWidth]
      omega
    have hle' : lower.setWidth 64 ≤ upper.setWidth 64 := by
      rw [BitVec.le_def, hlower, hwide]
      exact hnat
    obtain ⟨r, hret, hr⟩ := randu64r_eq hle' draw
    rw [hlower, hwide] at hr
    have hlt := scaled_lt_size (show 0 < (upper.toNat : Int) - lower.toNat + 1 by omega) draw
    rw [hret, ok_bind]
    refine ⟨_, rfl, ?_⟩
    rw [BitVec.toNat_setWidth, Nat.mod_eq_of_lt (by omega), hr]

theorem randi32r_eq {lower upper : BitVec 32} (hle : lower.toInt ≤ upper.toInt)
    (draw : BitVec 64) :
    ∃ v, randi32r .other lower upper draw = .ok v ∧
      v.toInt = lower.toInt + scaled (upper.toInt - lower.toInt + 1) draw := by
  have hlow := lower.le_two_mul_toInt
  have hupper := upper.two_mul_toInt_lt
  rw [randi32r, assert_pos hle, ok_bind]
  by_cases hsame : upper = lower
  · rw [if_pos hsame, hsame]
    exact single_value BitVec.toInt lower draw
  · rw [if_neg hsame]
    have hrange := toNat_signedRange (show 32 + 1 < 64 by decide) hle
    dsimp only
    generalize upper.signExtend 64 - lower.signExtend 64 + 1#64 = range at hrange ⊢
    have hzero : 0#64 ≤ range - 1#64 := BitVec.le_def.mpr (Nat.zero_le _)
    have hlast : ((range - 1#64).toNat : Int) = upper.toInt - lower.toInt := by
      rw [BitVec.toNat_sub, BitVec.toNat_ofNat]
      omega
    obtain ⟨r, hret, hr⟩ := randu64r_eq hzero draw
    rw [hlast, BitVec.toNat_ofNat, Nat.zero_mod, Nat.cast_zero, Int.sub_zero, Int.zero_add] at hr
    have hlt := scaled_lt_size (show 0 < upper.toInt - lower.toInt + 1 by omega) draw
    have hnarrow : (r.setWidth 32).toNat = r.toNat := by
      rw [BitVec.toNat_setWidth]
      omega
    rw [hret, ok_bind]
    refine ⟨_, rfl, ?_⟩
    rw [toInt_offset upper (by omega), hnarrow, hr]

/-- The hash table draws with the same numbers. -/
theorem randu64r_toNat (lower upper draw : BitVec 64) :
    (randu64r .other lower upper draw).map BitVec.toNat =
      HashTable.randu64r lower.toNat upper.toNat draw.toNat := by
  rw [HashTable.randu64r]
  by_cases hle : lower ≤ upper
  · have hnat : lower.toNat ≤ upper.toNat := hle
    obtain ⟨v, hret, hv⟩ := randu64r_eq hle draw
    have hsize : ((upper.toNat : Int) - lower.toNat + 1).toNat = upper.toNat - lower.toNat + 1 := by
      omega
    rw [scaled, hsize] at hv
    have hvalue : v.toNat =
        lower.toNat + draw.toNat * (upper.toNat - lower.toNat + 1) / 2 ^ 64 := by omega
    rw [hret, assert_pos hnat, ok_bind, Nat.mod_eq_of_lt draw.isLt, ← hvalue]
    by_cases hsame : upper.toNat = lower.toNat
    · rw [if_pos hsame, Except.map, hvalue, hsame, Nat.sub_self, Nat.zero_add, Nat.mul_one,
        Nat.div_eq_of_lt draw.isLt, Nat.add_zero]
    · rw [if_neg hsame]
      rfl
  · have hnat : ¬ lower.toNat ≤ upper.toNat := hle
    rw [randu64r, assert_neg hle, assert_neg hnat]
    rfl

theorem randu32r_other_covers {lower upper : BitVec 32} (hle : lower ≤ upper) :
    Covers (randu32r .other lower upper) fun v => lower ≤ v ∧ v ≤ upper := by
  have hnat : lower.toNat ≤ upper.toNat := hle
  have hupper := upper.isLt
  have hcovers := covers_of_scaled toNat_cast_injective (by omega) (by omega) (randu32r_eq hle)
  simpa only [Nat.cast_le, BitVec.le_def] using hcovers

end Generators

/-- The four generators stay in their range and miss no value of it. -/
theorem ranged_covers :
    (∀ lower upper : BitVec 64, lower ≤ upper →
      Covers (randu64r .other lower upper) fun v => lower ≤ v ∧ v ≤ upper) ∧
    (∀ lower upper : BitVec 64, lower.toInt ≤ upper.toInt →
      Covers (randi64r .other lower upper) fun v =>
        lower.toInt ≤ v.toInt ∧ v.toInt ≤ upper.toInt) ∧
    (∀ lower upper : BitVec 32, lower ≤ upper →
      Covers (randu32r .other lower upper) fun v => lower ≤ v ∧ v ≤ upper) ∧
    (∀ lower upper : BitVec 32, lower.toInt ≤ upper.toInt →
      Covers (randi32r .other lower upper) fun v =>
        lower.toInt ≤ v.toInt ∧ v.toInt ≤ upper.toInt) := by
  refine ⟨fun lower upper hle => ?_, fun lower upper hle => ?_, fun lower upper hle => ?_,
    fun lower upper hle => ?_⟩
  · have hnat : lower.toNat ≤ upper.toNat := hle
    have hupper := upper.isLt
    have hcovers := covers_of_scaled toNat_cast_injective (by omega) (by omega) (randu64r_eq hle)
    simpa only [Nat.cast_le, BitVec.le_def] using hcovers
  · have hlow := lower.le_two_mul_toInt
    have hupper := upper.two_mul_toInt_lt
    exact covers_of_scaled (fun _ _ => BitVec.eq_of_toInt_eq) hle (by omega) (randi64r_eq hle)
  · exact randu32r_other_covers hle
  · have hlow := lower.le_two_mul_toInt
    have hupper := upper.two_mul_toInt_lt
    exact covers_of_scaled (fun _ _ => BitVec.eq_of_toInt_eq) hle (by omega) (randi32r_eq hle)

/-! ## The two builds -/

section Builds

variable {lower upper draw : BitVec 64}

theorem scaled_whole (draw : BitVec 64) : scaled (2 ^ 64) draw = draw.toNat := by
  rw [scaled, show ((2 : Int) ^ 64).toNat = 2 ^ 64 by decide]
  exact Nat.mul_div_cancel _ (by decide)

theorem scaled_zero (draw : BitVec 64) : scaled 0 draw = 0 := by
  rw [scaled, Int.toNat_zero, Nat.mul_zero, Nat.zero_div]

/-- In 64 bits the size of the whole type is zero. -/
theorem high_agree_iff {r : BitVec 64} {range : BitVec 128} {size : Int}
    (hrange : (range.toNat : Int) = size) (hpos : 0 < size) (hsize : size ≤ 2 ^ 64)
    (hr : (r.toNat : Int) = size % 2 ^ 64) (lower draw : BitVec 64) :
    lower + umul128 draw r = lower + mulHigh draw range ↔ size ≠ 2 ^ 64 ∨ draw = 0#64 := by
  have hwide : ((r.setWidth 128).toNat : Int) = size % 2 ^ 64 := by
    rw [← hr, BitVec.toNat_setWidth, Nat.mod_eq_of_lt (by omega)]
  have hmsvc : (umul128 draw r).toNat = scaled (size % 2 ^ 64) draw :=
    toNat_mulHigh hwide (by omega) draw
  have hother := toNat_mulHigh hrange hsize draw
  rw [BitVec.add_right_inj, ← BitVec.toNat_inj, hmsvc, hother]
  by_cases hwhole : size = 2 ^ 64
  · rw [hwhole, Int.emod_self, scaled_zero, scaled_whole, ← BitVec.toNat_inj, BitVec.toNat_ofNat]
    omega
  · rw [Int.emod_eq_of_lt (by omega) (by omega)]
    exact iff_of_true rfl (.inl hwhole)

theorem whole_unsigned_iff :
    (upper.toNat : Int) - lower.toNat + 1 ≠ 2 ^ 64 ↔
      ¬ (lower = 0#64 ∧ upper = BitVec.allOnes 64) := by
  have hupper := upper.isLt
  have hones : (BitVec.allOnes 64).toNat = 2 ^ 64 - 1 := BitVec.toNat_allOnes
  have hzero : (0#64).toNat = 0 := rfl
  rw [← BitVec.toNat_inj, ← BitVec.toNat_inj, hones, hzero]
  omega

theorem whole_signed_iff :
    upper.toInt - lower.toInt + 1 ≠ 2 ^ 64 ↔
      ¬ (lower = BitVec.intMin 64 ∧ upper = BitVec.intMax 64) := by
  have hlow := lower.le_two_mul_toInt
  have hupper := upper.two_mul_toInt_lt
  have hmin : (BitVec.intMin 64).toInt = -2 ^ 63 := BitVec.toInt_intMin_of_pos (by decide)
  have hmax : (BitVec.intMax 64).toInt = 2 ^ 63 - 1 := BitVec.toInt_intMax
  rw [← BitVec.toInt_inj, ← BitVec.toInt_inj, hmin, hmax]
  have hlow' := lower.two_mul_toInt_lt
  have hupper' := upper.le_two_mul_toInt
  omega

theorem randu64r_agree_iff (lower upper draw : BitVec 64) :
    randu64r .msvc lower upper draw = randu64r .other lower upper draw ↔
      ¬ (lower = 0#64 ∧ upper = BitVec.allOnes 64) ∨ draw = 0#64 := by
  have hupper := upper.isLt
  rw [← whole_unsigned_iff, randu64r, randu64r]
  by_cases hle : lower ≤ upper
  · have hnat : lower.toNat ≤ upper.toNat := hle
    rw [assert_pos hle, ok_bind, ok_bind]
    by_cases hsame : upper = lower
    · rw [if_pos hsame, if_pos hsame, hsame]
      exact iff_of_true rfl (.inl (by omega))
    · rw [if_neg hsame, if_neg hsame, Except.ok.injEq]
      refine high_agree_iff (toNat_unsignedRange hnat) (by omega) (by omega) ?_ lower draw
      rw [BitVec.toNat_add, BitVec.toNat_sub, BitVec.toNat_ofNat]
      omega
  · have hnat : ¬ lower.toNat ≤ upper.toNat := hle
    rw [assert_neg hle, error_bind, error_bind]
    exact iff_of_true rfl (.inl (by omega))

theorem randi64r_agree_iff (lower upper draw : BitVec 64) :
    randi64r .msvc lower upper draw = randi64r .other lower upper draw ↔
      ¬ (lower = BitVec.intMin 64 ∧ upper = BitVec.intMax 64) ∨ draw = 0#64 := by
  have hlow := lower.le_two_mul_toInt
  have hupper := upper.two_mul_toInt_lt
  rw [← whole_signed_iff, randi64r, randi64r]
  by_cases hle : lower.toInt ≤ upper.toInt
  · rw [assert_pos hle, ok_bind, ok_bind]
    by_cases hsame : upper = lower
    · rw [if_pos hsame, if_pos hsame, hsame]
      exact iff_of_true rfl (.inl (by omega))
    · rw [if_neg hsame, if_neg hsame, Except.ok.injEq]
      refine high_agree_iff (toNat_signedRange (by decide) hle) (by omega) (by omega) ?_ lower draw
      rw [BitVec.toNat_add, BitVec.toNat_sub, BitVec.toNat_ofNat, BitVec.toInt_eq_toNat_cond upper,
        BitVec.toInt_eq_toNat_cond lower]
      split_ifs <;> omega
  · rw [assert_neg hle, error_bind, error_bind]
    exact iff_of_true rfl (.inl (by omega))

/-- A range of 32 bits is not the whole type of 64. -/
theorem randu32r_builds (lower upper : BitVec 32) :
    randu32r .msvc lower upper = randu32r .other lower upper := by
  funext draw
  have hwide : upper.setWidth 64 ≠ BitVec.allOnes 64 := by
    intro heq
    have hnat := congrArg BitVec.toNat heq
    rw [BitVec.toNat_setWidth, BitVec.toNat_allOnes] at hnat
    have hupper := upper.isLt
    omega
  rw [randu32r, randu32r, (randu64r_agree_iff _ _ draw).mpr (.inl fun h => hwide h.2)]

theorem randu32r_covers (build : Build) {lower upper : BitVec 32} (hle : lower ≤ upper) :
    Covers (randu32r build lower upper) fun v => lower ≤ v ∧ v ≤ upper := by
  cases build with
  | msvc =>
    rw [randu32r_builds]
    exact randu32r_other_covers hle
  | other => exact randu32r_other_covers hle

end Builds

/-- The builds agree except on draws from the whole type. -/
theorem builds_agree_iff (lower upper draw : BitVec 64) :
    (randu64r .msvc lower upper draw = randu64r .other lower upper draw ↔
      ¬ (lower = 0#64 ∧ upper = BitVec.allOnes 64) ∨ draw = 0#64) ∧
    (randi64r .msvc lower upper draw = randi64r .other lower upper draw ↔
      ¬ (lower = BitVec.intMin 64 ∧ upper = BitVec.intMax 64) ∨ draw = 0#64) :=
  ⟨randu64r_agree_iff lower upper draw, randi64r_agree_iff lower upper draw⟩

/-- From the whole type one build draws 5 and the other one zero. -/
theorem builds_differ_whole :
    randu64r .msvc 0#64 (BitVec.allOnes 64) 5#64 = .ok 0#64 ∧
    randu64r .other 0#64 (BitVec.allOnes 64) 5#64 = .ok 5#64 ∧
    ¬ ∀ lower upper draw : BitVec 64, lower ≤ upper →
      randu64r .msvc lower upper draw = randu64r .other lower upper draw := by
  have hmsvc : randu64r .msvc 0#64 (BitVec.allOnes 64) 5#64 = .ok 0#64 := by decide +kernel
  have hother : randu64r .other 0#64 (BitVec.allOnes 64) 5#64 = .ok 5#64 := by decide +kernel
  refine ⟨hmsvc, hother, fun h => ?_⟩
  have hsame := h 0#64 (BitVec.allOnes 64) 5#64 (by decide)
  rw [hmsvc, hother, Except.ok.injEq] at hsame
  exact absurd hsame (by decide)

end RandomRanges
