import CSpecx.BinaryFloats
import CSpecx.CExec
import Mathlib.Data.Nat.Bitwise

/-!
# Half precision to single precision

`f16_to_f32` of `math.c` on the bits of its argument; the bits of the result are
those that `memcpy` turns into the `float`. A subnormal number is normalised by
the loop, so its exponent falls by one with every shift.
-/

namespace HalfFloats

open CExec BinaryFloats

/-- The shifts of the mantissa until the first set bit is at position 10. -/
def normalizeLoop : Nat → BitVec 32 → BitVec 32 → Outcome (BitVec 32 × BitVec 32)
  | 0, _, _ => .error .fuel
  | fuel + 1, mant, e =>
    if mant &&& 0x400#32 = 0#32 then normalizeLoop fuel (mant <<< 1) (e + 1#32) else .ok (mant, e)

def f16ToF32 (h : BitVec 16) : Outcome (BitVec 32) := do
  let sign := (h >>> 15).setWidth 32 &&& 1#32
  let exp := (h >>> 10).setWidth 32 &&& 0x1F#32
  let mant := h.setWidth 32 &&& 0x3FF#32
  if exp = 0#32 then
    if mant = 0#32 then .ok (sign <<< 31)
    else do
      let (mant, e) ← normalizeLoop 32 mant 0#32
      let mant := mant &&& 0x3FF#32
      .ok ((sign <<< 31) ||| ((113#32 - e) <<< 23) ||| (mant <<< 13))
  else if exp = 31#32 then .ok ((sign <<< 31) ||| 0x7F800000#32 ||| (mant <<< 13))
  else .ok ((sign <<< 31) ||| ((exp + 112#32) <<< 23) ||| (mant <<< 13))

def binary16 : Format := ⟨5, 10⟩

def binary32 : Format := ⟨8, 23⟩

theorem wider : Wider binary16 binary32 13 112 := ⟨rfl, by decide⟩

section Bits

variable {mant e : BitVec 32}

/-- A field moved to its place beside the digits below it. -/
theorem mul_or_eq_add {a b k : Nat} (h : b < 2 ^ k) : a * 2 ^ k ||| b = a * 2 ^ k + b := by
  rw [← Nat.shiftLeft_eq, Nat.shiftLeft_add_eq_or_of_lt h]

theorem toNat_shiftLeft_of_lt {a : BitVec 32} {k : Nat} (h : a.toNat * 2 ^ k < 2 ^ 32) :
    (a <<< k).toNat = a.toNat * 2 ^ k := by
  rw [BitVec.toNat_shiftLeft, Nat.shiftLeft_eq, Nat.mod_eq_of_lt h]

theorem toNat_mask {a : BitVec 32} {k : Nat} {mask : BitVec 32} (h : mask.toNat = 2 ^ k - 1) :
    (a &&& mask).toNat = a.toNat % 2 ^ k := by
  rw [BitVec.toNat_and, h, Nat.and_two_pow_sub_one_eq_mod]

/-- The fields of a result. -/
theorem toNat_fields {a b c : BitVec 32} (ha : a.toNat < 2) (hb : b.toNat < 2 ^ 8)
    (hc : c.toNat < 2 ^ 10) : ((a <<< 31) ||| (b <<< 23) ||| (c <<< 13)).toNat =
      a.toNat * 2 ^ 31 + (b.toNat * 2 ^ 23 + c.toNat * 2 ^ 13) := by
  have hlow : ((b <<< 23) ||| (c <<< 13)).toNat = b.toNat * 2 ^ 23 + c.toNat * 2 ^ 13 := by
    rw [BitVec.toNat_or, toNat_shiftLeft_of_lt (by omega), toNat_shiftLeft_of_lt (by omega),
      mul_or_eq_add (by omega)]
  rw [BitVec.or_assoc, BitVec.toNat_or, hlow, toNat_shiftLeft_of_lt (by omega),
    mul_or_eq_add (by omega)]

/-- The test of the loop. -/
theorem and_hidden (h : mant.toNat < 2 ^ 11) :
    mant &&& 0x400#32 = 0#32 ↔ mant.toNat < 2 ^ 10 := by
  have hbit : (mant &&& 0x400#32).toNat = (mant.toNat.testBit 10).toNat * 2 ^ 10 := by
    rw [BitVec.toNat_and]
    exact Nat.and_two_pow mant.toNat 10
  rw [← BitVec.toNat_inj, hbit, Nat.testBit_eq_decide_div_mod_eq]
  by_cases hlt : mant.toNat < 2 ^ 10
  · rw [Nat.div_eq_of_lt hlt]
    exact iff_of_true rfl hlt
  · have hone : mant.toNat / 2 ^ 10 = 1 := by omega
    rw [hone]
    exact iff_of_false (by decide) hlt

/-- The loop ends with the first digit at position 10, and `e` counts the shifts. -/
theorem normalizeLoop_spec {fuel : Nat} (hlt : mant.toNat < 2 ^ 11)
    (hfuel : 2 ^ 11 ≤ mant.toNat * 2 ^ fuel) :
    ∃ k mant', normalizeLoop fuel mant e = .ok (mant', e + BitVec.ofNat 32 k) ∧
      mant'.toNat = mant.toNat * 2 ^ k ∧ 2 ^ 10 ≤ mant'.toNat ∧ mant'.toNat < 2 ^ 11 := by
  induction fuel generalizing mant e with
  | zero => omega
  | succ fuel ih =>
    rw [normalizeLoop]
    by_cases hsmall : mant.toNat < 2 ^ 10
    · have hdouble : (mant <<< 1).toNat = mant.toNat * 2 ^ 1 := toNat_shiftLeft_of_lt (by omega)
      have hfuel' : 2 ^ 11 ≤ (mant <<< 1).toNat * 2 ^ fuel := by
        rw [hdouble, pow_one, Nat.mul_assoc, ← pow_succ']
        exact hfuel
      obtain ⟨k, mant', hloop, hvalue, hrange⟩ := ih (e := e + 1#32) (by omega) hfuel'
      refine ⟨k + 1, mant', ?_, ?_, hrange⟩
      · rw [if_pos ((and_hidden hlt).mpr hsmall), hloop, BitVec.add_assoc, ← BitVec.ofNat_add,
          Nat.add_comm]
      · rw [hvalue, hdouble, pow_one, pow_succ', Nat.mul_assoc]
    · refine ⟨0, mant, ?_, ?_, by omega, hlt⟩
      · rw [if_neg (mt (and_hidden hlt).mp hsmall)]
        simp
      · rw [pow_zero, Nat.mul_one]

end Bits

section Conversion

/-- The fields that the function takes out of its argument. -/
theorem half_fields (h : BitVec 16) : ∃ negative : Bool,
    ((h >>> 15).setWidth 32 &&& 1#32).toNat = negative.toNat ∧
    ((h >>> 10).setWidth 32 &&& 0x1F#32).toNat < 2 ^ 5 ∧
    (h.setWidth 32 &&& 0x3FF#32).toNat < 2 ^ 10 ∧
    binary16.decode h.toNat = binary16.datum negative (binary16.body
      ((h >>> 10).setWidth 32 &&& 0x1F#32).toNat (h.setWidth 32 &&& 0x3FF#32).toNat) := by
  have hbound := h.isLt
  have hsign : ((h >>> 15).setWidth 32 &&& 1#32).toNat = h.toNat / 2 ^ 15 := by
    rw [toNat_mask (k := 1) rfl, BitVec.toNat_setWidth, BitVec.toNat_ushiftRight,
      Nat.shiftRight_eq_div_pow]
    omega
  have hexp : ((h >>> 10).setWidth 32 &&& 0x1F#32).toNat = h.toNat / 2 ^ 10 % 2 ^ 5 := by
    rw [toNat_mask (k := 5) rfl, BitVec.toNat_setWidth, BitVec.toNat_ushiftRight,
      Nat.shiftRight_eq_div_pow]
    omega
  have hmant : (h.setWidth 32 &&& 0x3FF#32).toNat = h.toNat % 2 ^ 10 := by
    rw [toNat_mask (k := 10) rfl, BitVec.toNat_setWidth]
    omega
  have hbody : binary16.body (h.toNat / 2 ^ 10 % 2 ^ 5) (h.toNat % 2 ^ 10) = h.toNat % 2 ^ 15 := by
    have hdiv : h.toNat / 2 ^ 10 % 2 ^ 5 * 2 ^ 10 + h.toNat % 2 ^ 10 = h.toNat % 2 ^ 15 := by omega
    exact hdiv
  refine ⟨decide (2 ^ 15 ≤ h.toNat), ?_, ?_, ?_, ?_⟩
  · rw [hsign]
    by_cases htop : 2 ^ 15 ≤ h.toNat
    · rw [decide_eq_true htop, Bool.toNat_true]
      omega
    · rw [decide_eq_false htop, Bool.toNat_false]
      omega
  · rw [hexp]
    exact Nat.mod_lt _ (by decide)
  · rw [hmant]
    exact Nat.mod_lt _ (by decide)
  · rw [hexp, hmant, hbody]
    rfl

variable {negative : Bool} {sign exponent mant : BitVec 32}

/-- What the fields of a result denote. -/
theorem decode_fields (hsign : sign.toNat = negative.toNat) (hexp : exponent.toNat < 2 ^ 8)
    (hmant : mant.toNat < 2 ^ 10) :
    binary32.decode ((sign <<< 31) ||| (exponent <<< 23) ||| (mant <<< 13)).toNat =
      binary32.datum negative (binary32.body exponent.toNat (mant.toNat * 2 ^ 13)) := by
  have hbit : negative.toNat < 2 := negative.toNat_lt
  have hbody : binary32.body exponent.toNat (mant.toNat * 2 ^ 13) < 2 ^ binary32.bodyBits := by
    have hlt : exponent.toNat * 2 ^ 23 + mant.toNat * 2 ^ 13 < 2 ^ 31 := by omega
    exact hlt
  rw [toNat_fields (hsign ▸ hbit) hexp hmant, hsign]
  exact decode_pack hbody

/-- A finite number whose digits are moved up by `k`. -/
theorem finite_exact {k half e : Nat} (digits : Nat) (hsign : sign.toNat = negative.toNat)
    (hk : k ≤ 10) (hlead : 2 ^ 10 ≤ digits * 2 ^ k) (hdigits : digits * 2 ^ k < 2 ^ 11)
    (hpos : 0 < e) (he : e ≤ 30) (hexp : exponent.toNat = e + 112 - k)
    (hmant : mant.toNat = digits * 2 ^ k - 2 ^ 10) (hhalf : binary16.exponent half < 31)
    (hunits : binary16.units half = digits * 2 ^ (e - 1)) :
    binary32.decode ((sign <<< 31) ||| (exponent <<< 23) ||| (mant <<< 13)).toNat =
      (binary16.datum negative half).extend 13 := by
  have htop : exponent.toNat < 255 := by omega
  have hmantissa : mant.toNat * 2 ^ 13 < 2 ^ binary32.mantissaBits := by
    have hlt : mant.toNat * 2 ^ 13 < 2 ^ 23 := by omega
    exact hlt
  rw [decode_fields hsign (by omega) (by omega)]
  refine wider.datum_finite negative hhalf.ne ?_ ?_
  · rw [exponent_body hmantissa]
    exact htop.ne
  · rw [hexp, hmant, hunits]
    exact wider.units_eq hlead hdigits hpos (by omega)

theorem zero_exact (hsign : sign.toNat = negative.toNat) :
    binary32.decode (sign <<< 31).toNat =
      (binary16.datum negative (binary16.body 0 0)).extend 13 := by
  have hbits : sign <<< 31 = (sign <<< 31) ||| (0#32 <<< 23) ||| (0#32 <<< 13) := by simp
  rw [hbits, decode_fields hsign (by decide) (by decide)]
  exact wider.datum_finite negative (by decide) (by decide) (by decide)

/-- The loop lowers the exponent from that of the least normal number. -/
theorem subnormal_exact (hsign : sign.toNat = negative.toNat) (hpos : 0 < mant.toNat)
    (hmant : mant.toNat < 2 ^ 10) : ∃ mant' e, normalizeLoop 32 mant 0#32 = .ok (mant', e) ∧
      binary32.decode ((sign <<< 31) ||| ((113#32 - e) <<< 23) |||
        ((mant' &&& 0x3FF#32) <<< 13)).toNat =
          (binary16.datum negative (binary16.body 0 mant.toNat)).extend 13 := by
  obtain ⟨k, mant', hloop, hvalue, hlead, hlast⟩ :=
    normalizeLoop_spec (e := 0#32) (show mant.toNat < 2 ^ 11 by omega)
      (show 2 ^ 11 ≤ mant.toNat * 2 ^ 32 by omega)
  have hk : k ≤ 10 := by
    have hpow : 2 ^ k < 2 ^ 11 :=
      (Nat.le_mul_of_pos_left (2 ^ k) hpos).trans_lt (hvalue ▸ hlast)
    have := (Nat.pow_lt_pow_iff_right (by decide)).mp hpow
    omega
  have hexp : (113#32 - (0#32 + BitVec.ofNat 32 k)).toNat = 1 + 112 - k := by
    rw [BitVec.zero_add, BitVec.toNat_sub, BitVec.toNat_ofNat, BitVec.toNat_ofNat]
    omega
  have hdigits : (mant' &&& 0x3FF#32).toNat = mant.toNat * 2 ^ k - 2 ^ 10 := by
    rw [toNat_mask (k := 10) rfl, ← hvalue]
    omega
  have hmantissa : mant.toNat < 2 ^ binary16.mantissaBits := hmant
  refine ⟨mant', _, hloop, finite_exact mant.toNat hsign hk (hvalue ▸ hlead)
    (hvalue ▸ hlast) Nat.one_pos (by decide) hexp hdigits ?_ ?_⟩
  · rw [exponent_body hmantissa]
    decide
  · rw [units_subnormal hmantissa, Nat.sub_self, pow_zero, Nat.mul_one]

theorem normal_exact (hsign : sign.toNat = negative.toNat) (hpos : 0 < exponent.toNat)
    (hexp : exponent.toNat < 31) (hmant : mant.toNat < 2 ^ 10) :
    binary32.decode ((sign <<< 31) ||| ((exponent + 112#32) <<< 23) ||| (mant <<< 13)).toNat =
      (binary16.datum negative (binary16.body exponent.toNat mant.toNat)).extend 13 := by
  have hmantissa : mant.toNat < 2 ^ binary16.mantissaBits := hmant
  have hsum : (exponent + 112#32).toNat = exponent.toNat + 112 - 0 := by
    rw [BitVec.toNat_add, BitVec.toNat_ofNat]
    omega
  refine finite_exact (k := 0) (2 ^ 10 + mant.toNat) hsign (Nat.zero_le _) (by omega)
    (by omega) hpos (by omega) hsum (by omega) ?_ (units_normal hmantissa hpos)
  rw [exponent_body hmantissa]
  exact hexp

theorem top_exact (hsign : sign.toNat = negative.toNat) (hmant : mant.toNat < 2 ^ 10) :
    binary32.decode ((sign <<< 31) ||| 0x7F800000#32 ||| (mant <<< 13)).toNat =
      (binary16.datum negative (binary16.body 31 mant.toNat)).extend 13 := by
  have hmantissa : mant.toNat < 2 ^ binary16.mantissaBits := hmant
  have hlong : mant.toNat * 2 ^ 13 < 2 ^ binary32.mantissaBits := by
    have hlt : mant.toNat * 2 ^ 13 < 2 ^ 23 := by omega
    exact hlt
  have hbits : 0x7F800000#32 = 255#32 <<< 23 := rfl
  rw [hbits, decode_fields hsign (by decide) hmant]
  refine datum_top negative (exponent_body hmantissa) (exponent_body hlong) ?_
  rw [mantissa_body hlong, mantissa_body hmantissa]

end Conversion

/-- Every number, infinity and NaN of half precision becomes the one pattern of single precision
for it: a number keeps its value and its sign, a NaN its payload in the upper digits. -/
theorem f16_exact (h : BitVec 16) : ∃ f, f16ToF32 h = .ok f ∧
    ∀ g : BitVec 32, binary32.decode g.toNat = (binary16.decode h.toNat).extend 13 ↔ g = f := by
  suffices hresult : ∃ f, f16ToF32 h = .ok f ∧
      binary32.decode f.toNat = (binary16.decode h.toNat).extend 13 by
    obtain ⟨f, hret, hvalue⟩ := hresult
    refine ⟨f, hret, fun g => ⟨fun hg => ?_, fun hg => hg ▸ hvalue⟩⟩
    exact BitVec.eq_of_toNat_eq (decode_injective (F := binary32) g.isLt f.isLt
      (hg.trans hvalue.symm))
  obtain ⟨negative, hsign, hexp, hmant, hdecode⟩ := half_fields h
  rw [hdecode, f16ToF32]
  obtain ⟨sign, hs⟩ : ∃ sign, sign = (h >>> 15).setWidth 32 &&& 1#32 := ⟨_, rfl⟩
  obtain ⟨exponent, he⟩ : ∃ exponent, exponent = (h >>> 10).setWidth 32 &&& 0x1F#32 := ⟨_, rfl⟩
  obtain ⟨mant, hm⟩ : ∃ mant, mant = h.setWidth 32 &&& 0x3FF#32 := ⟨_, rfl⟩
  rw [← hs] at hsign
  rw [← he] at hexp
  rw [← hm] at hmant
  simp only [← hs, ← he, ← hm]
  by_cases hzero : exponent = 0#32
  · rw [if_pos hzero, hzero, BitVec.toNat_zero]
    by_cases hnothing : mant = 0#32
    · rw [if_pos hnothing, hnothing]
      exact ⟨_, rfl, zero_exact hsign⟩
    · have hpos : 0 < mant.toNat :=
        Nat.pos_of_ne_zero fun h0 => hnothing (BitVec.eq_of_toNat_eq h0)
      obtain ⟨mant', e, hloop, hvalue⟩ := subnormal_exact hsign hpos hmant
      rw [if_neg hnothing, hloop, ok_bind]
      exact ⟨_, rfl, hvalue⟩
  · rw [if_neg hzero]
    by_cases htop : exponent = 31#32
    · rw [if_pos htop, htop]
      exact ⟨_, rfl, top_exact hsign hmant⟩
    · have hpos : exponent.toNat ≠ 0 := fun h0 => hzero (BitVec.eq_of_toNat_eq h0)
      have hlast : exponent.toNat ≠ 31 := fun h31 => htop (BitVec.eq_of_toNat_eq h31)
      rw [if_neg htop]
      exact ⟨_, rfl, normal_exact hsign (by omega) (by omega) hmant⟩

example : f16ToF32 0x8001#16 = .ok 0xB3800000#32 := rfl

end HalfFloats
