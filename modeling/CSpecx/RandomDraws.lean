import CSpecx.FairDraws
import CSpecx.RandomRanges
import Mathlib.SetTheory.Cardinal.Finite

/-!
# The draws behind the generators

`randu64` puts results of `rand` together until they fill 64 bits, and the
generators of every width scale its result. `rand i` is the result of the call
`i` of `rand`; the analysis counts the sequences of results.
-/

namespace RandomRanges

open CExec FairDraws

/-- The loop of `randu64` and the call behind it, when `i` calls are made. -/
def randu64Loop (base : Nat) (rand : Nat → Nat) : Nat → Nat → Nat → Nat → Outcome (Nat × Nat)
  | 0, _, _, _ => .error .fuel
  | fuel + 1, r, capacity, i =>
    if capacity ≤ (2 ^ 64 - 1) / base then
      randu64Loop base rand fuel ((r * base + rand i) % 2 ^ 64) (capacity * base % 2 ^ 64) (i + 1)
    else .ok ((r * base + rand i) % 2 ^ 64, i + 1)

/-- The result, and the number of calls of `rand`. -/
def randu64 (randMax : Nat) (rand : Nat → Nat) : Outcome (Nat × Nat) :=
  let base := (randMax + 1) % 2 ^ 64
  randu64Loop base rand 64 (rand 0 % 2 ^ 64) base 1

/-- A generator with the draw that it makes. -/
def drawn {α : Type} (randMax : Nat) (rand : Nat → Nat) (generator : BitVec 64 → Outcome α) :
    Outcome α := do
  let (draw, _) ← randu64 randMax rand
  generator (BitVec.ofNat 64 draw)

/-- The cast of `randu32r` to a narrower type. -/
def narrowUnsigned {w : Nat} (build : Build) (lower upper : BitVec w) (draw : BitVec 64) :
    Outcome (BitVec w) := do
  let r ← randu32r build (lower.setWidth 32) (upper.setWidth 32) draw
  .ok (r.setWidth w)

/-- The cast of `randi32r` to a narrower type. -/
def narrowSigned {w : Nat} (build : Build) (lower upper : BitVec w) (draw : BitVec 64) :
    Outcome (BitVec w) := do
  let r ← randi32r build (lower.signExtend 32) (upper.signExtend 32) draw
  .ok (r.setWidth w)

def randu8r (build : Build) (lower upper : BitVec 8) : BitVec 64 → Outcome (BitVec 8) :=
  narrowUnsigned build lower upper

def randu16r (build : Build) (lower upper : BitVec 16) : BitVec 64 → Outcome (BitVec 16) :=
  narrowUnsigned build lower upper

def randi8r (build : Build) (lower upper : BitVec 8) : BitVec 64 → Outcome (BitVec 8) :=
  narrowSigned build lower upper

/-- The checks of the 32 bits are made here as well. -/
def randi16r (build : Build) (lower upper : BitVec 16) (draw : BitVec 64) :
    Outcome (BitVec 16) := do
  assert (lower.toInt ≤ upper.toInt)
  if upper = lower then .ok lower else narrowSigned build lower upper draw

/-- Of the `base ^ n` sequences of results, those that lead to `v`. -/
noncomputable def sequences {α : Type} (base n : Nat) (generator : BitVec 64 → Outcome α) (v : α) :
    Nat :=
  Nat.card {f : Fin n → Fin base // drawn (base - 1) (stream f) generator = .ok v}

/-- With `c` sequences for every draw, each value of the range has its share of them, up to
one draw. -/
def Fair {α : Type} (base n c : Nat) (generator : BitVec 64 → Outcome α) (value : α → Int)
    (lower upper : Int) : Prop :=
  ∀ v, lower ≤ value v → value v ≤ upper →
    sequences base n generator v = c * (2 ^ 64 / (upper - lower + 1).toNat) ∨
      sequences base n generator v = c * (2 ^ 64 / (upper - lower + 1).toNat + 1)

def FairUnsigned {w : Nat} (base n c : Nat)
    (generator : BitVec w → BitVec w → BitVec 64 → Outcome (BitVec w)) : Prop :=
  ∀ lower upper, lower < upper →
    Fair base n c (generator lower upper) (fun v => v.toNat) lower.toNat upper.toNat

def FairSigned {w : Nat} (base n c : Nat)
    (generator : BitVec w → BitVec w → BitVec 64 → Outcome (BitVec w)) : Prop :=
  ∀ lower upper, lower.toInt < upper.toInt →
    Fair base n c (generator lower upper) BitVec.toInt lower.toInt upper.toInt

section Draws

variable {base : Nat}

/-- The loop ends as soon as the results fill 64 bits, whatever they are. -/
theorem randu64Loop_spec (hbase : 2 ≤ base) {fuel i : Nat} (hlt : base ^ i < 2 ^ 64)
    (hfuel : 64 ≤ fuel + i) :
    ∃ n, 2 ^ 64 ≤ base ^ n ∧ base ^ (n - 1) < 2 ^ 64 ∧ ∀ rand, randu64Loop base rand fuel
      (number base rand i % 2 ^ 64) (base ^ i) i = .ok (number base rand n % 2 ^ 64, n) := by
  induction fuel generalizing i with
  | zero =>
    have hpow : 2 ^ 64 ≤ base ^ i :=
      (Nat.pow_le_pow_right (by decide) (by omega)).trans (Nat.pow_le_pow_left hbase i)
    omega
  | succ fuel ih =>
    have hnumber : ∀ rand, (number base rand i % 2 ^ 64 * base + rand i) % 2 ^ 64 =
        number base rand (i + 1) % 2 ^ 64 := by
      intro rand
      rw [number, Nat.add_mod, Nat.mod_mul_mod, ← Nat.add_mod]
    by_cases hmore : base ^ i ≤ (2 ^ 64 - 1) / base
    · have hnext : base ^ (i + 1) < 2 ^ 64 := by
        have hle := (Nat.le_div_iff_mul_le (by omega)).mp hmore
        rw [pow_succ base i]
        omega
      obtain ⟨n, hfull, hleast, hrun⟩ := ih hnext (by omega)
      refine ⟨n, hfull, hleast, fun rand => ?_⟩
      rw [randu64Loop, if_pos hmore, hnumber, ← pow_succ, Nat.mod_eq_of_lt hnext]
      exact hrun rand
    · have hfull : 2 ^ 64 ≤ base ^ (i + 1) := by
        have hgt := Nat.lt_of_not_le hmore
        rw [Nat.div_lt_iff_lt_mul (by omega)] at hgt
        rw [pow_succ base i]
        omega
      refine ⟨i + 1, hfull, hlt, fun rand => ?_⟩
      rw [randu64Loop, if_neg hmore, hnumber]

theorem randu64_spec (hbase : 2 ≤ base) (hlt : base < 2 ^ 64) :
    ∃ n, 2 ^ 64 ≤ base ^ n ∧ base ^ (n - 1) < 2 ^ 64 ∧
      ∀ rand, randu64 (base - 1) rand = .ok (number base rand n % 2 ^ 64, n) := by
  have hone : base ^ 1 < 2 ^ 64 := by rwa [pow_one]
  obtain ⟨n, hfull, hleast, hrun⟩ := randu64Loop_spec hbase hone (show 64 ≤ 64 + 1 by decide)
  refine ⟨n, hfull, hleast, fun rand => ?_⟩
  have hstart : number base rand 1 = rand 0 := by
    rw [number, number, Nat.zero_mul, Nat.zero_add]
  rw [randu64, Nat.sub_add_cancel (by omega), Nat.mod_eq_of_lt hlt, ← hrun rand, hstart, pow_one]

end Draws

section Generators

variable {α : Type} {base n c : Nat} {generator : BitVec 64 → Outcome α} {value : α → Int}
  {lower upper : Int}

/-- A generator that scales its draw gives each value its share. -/
theorem fair_of_scaled
    (hdraws : ∀ rand, randu64 (base - 1) rand = .ok (number base rand n % 2 ^ 64, n))
    (hpow : base ^ n = c * 2 ^ 64) (hinj : Function.Injective value)
    (h : ∀ draw, ∃ v, generator draw = .ok v ∧ value v = lower + scaled (upper - lower + 1) draw) :
    Fair base n c generator value lower upper := by
  intro v hlow hhigh
  have hcount : sequences base n generator v = Finset.card
      (Finset.univ.filter fun f : Fin n → Fin base => number base (stream f) n % 2 ^ 64 *
        (upper - lower + 1).toNat / 2 ^ 64 = (value v - lower).toNat) := by
    refine Nat.subtype_card _ fun f => ?_
    obtain ⟨v', hret, hvalue⟩ := h (BitVec.ofNat 64 (number base (stream f) n % 2 ^ 64))
    have hscaled : scaled (upper - lower + 1)
        (BitVec.ofNat 64 (number base (stream f) n % 2 ^ 64)) =
        number base (stream f) n % 2 ^ 64 * (upper - lower + 1).toNat / 2 ^ 64 := by
      rw [scaled, BitVec.toNat_ofNat, Nat.mod_mod]
    rw [hscaled] at hvalue
    have hdrawn : drawn (base - 1) (stream f) generator = .ok v' := by
      rw [drawn, hdraws, ok_bind]
      exact hret
    rw [Finset.mem_filter, hdrawn]
    constructor
    · rintro ⟨-, hk⟩
      refine congrArg Except.ok (hinj ?_)
      omega
    · intro hsame
      obtain rfl := Except.ok.inj hsame
      refine ⟨Finset.mem_univ f, ?_⟩
      omega
  rw [hcount]
  exact card_scaled (Nat.two_pow_pos 64) (by omega) hpow

theorem narrowUnsigned_eq {w : Nat} (hw : w ≤ 32) {lower upper : BitVec w} (hle : lower ≤ upper)
    (draw : BitVec 64) :
    ∃ v, narrowUnsigned .other lower upper draw = .ok v ∧
      (v.toNat : Int) = lower.toNat + scaled (upper.toNat - lower.toNat + 1) draw := by
  have hnat : lower.toNat ≤ upper.toNat := hle
  have hpow : 2 ^ w ≤ 2 ^ 32 := Nat.pow_le_pow_right (by decide) hw
  have hupper := upper.isLt
  have hwide : ∀ x : BitVec w, (x.setWidth 32).toNat = x.toNat := fun x => by
    have hx := x.isLt
    rw [BitVec.toNat_setWidth, Nat.mod_eq_of_lt (by omega)]
  have hle' : lower.setWidth 32 ≤ upper.setWidth 32 := by
    rw [BitVec.le_def, hwide, hwide]
    exact hnat
  obtain ⟨r, hret, hr⟩ := randu32r_eq hle' draw
  rw [hwide, hwide] at hr
  have hlt := scaled_lt_size (show 0 < (upper.toNat : Int) - lower.toNat + 1 by omega) draw
  refine ⟨r.setWidth w, by rw [narrowUnsigned, hret, ok_bind], ?_⟩
  rw [BitVec.toNat_setWidth, Nat.mod_eq_of_lt (by omega), hr]

theorem narrowSigned_eq {w : Nat} (hw : w ≤ 32) {lower upper : BitVec w}
    (hle : lower.toInt ≤ upper.toInt) (draw : BitVec 64) :
    ∃ v, narrowSigned .other lower upper draw = .ok v ∧
      v.toInt = lower.toInt + scaled (upper.toInt - lower.toInt + 1) draw := by
  have hlow := lower.le_two_mul_toInt
  have hupper := upper.two_mul_toInt_lt
  have hwide : ∀ x : BitVec w, (x.signExtend 32).toInt = x.toInt := fun x =>
    BitVec.toInt_signExtend_of_le hw
  have hle' : (lower.signExtend 32).toInt ≤ (upper.signExtend 32).toInt := by
    rw [hwide, hwide]
    exact hle
  obtain ⟨r, hret, hr⟩ := randi32r_eq hle' draw
  rw [hwide, hwide] at hr
  have hlt := scaled_lt_size (show 0 < upper.toInt - lower.toInt + 1 by omega) draw
  refine ⟨r.setWidth w, by rw [narrowSigned, hret, ok_bind], ?_⟩
  have hcast : ((2 ^ w : Nat) : Int) = 2 ^ w := by rw [Nat.cast_pow, Nat.cast_two]
  have hcut : (r.toNat : Int).bmod (2 ^ w) = r.toInt.bmod (2 ^ w) := by
    rw [BitVec.toInt_eq_toNat_bmod r, Int.bmod_bmod_of_dvd (Nat.pow_dvd_pow 2 hw)]
  rw [BitVec.toInt_setWidth, hcut, ← hr]
  exact Int.bmod_eq_of_le (by omega) (by omega)

theorem randi16r_eq {lower upper : BitVec 16} (hle : lower.toInt ≤ upper.toInt) (draw : BitVec 64) :
    ∃ v, randi16r .other lower upper draw = .ok v ∧
      v.toInt = lower.toInt + scaled (upper.toInt - lower.toInt + 1) draw := by
  rw [randi16r, assert_pos hle, ok_bind]
  by_cases hsame : upper = lower
  · rw [if_pos hsame, hsame]
    exact single_value BitVec.toInt lower draw
  · rw [if_neg hsame]
    exact narrowSigned_eq (by decide) hle draw

theorem fair_unsigned {w : Nat} {generator : BitVec w → BitVec w → BitVec 64 → Outcome (BitVec w)}
    (hdraws : ∀ rand, randu64 (base - 1) rand = .ok (number base rand n % 2 ^ 64, n))
    (hpow : base ^ n = c * 2 ^ 64)
    (h : ∀ {lower upper}, lower ≤ upper → ∀ draw, ∃ v, generator lower upper draw = .ok v ∧
      (v.toNat : Int) = lower.toNat + scaled (upper.toNat - lower.toNat + 1) draw) :
    FairUnsigned base n c generator := fun _ _ hlt =>
  fair_of_scaled hdraws hpow toNat_cast_injective (h (BitVec.le_of_lt hlt))

theorem fair_signed {w : Nat} {generator : BitVec w → BitVec w → BitVec 64 → Outcome (BitVec w)}
    (hdraws : ∀ rand, randu64 (base - 1) rand = .ok (number base rand n % 2 ^ 64, n))
    (hpow : base ^ n = c * 2 ^ 64)
    (h : ∀ {lower upper : BitVec w}, lower.toInt ≤ upper.toInt → ∀ draw, ∃ v,
      generator lower upper draw = .ok v ∧
        v.toInt = lower.toInt + scaled (upper.toInt - lower.toInt + 1) draw) :
    FairSigned base n c generator := fun _ _ hlt =>
  fair_of_scaled hdraws hpow (fun _ _ => BitVec.eq_of_toInt_eq) (h hlt.le)

end Generators

/-- On a platform with `RAND_MAX + 1 = 2 ^ k` every value of a range, whatever its type, results
from equally many sequences of results of `rand`, up to those of one draw; a draw takes no
more results than 64 bits need. -/
theorem ranges_fair {k : Nat} (hpos : 0 < k) (hlt : k < 64) :
    ∃ n c, c * 2 ^ 64 = (2 ^ k) ^ n ∧ (2 ^ k) ^ (n - 1) < 2 ^ 64 ∧
      (∀ rand, ∃ r, randu64 (2 ^ k - 1) rand = .ok (r, n)) ∧
      FairUnsigned (2 ^ k) n c (randu64r .other) ∧ FairSigned (2 ^ k) n c (randi64r .other) ∧
      FairUnsigned (2 ^ k) n c (randu32r .other) ∧ FairSigned (2 ^ k) n c (randi32r .other) ∧
      FairUnsigned (2 ^ k) n c (randu16r .other) ∧ FairSigned (2 ^ k) n c (randi16r .other) ∧
      FairUnsigned (2 ^ k) n c (randu8r .other) ∧ FairSigned (2 ^ k) n c (randi8r .other) := by
  have hbase : 2 ≤ 2 ^ k := Nat.le_pow hpos
  have hsmall : 2 ^ k < 2 ^ 64 := Nat.pow_lt_pow_right (by decide) hlt
  obtain ⟨n, hfull, hleast, hdraws⟩ := randu64_spec hbase hsmall
  obtain ⟨c, hc⟩ : 2 ^ 64 ∣ (2 ^ k) ^ n := by
    rw [← pow_mul] at hfull ⊢
    exact Nat.pow_dvd_pow 2 ((Nat.pow_le_pow_iff_right (by decide)).mp hfull)
  have hpow : (2 ^ k) ^ n = c * 2 ^ 64 := hc.trans (Nat.mul_comm _ _)
  refine ⟨n, c, hpow.symm, hleast, fun rand => ⟨_, hdraws rand⟩, ?_, ?_, ?_, ?_, ?_, ?_, ?_, ?_⟩
  · exact fair_unsigned hdraws hpow randu64r_eq
  · exact fair_signed hdraws hpow randi64r_eq
  · exact fair_unsigned hdraws hpow randu32r_eq
  · exact fair_signed hdraws hpow randi32r_eq
  · exact fair_unsigned hdraws hpow (narrowUnsigned_eq (by decide))
  · exact fair_signed hdraws hpow randi16r_eq
  · exact fair_unsigned hdraws hpow (narrowUnsigned_eq (by decide))
  · exact fair_signed hdraws hpow (narrowSigned_eq (by decide))

/-- With 31 bits a result. -/
theorem ranges_fair_three : ∃ n c, c * 2 ^ 64 = (2 ^ 31) ^ n ∧ (2 ^ 31) ^ (n - 1) < 2 ^ 64 ∧
    FairUnsigned (2 ^ 31) n c (randu64r .other) ∧ FairSigned (2 ^ 31) n c (randi8r .other) := by
  obtain ⟨n, c, hpow, hleast, -, hu64, -, -, -, -, -, -, hi8⟩ :=
    ranges_fair (show 0 < 31 by decide) (show 31 < 64 by decide)
  exact ⟨n, c, hpow, hleast, hu64, hi8⟩

end RandomRanges
