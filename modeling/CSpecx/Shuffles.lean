import CSpecx.CheckedArithmetic
import CSpecx.ExchangeShuffle
import CSpecx.RandomRanges
import CSpecx.Streams

/-!
# Random shuffles

`shuffle_u32` goes from the end of the array to its second entry and exchanges
each entry with one drawn by `randu32r` from those up to it. A call takes one
value of `randu64` a round.
-/

namespace Shuffles

open CExec RandomRanges ExchangeShuffle

/-- `array[i]`. -/
def entry (array : List (BitVec 32)) (i : Nat) : Outcome (BitVec 32) :=
  match array[i]? with
  | some v => .ok v
  | none => .error .undefined

/-- The rounds from `i` down to 1. -/
def shuffleLoop (build : Build) :
    Nat → List (BitVec 64) → List (BitVec 32) → Outcome (List (BitVec 32))
  | 0, _, array => .ok array
  | _ + 1, [], _ => .error .fuel
  | i + 1, draw :: draws, array => do
    let j ← randu32r build 0#32 (BitVec.ofNat 32 (i + 1)) draw
    let temp ← entry array (i + 1)
    let other ← entry array j.toNat
    shuffleLoop build i draws ((array.set (i + 1) other).set j.toNat temp)

/-- The array behind the call. -/
def shuffleU32 (build : Build) (draws : List (BitVec 64)) (array : List (BitVec 32)) (len : Nat) :
    Outcome (List (BitVec 32)) := do
  let i ← CheckedArithmetic.signed 32 (Streams.asI32 len - 1)
  shuffleLoop build i.toNat draws array

/-- The values of `j` in the rounds from `i` down to 1. -/
def drawn (build : Build) : Nat → List (BitVec 64) → Outcome (List Nat)
  | 0, _ => .ok []
  | _ + 1, [] => .error .fuel
  | i + 1, draw :: draws => do
    let j ← randu32r build 0#32 (BitVec.ofNat 32 (i + 1)) draw
    let js ← drawn build i draws
    .ok (j.toNat :: js)

section Draws

variable {build : Build} {array : List (BitVec 32)}
  {draws : List (BitVec 64)} {i j : Nat} {js : List Nat}

theorem zero_le32 (v : BitVec 32) : 0#32 ≤ v := Nat.zero_le v.toNat

/-- One call of a round draws a place up to `i`. -/
theorem draw_le (build : Build) (hi : i < 2 ^ 32) (draw : BitVec 64) :
    ∃ v, randu32r build 0#32 (BitVec.ofNat 32 i) draw = .ok v ∧ v.toNat ≤ i := by
  obtain ⟨v, hret, -, hle⟩ := (randu32r_covers build (zero_le32 _)).1 draw
  refine ⟨v, hret, ?_⟩
  rw [BitVec.le_def, BitVec.toNat_ofNat, Nat.mod_eq_of_lt hi] at hle
  exact hle

/-- Each place up to `i` is drawn from some value. -/
theorem exists_draw (build : Build) (hi : i < 2 ^ 32) (hj : j ≤ i) :
    ∃ draw v, randu32r build 0#32 (BitVec.ofNat 32 i) draw = .ok v ∧ v.toNat = j := by
  have hsmall : j < 2 ^ 32 := by omega
  have hle : BitVec.ofNat 32 j ≤ BitVec.ofNat 32 i := by
    rw [BitVec.le_def, BitVec.toNat_ofNat, BitVec.toNat_ofNat, Nat.mod_eq_of_lt hi,
      Nat.mod_eq_of_lt hsmall]
    exact hj
  obtain ⟨draw, hret⟩ := (randu32r_covers build (zero_le32 _)).2 (BitVec.ofNat 32 j)
    ⟨zero_le32 _, hle⟩
  exact ⟨draw, _, hret, by rw [BitVec.toNat_ofNat, Nat.mod_eq_of_lt hsmall]⟩

theorem entry_of_lt (hi : i < array.length) : entry array i = .ok array[i] := by
  rw [entry, List.getElem?_eq_getElem hi]

/-- A round exchanges two entries, so the loop is the shuffle by what it draws. -/
theorem shuffleLoop_eq (build : Build) (hi : i ≤ array.length - 1) (hsize : array.length < 2 ^ 32)
    (hdraws : draws.length = i) :
    ∃ js, drawn build i draws = .ok js ∧ Choices i js ∧
      shuffleLoop build i draws array = .ok (shuffle i js array) := by
  induction i generalizing draws array with
  | zero => exact ⟨[], rfl, .done, rfl⟩
  | succ i ih =>
    obtain ⟨draw, draws, rfl⟩ := List.exists_cons_of_length_eq_add_one hdraws
    obtain ⟨v, hret, hle⟩ := draw_le build (show i + 1 < 2 ^ 32 by omega) draw
    have hlast : i + 1 < array.length := by omega
    have hplace : v.toNat < array.length := by omega
    have hlength := (exchange_perm array (i + 1) v.toNat).length_eq
    obtain ⟨js, hdrawn, choices, hloop⟩ :=
      ih (show i ≤ (exchange array (i + 1) v.toNat).length - 1 by omega) (by omega)
        (Nat.succ.inj hdraws)
    refine ⟨v.toNat :: js, ?_, .next hle choices, ?_⟩
    · rw [drawn, hret, ok_bind, hdrawn, ok_bind]
    · rw [shuffleLoop, hret, ok_bind, entry_of_lt hlast, ok_bind, entry_of_lt hplace, ok_bind,
        ← exchange_of_lt hlast hplace, hloop, shuffle]

theorem exists_draws (build : Build) (hi : i < 2 ^ 32) (choices : Choices i js) :
    ∃ draws, draws.length = i ∧ drawn build i draws = .ok js := by
  induction choices with
  | done => exact ⟨[], rfl, rfl⟩
  | @next i j js hj _ ih =>
    obtain ⟨draws, hlength, hdrawn⟩ := ih (by omega)
    obtain ⟨draw, v, hret, rfl⟩ := exists_draw build hi hj
    refine ⟨draw :: draws, by rw [List.length_cons, hlength], ?_⟩
    rw [drawn, hret, ok_bind, hdrawn, ok_bind]

/-- The first place comes from the length; an empty array has no round. -/
theorem shuffleU32_eq (build : Build) (draws : List (BitVec 64))
    (hlen : array.length < 2 ^ 31) :
    shuffleU32 build draws array array.length =
      shuffleLoop build (array.length - 1) draws array := by
  have hfits : CheckedArithmetic.InRange 32 ((array.length : Int) - 1) := by
    rw [CheckedArithmetic.InRange, CheckedArithmetic.intMin, CheckedArithmetic.intMax]
    omega
  have hfirst : ((array.length : Int) - 1).toNat = array.length - 1 := by omega
  rw [shuffleU32, Streams.asI32_of_lt hlen, CheckedArithmetic.signed_of_inRange hfits, ok_bind,
    hfirst]

end Draws

/-- The sequences of draws are the arrangements of the array, one each. -/
theorem shuffle_permutations (build : Build) (array : List (BitVec 32))
    (hlen : array.length < 2 ^ 31) :
    (∀ draws : List (BitVec 64), draws.length = array.length - 1 →
      ∃ js, drawn build (array.length - 1) draws = .ok js ∧ Choices (array.length - 1) js ∧
        shuffleU32 build draws array array.length = .ok (shuffle (array.length - 1) js array)) ∧
    (∀ js, Choices (array.length - 1) js → ∃ draws, draws.length = array.length - 1 ∧
      drawn build (array.length - 1) draws = .ok js) ∧
    (∀ js, (shuffle (array.length - 1) js array).Perm array) ∧
    (array.Nodup → Set.BijOn (fun js => shuffle (array.length - 1) js array)
      {js | Choices (array.length - 1) js} {ys | ys.Perm array}) := by
  refine ⟨fun draws hdraws => ?_, fun js choices => exists_draws build (by omega) choices,
    fun js => shuffle_perm _ js array, shuffle_bijOn⟩
  rw [shuffleU32_eq build draws hlen]
  exact shuffleLoop_eq build le_rfl (by omega) hdraws

theorem shuffle_permutations_three :
    Set.BijOn (fun js => shuffle 2 js [1#32, 2#32, 3#32]) {js | Choices 2 js}
      {ys | ys.Perm [1#32, 2#32, 3#32]} :=
  (shuffle_permutations .other [1#32, 2#32, 3#32] (by decide)).2.2.2 (by decide)

example : shuffleU32 .other [0#64, 0#64] [1#32, 2#32, 3#32] 3 = .ok [2#32, 3#32, 1#32] := by
  decide +kernel

end Shuffles
