import CSpecx.CyclicChecks
import Mathlib.Algebra.Ring.Parity
import Mathlib.Data.Fintype.EquivFin

/-!
# Parity and trailers of cyclic redundancy checks

A polynomial with an odd number of bits keeps the parity of what the register
has taken in, so an odd number of flipped bits shows. As many bits as the
register has can lead it anywhere, and in one way only.
-/

namespace CyclicChecks

variable {w : Nat} {poly c : BitVec w}

/-- Whether an odd number of the bits is set. -/
def odd (bits : List Bool) : Bool := bits.foldr xor false

/-- The number of places where two strings differ. -/
def distance (bits bits' : List Bool) : Nat := (bits.zip bits').countP fun p => p.1 != p.2

/-- The bits of a register, the lowest first. -/
def unpack (c : BitVec w) : List Bool := (List.range w).map c.getLsbD

def parity (c : BitVec w) : Bool := odd (unpack c)

section Parity

theorem odd_map_xor (f g : Nat → Bool) (l : List Nat) :
    odd (l.map fun i => f i ^^ g i) = (odd (l.map f) ^^ odd (l.map g)) := by
  induction l with
  | nil => rfl
  | cons i l ih =>
    simp only [odd, List.map_cons, List.foldr_cons] at ih ⊢
    rw [ih, Bool.xor_assoc, Bool.xor_assoc, Bool.xor_left_comm (g i)]

/-- Two strings differ in an odd number of places if one of them is odd and the other is not. -/
theorem odd_distance_iff {bits bits' : List Bool} (hlength : bits.length = bits'.length) :
    Odd (distance bits bits') ↔ odd bits ≠ odd bits' := by
  induction bits generalizing bits' with
  | nil =>
    cases bits' with
    | nil => simp [distance, odd]
    | cons _ _ => cases hlength
  | cons a bits ih =>
    cases bits' with
    | nil => cases hlength
    | cons b bits' =>
      have htail := ih (Nat.succ.inj hlength)
      have hcons : distance (a :: bits) (b :: bits') =
          distance bits bits' + if a = b then 0 else 1 := by
        rw [distance, List.zip_cons_cons, List.countP_cons, distance]
        cases a <;> cases b <;> rfl
      have ha : odd (a :: bits) = (a ^^ odd bits) := rfl
      have hb : odd (b :: bits') = (b ^^ odd bits') := rfl
      rw [hcons, ha, hb]
      by_cases hab : a = b
      · rw [if_pos hab, Nat.add_zero, htail, hab]
        exact (not_congr Bool.xor_right_inj).symm
      · rw [if_neg hab, Nat.odd_add_one, htail]
        cases a <;> cases b <;> cases odd bits <;> cases odd bits' <;> simp_all

theorem parity_xor (a b : BitVec w) : parity (a ^^^ b) = (parity a ^^ parity b) := by
  have hbits : unpack (a ^^^ b) = (List.range w).map fun i => a.getLsbD i ^^ b.getLsbD i :=
    List.map_congr_left fun i _ => BitVec.getLsbD_xor
  rw [parity, hbits, odd_map_xor]
  rfl

theorem odd_append (bits bits' : List Bool) : odd (bits ++ bits') = (odd bits ^^ odd bits') := by
  induction bits with
  | nil => exact (Bool.false_xor _).symm
  | cons a bits ih =>
    have hcons : ∀ l, odd (a :: l) = (a ^^ odd l) := fun _ => rfl
    rw [List.cons_append, hcons, hcons, ih, Bool.xor_assoc]

/-- The bit that falls out is the difference. -/
theorem parity_shift (c : BitVec w) : parity (c >>> 1) = (parity c ^^ c.getLsbD 0) := by
  have hall : odd ((List.range (w + 1)).map c.getLsbD) = parity c := by
    rw [List.range_succ, List.map_append, odd_append, List.map_singleton,
      BitVec.getLsbD_of_ge c w le_rfl]
    exact Bool.xor_false _
  have hrest : odd ((List.range (w + 1)).map c.getLsbD) = (c.getLsbD 0 ^^ parity (c >>> 1)) := by
    rw [List.range_succ_eq_map, List.map_cons, List.map_map]
    have hbits : (List.range w).map (c.getLsbD ∘ Nat.succ) = unpack (c >>> 1) :=
      List.map_congr_left fun i _ => by
        rw [BitVec.getLsbD_ushiftRight, Nat.add_comm]
        rfl
    rw [hbits]
    rfl
  rw [← hall, hrest, Bool.xor_comm (c.getLsbD 0), Bool.xor_assoc, Bool.xor_self, Bool.xor_false]

theorem parity_step (hpoly : parity poly = true) (c : BitVec w) :
    parity (step poly c) = parity c := by
  have hzero : parity (0#w) = false := by
    have hdouble := parity_xor (0#w) (0#w)
    rw [BitVec.xor_self, Bool.xor_self] at hdouble
    exact hdouble
  have hfeed : parity (feedback poly (c.getLsbD 0)) = c.getLsbD 0 := by
    cases c.getLsbD 0
    · exact hzero
    · exact hpoly
  rw [step, parity_xor, parity_shift, hfeed, Bool.xor_assoc, Bool.xor_self, Bool.xor_false]

theorem parity_lowBit (hw : 0 < w) (bit : Bool) : parity (lowBit bit : BitVec w) = bit := by
  obtain ⟨w, rfl⟩ : ∃ n, w = n + 1 := ⟨w - 1, by omega⟩
  have hrest : (List.range w).map ((lowBit bit : BitVec (w + 1)).getLsbD ∘ Nat.succ) =
      List.replicate w false := by
    refine List.eq_replicate_iff.mpr ⟨by rw [List.length_map, List.length_range], fun b hb => ?_⟩
    obtain ⟨i, -, rfl⟩ := List.mem_map.mp hb
    rw [Function.comp_apply, getLsbD_lowBit]
    simp
  have hfalse : ∀ n, odd (List.replicate n false) = false := by
    intro n
    induction n with
    | zero => rfl
    | succ n ih => exact (Bool.false_xor _).trans ih
  rw [parity, unpack, List.range_succ_eq_map, List.map_cons, List.map_map, hrest, getLsbD_lowBit]
  show (_ ^^ odd (List.replicate w false)) = bit
  rw [hfalse]
  simp

/-- The register keeps the parity of the bits it took in. -/
theorem parity_run (hw : 0 < w) (hpoly : parity poly = true) (c : BitVec w) (bits : List Bool) :
    parity (run poly c bits) = (parity c ^^ odd bits) := by
  induction bits generalizing c with
  | nil => exact (Bool.xor_false _).symm
  | cons bit bits ih =>
    have hrun : run poly c (bit :: bits) = run poly (feed poly c bit) bits := rfl
    rw [hrun, ih, feed, parity_step hpoly, parity_xor, parity_lowBit hw, Bool.xor_assoc]
    rfl

/-- Strings that differ in an odd number of places end in different registers. -/
theorem run_odd (hw : 0 < w) (hpoly : parity poly = true) (c : BitVec w) {bits bits' : List Bool}
    (hlength : bits.length = bits'.length) (hodd : Odd (distance bits bits')) :
    run poly c bits ≠ run poly c bits' := by
  intro h
  have hparity := congrArg parity h
  rw [parity_run hw hpoly, parity_run hw hpoly] at hparity
  exact (odd_distance_iff hlength).mp hodd (Bool.xor_right_inj.mp hparity)

end Parity

section Trailers

@[simp] theorem length_unpack (c : BitVec w) : (unpack c).length = w := by simp [unpack]

theorem pack_unpack (c : BitVec w) : pack (unpack c) = c := by
  refine BitVec.eq_of_getLsbD_eq fun i hi => ?_
  rw [getLsbD_pack, unpack, List.getElem?_map, List.getElem?_range hi, decide_eq_true hi]
  rfl

/-- A string as long as the register is added to it before the steps. -/
theorem run_full (c : BitVec w) {bits : List Bool} (hlength : bits.length = w) :
    run poly c bits = (step poly)^[w] (c ^^^ pack bits) := by
  rw [run_eq_iterate c bits hlength.le, hlength]

/-- The register and its own complement lead to one value, whatever it holds. -/
theorem run_complement (c : BitVec w) {bits : List Bool} (hlength : bits.length = w)
    (htop : poly.getLsbD (w - 1) = true) :
    run poly c bits = (step poly)^[w] (BitVec.allOnes w) ↔ bits = unpack (~~~c) := by
  rw [run_full c hlength]
  constructor
  · intro h
    have hsum := (step_injective htop).iterate w h
    have hpack : pack bits = ~~~c := by
      rw [← BitVec.xor_allOnes, ← hsum, ← BitVec.xor_assoc, BitVec.xor_self, BitVec.zero_xor]
    refine pack_injective (hlength.trans (length_unpack _).symm) (Nat.le_of_eq hlength) ?_
    rw [hpack, pack_unpack]
  · rintro rfl
    rw [pack_unpack, ← BitVec.xor_allOnes, ← BitVec.xor_assoc, BitVec.xor_self, BitVec.zero_xor]

/-- One string as long as the register leads it to a given value, and no other. -/
theorem run_reaches (htop : poly.getLsbD (w - 1) = true) (c d : BitVec w) :
    ∃ bits, bits.length = w ∧
      ∀ bits', bits'.length = w → (run poly c bits' = d ↔ bits' = bits) := by
  have : Finite (BitVec w) := Finite.of_injective BitVec.toFin fun _ _ h => BitVec.eq_of_toFin_eq h
  obtain ⟨b, hb⟩ := Finite.surjective_of_injective ((step_injective htop).iterate w) d
  refine ⟨unpack (c ^^^ b), length_unpack _, fun bits' hlength => ?_⟩
  rw [run_full c hlength]
  constructor
  · intro h
    have hsum := (step_injective htop).iterate w (h.trans hb.symm)
    refine pack_injective (hlength.trans (length_unpack _).symm) (Nat.le_of_eq hlength) ?_
    rw [pack_unpack, ← hsum, ← BitVec.xor_assoc, BitVec.xor_self, BitVec.zero_xor]
  · rintro rfl
    rw [pack_unpack, ← BitVec.xor_assoc, BitVec.xor_self, BitVec.zero_xor, hb]

end Trailers

end CyclicChecks
