import CSpecx.Checksums
import CSpecx.CyclicFrames

/-!
# Damaged and checked frames

What the checksum of `checksum_execute` says about a message that arrives with
flipped bits, or with its checksum behind it, the lowest byte first.
-/

namespace Checksums

open CExec CyclicChecks

/-- The bytes of a checksum as a little-endian machine stores them. -/
def storedBytes (s : BitVec 32) : List UInt8 :=
  (List.range 4).map fun i => ⟨(s >>> (8 * i)).setWidth 8⟩

/-- The state behind every message that is followed by its checksum. -/
def residue : BitVec 32 := 0x48674BC7#32

/-- How many bits of two messages differ. -/
def flippedBits (x y : List UInt8) : Nat := distance (messageBits x) (messageBits y)

section Bits

theorem messageBits_storedBytes (s : BitVec 32) : messageBits (storedBytes s) = unpack s := by
  have hbyte : ∀ i, byteBits ⟨(s >>> (8 * i)).setWidth 8⟩ =
      (List.range' (8 * i) 8).map s.getLsbD := by
    intro i
    refine List.ext_getElem (by simp [byteBits]) fun j hj hj' => ?_
    have hlt : j < 8 := by simpa [byteBits] using hj
    simp [byteBits, hlt]
  have hsplit : List.range 32 = List.range' (8 * 0) 8 ++ (List.range' (8 * 1) 8 ++
      (List.range' (8 * 2) 8 ++ List.range' (8 * 3) 8)) := by decide
  have hfour : List.range 4 = [0, 1, 2, 3] := rfl
  rw [messageBits, storedBytes, hfour, unpack, hsplit]
  simp only [List.map_cons, List.map_nil, List.flatMap_cons, List.flatMap_nil, List.append_nil,
    hbyte, List.map_append]

theorem length_storedBytes (s : BitVec 32) : (storedBytes s).length = 4 := by
  rw [storedBytes, List.length_map, List.length_range]

/-- Four bytes are the bits of a register. -/
theorem exists_storedBytes {bits : List Bool} (hlength : bits.length = 32) :
    ∃ s, messageBits (storedBytes s) = bits :=
  ⟨pack bits, by
    rw [messageBits_storedBytes]
    refine pack_injective ((length_unpack _).trans hlength.symm) (Nat.le_of_eq (length_unpack _)) ?_
    exact pack_unpack _⟩

theorem residue_eq : ~~~residue = (step polynomial)^[32] (BitVec.allOnes 32) := by
  rw [← funext bitStep_eq]
  decide +kernel

end Bits

/-- An odd number of flipped bits changes the checksum, however the two messages are cut. -/
theorem checksum_odd {g g' : Tables} (hready : Ready g) (hready' : Ready g')
    {pieces pieces' : List (List UInt8)} (hpieces : ∀ piece ∈ pieces, piece ≠ [])
    (hpieces' : ∀ piece ∈ pieces', piece ≠ [])
    (hlength : pieces.flatten.length = pieces'.flatten.length)
    (hodd : Odd (flippedBits pieces.flatten pieces'.flatten)) :
    ∃ s t h h', executeAll g checksumInit pieces = .ok (s, h) ∧
      executeAll g' checksumInit pieces' = .ok (t, h') ∧ s ≠ t := by
  obtain ⟨h, hcalls, -⟩ := executeAll_eq hready checksumInit hpieces
  obtain ⟨h', hcalls', -⟩ := executeAll_eq hready' checksumInit hpieces'
  refine ⟨_, _, h, h', hcalls, hcalls', fun heq => ?_⟩
  refine run_odd (by decide) (by decide) (~~~checksumInit) ?_ hodd (BitVec.not_inj.mp heq)
  rw [length_messageBits, length_messageBits, hlength]

/-- Three flipped bits in two bytes far from each other. -/
theorem checksum_odd_three :
    ∃ s t h h', executeAll startTables checksumInit [[1], [2, 3, 4, 5, 6]] = .ok (s, h) ∧
      executeAll startTables checksumInit [[0, 2, 3], [4, 5, 5]] = .ok (t, h') ∧ s ≠ t :=
  checksum_odd ready_start ready_start (by decide) (by decide) rfl (by decide)

/-- A receiver that goes on with the four bytes behind a message ends at the residue exactly if
they are the checksum, and some four bytes lead it to any other value, in one way. -/
theorem trailer_checked {g g' : Tables} (hready : Ready g) (hready' : Ready g')
    {message : List UInt8} (hmessage : message ≠ []) (target : BitVec 32) :
    ∃ s h, checksumExecute g checksumInit message = .ok (s, h) ∧
      (∀ trailer : List UInt8, trailer.length = 4 →
        ((∃ h', checksumExecute g' checksumInit (message ++ trailer) = .ok (residue, h')) ↔
          trailer = storedBytes s)) ∧
      ∃ forged : List UInt8, forged.length = 4 ∧ ∀ trailer : List UInt8, trailer.length = 4 →
        ((∃ h', checksumExecute g' checksumInit (message ++ trailer) = .ok (target, h')) ↔
          trailer = forged) := by
  obtain ⟨h, hcall, -⟩ := checksumExecute_eq hready checksumInit hmessage
  generalize hc : run polynomial (~~~checksumInit) (messageBits message) = c at hcall
  have htop : polynomial.getLsbD (32 - 1) = true := by decide
  have hframe : ∀ (d : BitVec 32) (trailer : List UInt8),
      (∃ h', checksumExecute g' checksumInit (message ++ trailer) = .ok (d, h')) ↔
        run polynomial c (messageBits trailer) = ~~~d := by
    intro d trailer
    obtain ⟨h', hcall', -⟩ := checksumExecute_eq hready' checksumInit
      (List.append_ne_nil_of_left_ne_nil hmessage trailer)
    rw [hcall', messageBits_append, run_append, hc]
    constructor
    · rintro ⟨_, heq⟩
      rw [← (ok_pair_inj heq).1, BitVec.not_not]
    · intro heq
      exact ⟨h', by rw [heq, BitVec.not_not]⟩
  have hbits : ∀ {trailer : List UInt8}, trailer.length = 4 → (messageBits trailer).length = 32 :=
    fun hlength => by rw [length_messageBits, hlength]
  refine ⟨_, h, hcall, fun trailer hlength => ?_, ?_⟩
  · rw [hframe residue, residue_eq, run_complement c (hbits hlength) htop,
      ← messageBits_storedBytes]
    exact messageBits_injective.eq_iff
  · obtain ⟨bits, hlength, hreaches⟩ := run_reaches htop c (~~~target)
    obtain ⟨s, rfl⟩ := exists_storedBytes hlength
    refine ⟨storedBytes s, length_storedBytes s, fun trailer hlength' => ?_⟩
    rw [hframe target, hreaches _ (hbits hlength')]
    exact messageBits_injective.eq_iff

theorem trailer_checked_one :
    ∃ s h, checksumExecute startTables checksumInit [49] = .ok (s, h) ∧
      (∀ trailer : List UInt8, trailer.length = 4 →
        ((∃ h', checksumExecute startTables checksumInit ([49] ++ trailer) = .ok (residue, h')) ↔
          trailer = storedBytes s)) ∧
      ∃ forged : List UInt8, forged.length = 4 ∧ ∀ trailer : List UInt8, trailer.length = 4 →
        ((∃ h', checksumExecute startTables checksumInit ([49] ++ trailer) = .ok (0#32, h')) ↔
          trailer = forged) :=
  trailer_checked ready_start ready_start (by decide) 0#32

end Checksums
