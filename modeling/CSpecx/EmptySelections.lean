import CSpecx.BlockArrayRuns

/-!
# Empty selections

`stride_resolve` returns a stride without elements for an empty slice. An
`ext_array` is left as it is. A `block_array` fails an assertion when the block
that a removal would begin in is full.
-/

namespace ExtArrays

open CExec CellMemory Strided ByteSequence

variable {e : ExtArray} {str : Stride} {size n : Nat} {dest : Bool}

/-- Every element is kept where it is. -/
theorem removeLoop_empty {s : Sweep} (hlen : e.len < 2 ^ 32) (hsize : 0 < size)
    (divides : size ∣ e.len) (empty : str.nelems = 0) (heven : s.wpos = s.rpos)
    (hle : s.rpos * size ≤ e.len) (enough : e.len - s.rpos * size < n) :
    removeLoop str size dest n e s =
      .ok (e, { s with wpos := e.len / size, rpos := e.len / size }) := by
  obtain ⟨d, hd⟩ := divides
  have hquot : e.len / size = d := by
    rw [hd]
    exact Nat.mul_div_cancel_left d hsize
  rw [hquot]
  induction n generalizing s with
  | zero => omega
  | succ n ih =>
    have hpos : u32 (s.rpos * size) = s.rpos * size := u32_of_lt (lt_of_le_of_lt hle hlen)
    have hcomm : d * size = e.len := by rw [hd, Nat.mul_comm]
    by_cases hmore : s.rpos * size < e.len
    · have hrpos : s.rpos < d := Nat.lt_of_mul_lt_mul_right (hcomm ▸ hmore)
      have hnext : (s.rpos + 1) * size ≤ e.len := hcomm ▸ Nat.mul_le_mul_right size hrpos
      have hsucc : (s.rpos + 1) * size = s.rpos * size + size := Nat.succ_mul _ _
      have hsmall : s.rpos + 1 ≤ (s.rpos + 1) * size := Nat.le_mul_of_pos_right _ hsize
      have hnone : ¬ (s.total < str.nelems ∧ s.rpos = s.nextRemove) := by
        rw [empty]
        exact fun h => Nat.not_lt_zero _ h.1
      have hmove : moveDown e s.wpos s.rpos size = .ok e := if_neg fun h => h heven
      rw [removeLoop, hpos, if_pos hmore, if_neg hnone, hmove, ok_bind, heven,
        u32_of_lt (show s.rpos + 1 < 2 ^ 32 by omega)]
      exact ih rfl hnext (show e.len - (s.rpos + 1) * size < n by omega)
    · have hrpos : s.rpos = d := Nat.eq_of_mul_eq_mul_right hsize (by omega)
      rw [removeLoop, hpos, if_neg hmore]
      obtain ⟨wpos, rpos, nextRemove, total, bytes⟩ := s
      obtain rfl : wpos = rpos := heven
      obtain rfl : wpos = d := hrpos
      rfl

theorem extArrayRemove_empty (hlen : e.len < 2 ^ 32) (hsize : 0 < size) (divides : size ∣ e.len)
    (empty : str.nelems = 0) : extArrayRemove e str size dest = .ok (0, [], e) := by
  have hzero : 0 * size = 0 := Nat.zero_mul size
  have hloop : removeLoop str size dest (e.len + 1) e ⟨0, 0, u32 str.start, 0, []⟩ =
      .ok (e, ⟨e.len / size, e.len / size, u32 str.start, 0, []⟩) := by
    refine removeLoop_empty hlen hsize divides empty rfl ?_ ?_
    · show 0 * size ≤ e.len
      rw [hzero]
      exact Nat.zero_le _
    · show e.len - 0 * size < e.len + 1
      rw [hzero]
      exact Nat.lt_succ_self _
  have hback : u32 (e.len / size * size) = e.len := by
    rw [Nat.div_mul_cancel divides, u32_of_lt hlen]
  simp only [extArrayRemove, hloop, ok_bind, hback]

theorem extArrayRead_empty (empty : str.nelems = 0) :
    extArrayRead e str size = .ok (0, []) := by
  have hall : str.nelems ≤ 0 := Nat.le_of_eq empty
  rw [extArrayRead, readLoop, if_pos hall]

theorem extArrayWrite_empty (empty : str.nelems = 0) (src : Nat → UInt8) :
    extArrayWrite e str size src = .ok (0, e) := by
  have hall : str.nelems ≤ 0 := Nat.le_of_eq empty
  rw [extArrayWrite, writeLoop, if_pos hall]

end ExtArrays

namespace EmptySelections

open CExec Component Strided ByteSequence BlockArrays ExtArrays
open SlabAllocator (alignedSize blockHeader headerSize)

variable {e : ExtArray} {str : Stride} {size : Nat}

/-- Every operation returns 0 and leaves the bytes of both arrays as they are. -/
structure NoOp {A : BlockAllocator} (r : BlockArray A) (e : ExtArray) (str : Stride) (size : Nat)
    (src : Nat → UInt8) (dest : Bool) : Prop where
  read : blockArrayRead r str size = .ok (0, [])
  write : ∃ r', blockArrayWrite r str size src = .ok (0, r') ∧
    BlockArrays.contents r' = BlockArrays.contents r
  remove : ∃ r', blockArrayRemove r str size dest = .ok (0, [], r') ∧
    BlockArrays.contents r' = BlockArrays.contents r
  ext_read : extArrayRead e str size = .ok (0, [])
  ext_write : ∃ e', extArrayWrite e str size src = .ok (0, e') ∧
    ExtArrays.contents e' = ExtArrays.contents e
  ext_remove : ∃ e', extArrayRemove e str size dest = .ok (0, [], e') ∧
    ExtArrays.contents e' = ExtArrays.contents e

/-- A removal without elements fails exactly in a full block. -/
theorem noOp_iff {A : Nat → Nat → BlockAllocator} {tail : Nat → UInt8}
    {blocks : Nat → BlockArrays.Block} {cap : Nat} {r₀ r : BlockArray (blocksOf A cap)}
    {trace : List (Op × Reply)} (init : blockArrayCreate A tail blocks cap = .ok r₀)
    (run : Trace (blockRuns _) r₀ trace r) (hlen : e.len < 2 ^ 32) (divides : size ∣ e.len)
    (spanned : Spanned str size) (empty : str.nelems = 0) (src : Nat → UInt8) (dest : Bool) :
    NoOp r e str size src dest ↔ ¬ FullAt r (str.start * size) := by
  obtain ⟨xs, rep⟩ := blockRuns_represents init run
  rw [← spanned.start_eq]
  constructor
  · intro noOp hfull
    obtain ⟨r', hrun, -⟩ := noOp.remove
    rcases blockArrayRemove_empty rep empty dest with ⟨-, hfails⟩ | ⟨hroom, -⟩
    · rw [hfails] at hrun
      cases hrun
    · exact hroom hfull
  · intro hroom
    constructor
    case read =>
      simp only [blockArrayRead, seekWalk_empty rep empty, ok_bind]
    case write =>
      refine ⟨r, ?_, rfl⟩
      simp only [blockArrayWrite, seekWalk_empty rep empty, ok_bind]
    case remove =>
      rcases blockArrayRemove_empty rep empty dest with ⟨hfull, -⟩ | ⟨-, r', hrun, rep'⟩
      · exact absurd hfull hroom
      · exact ⟨r', hrun, by rw [contents_spec rep, contents_spec rep']⟩
    case ext_read => exact extArrayRead_empty empty
    case ext_write => exact ⟨e, extArrayWrite_empty empty src, rfl⟩
    case ext_remove => exact ⟨e, extArrayRemove_empty hlen spanned.size_pos divides empty, rfl⟩

/-! ## Full and partly filled blocks -/

/-- An array with blocks of `cap` bytes. -/
def createBlocks (cap : Nat) : Outcome (BlockArray (blocksOf SlabBlocks.stackedBlocks cap)) :=
  blockArrayCreate SlabBlocks.stackedBlocks (fun _ => 0) ArrayAgreement.freshBlocks cap

abbrev oneByteBlocks : BlockAllocator := blocksOf SlabBlocks.stackedBlocks 1

def oneByteCreate : Outcome (BlockArray oneByteBlocks) := createBlocks 1

/-- The first bytes in blocks of `cap` bytes. -/
theorem insert_reached {cap : Nat} (hpos : 0 < cap)
    (fits : alignedSize (blockHeader + cap) * 512 + headerSize < 2 ^ 32) {src : List UInt8}
    (hsrc : src ≠ []) (hsmall : src.length < 2 ^ 31) :
    ∃ r₀ r, createBlocks cap = .ok r₀ ∧ blockArrayInsert r₀ 0 src = .ok r ∧
      Trace (blockRuns _) r₀ [(.insert 0 src fun _ => 0, .inserted)] r ∧
      BlockArrays.Represents r src := by
  obtain ⟨r₀, init⟩ : ∃ r₀, createBlocks cap = .ok r₀ :=
    SlabBlocks.create_returns _ _ _ _ _ hpos fits
  have hfits := (SlabBlocks.create_fits_iff (SlabBlocks.cap_lt fits) init).mpr fits
  have rep₀ := create_represents init
  have allowed : Allowed 0 (.insert 0 src fun _ => 0) := by
    refine ⟨le_refl 0, hsrc, ?_⟩
    rw [Nat.zero_add]
    exact hsmall
  obtain ⟨r, hrun, rep⟩ := blockArrayInsert_spec rep₀ hfits allowed.1 hsrc
  have hstep : BlockArrays.step r₀ (.insert 0 src fun _ => 0) = .ok (.inserted, r) := by
    rw [BlockArrays.step, hrun]
    rfl
  have hall : [].take 0 ++ src ++ [].drop 0 = src := by simp
  exact ⟨r₀, r, init, hrun, .cons ⟨0, blockArrayGetlen_spec rep₀, allowed⟩ hstep (.nil r),
    hall ▸ rep⟩

/-- From the second of two bytes on, in a block of three and in an array of two. -/
theorem noOp_inside_a_block :
    ∃ r₀ r, createBlocks 3 = .ok r₀ ∧
      Trace (blockRuns _) r₀ [(.insert 0 [7, 8] fun _ => 0, .inserted)] r ∧
      BlockArrays.contents r = .ok [7, 8] ∧
      NoOp r ⟨some fun _ => 7, 2, 2⟩ ⟨1, 1, 0⟩ 1 (fun _ => 9) false := by
  obtain ⟨r₀, r, init, hinsert, run, rep⟩ :=
    insert_reached (show 0 < 3 by decide) (by decide) (List.cons_ne_nil 7 [8])
      (show 2 < 2 ^ 31 by decide)
  have hruns : (createBlocks 3 >>= fun r₀ => blockArrayInsert r₀ 0 [7, 8] >>= fun r =>
      (blockArrayRemove r ⟨1, 1, 0⟩ 1 false).map fun _ => ()) = .ok () := by
    decide +kernel
  rw [init, ok_bind, hinsert, ok_bind] at hruns
  refine ⟨r₀, r, init, run, contents_spec rep, (noOp_iff init run (show 2 < 2 ^ 32 by decide)
    (Nat.one_dvd 2) ⟨by decide, by decide, by decide⟩ rfl _ _).mpr fun hfull => ?_⟩
  have hcases : (_ ∧ blockArrayRemove r ⟨1, 1, 0⟩ 1 false = _) ∨ _ :=
    blockArrayRemove_empty rep rfl false
  rcases hcases with ⟨-, hfails⟩ | ⟨hroom, -⟩
  · rw [hfails] at hruns
    cases hruns
  · exact hroom hfull

/-- Nothing is to be removed from the full block, and the assertion fails. -/
theorem full_block_asserts :
    ∃ r₀ r, oneByteCreate = .ok r₀ ∧
      Trace (blockRuns oneByteBlocks) r₀ [(.insert 0 [7] fun _ => 0, .inserted)] r ∧
      blockArrayGetlen r = .ok 1 ∧ Spanned ⟨0, 1, 0⟩ 1 ∧
      blockArrayRemove r ⟨0, 1, 0⟩ 1 false = .error .assertion := by
  obtain ⟨r₀, r, init, hinsert, run, rep⟩ :=
    insert_reached Nat.one_pos (by decide) (List.cons_ne_nil 7 []) (show 1 < 2 ^ 31 by decide)
  refine ⟨r₀, r, init, run, blockArrayGetlen_spec rep, ⟨by decide, by decide, by decide⟩, ?_⟩
  have hfails : (createBlocks 1 >>= fun r₀ => blockArrayInsert r₀ 0 [7] >>= fun r =>
      (blockArrayRemove r ⟨0, 1, 0⟩ 1 false).map fun _ => ()) = .error .assertion := by
    decide +kernel
  rw [init, ok_bind, hinsert, ok_bind] at hfails
  cases hrun : blockArrayRemove r ⟨0, 1, 0⟩ 1 false with
  | error fault =>
    rw [hrun] at hfails
    exact congrArg Except.error (Except.error.inj hfails)
  | ok result =>
    rw [hrun] at hfails
    cases hfails

end EmptySelections
