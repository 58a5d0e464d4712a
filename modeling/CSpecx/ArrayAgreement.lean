import CSpecx.BlockArrayRemove
import CSpecx.Component
import CSpecx.ExtArrays
import CSpecx.SlabBlocks

/-!
# The two arrays side by side

Both arrays refine the byte sequence, so they answer every operation of a run
alike. Nothing depends on which blocks the allocator hands out, but it has to have
room for them: the size of a slab of 512 blocks is formed in 32 bits.
-/

namespace ArrayAgreement

open CExec Component ByteSequence BlockArrays ExtArrays SlabBlocks
open SlabAllocator (SlabAlloc Granted alignedSize blockHeader headerSize)

variable {A : BlockAllocator} {b b' : BlockArray A} {e : ExtArray} {xs : List UInt8}

/-- A permitted operation keeps the block array a refinement, too. -/
theorem blockArray_refines (rep : BlockArrays.Represents b xs) (fits : A.Fits) {op : Op}
    (permitted : Permitted xs.length op) :
    ∃ b', BlockArrays.step b op = .ok ((apply xs op).1, b') ∧
      BlockArrays.Represents b' (apply xs op).2 := by
  apply step_selects rep (.inl fits) permitted.allowed
  cases op with
  | insert ofst src grown => trivial
  | read str size => exact permitted.nelems_pos
  | write str size src => exact permitted.nelems_pos
  | remove str size dest => exact permitted.nelems_pos
  | getlen => trivial

/-- Every operation is applied to both arrays. -/
def both (A : BlockAllocator) : Interface (BlockArray A × ExtArray) Op (Reply × Reply) where
  pre st op := Permitted st.2.len op
  step st op := do
    let (rb, b) ← BlockArrays.step st.1 op
    let (re, e) ← ExtArrays.step st.2 op
    .ok ((rb, re), (b, e))

/-- Both replies are the answer of the byte sequence. -/
inductive BothStep : List UInt8 → Op → Reply × Reply → List UInt8 → Prop where
  | answer (xs : List UInt8) (op : Op) :
      BothStep xs op ((apply xs op).1, (apply xs op).1) (apply xs op).2

def Related (st : BlockArray A × ExtArray) (xs : List UInt8) : Prop :=
  BlockArrays.Represents st.1 xs ∧ ExtArrays.Represents st.2 xs

theorem both_simulates (fits : A.Fits) : Simulation (both A) BothStep Related := by
  rintro ⟨b, e⟩ xs op ⟨repb, repe⟩ permitted
  have permitted' : Permitted xs.length op := repe.length ▸ permitted
  obtain ⟨b', hb, repb'⟩ := blockArray_refines repb fits permitted'
  obtain ⟨e', he, repe'⟩ := ExtArrays.step_refines repe permitted
  exact ⟨_, (b', e'), _, by simp only [both, hb, he, ok_bind], .answer xs op, repb', repe'⟩

theorem create_related {A : Nat → Nat → BlockAllocator} {tail : Nat → UInt8}
    {blocks : Nat → BlockArrays.Block} {cap : Nat} {b : BlockArray (blocksOf A cap)}
    (init : blockArrayCreate A tail blocks cap = .ok b) : Related (b, extArrayCreate) [] :=
  ⟨create_represents init, extArrayCreate_represents⟩

theorem replies_agree {trace : List (Op × Reply × Reply)} {ys : List UInt8}
    (run : SpecTrace BothStep xs trace ys) : ∀ call ∈ trace, call.2.1 = call.2.2 := by
  induction run with
  | nil _ => exact fun call hcall => nomatch hcall
  | cons hstep _ ih =>
    intro call hcall
    rcases List.mem_cons.mp hcall with rfl | htail
    · cases hstep
      rfl
    · exact ih call htail

/-- On every run the arrays answer alike and hold the same bytes, and no permitted
call fails. -/
def Agrees (b₀ : BlockArray A) : Prop :=
  ∀ trace b e, Trace (both A) (b₀, extArrayCreate) trace (b, e) →
    (∀ call ∈ trace, call.2.1 = call.2.2) ∧
      blockArrayGetlen b = .ok (extArrayGetLen e) ∧
      BlockArrays.contents b = .ok (ExtArrays.contents e) ∧
      ∀ op, Permitted e.len op → ∃ reply b' e',
        (both A).step (b, e) op = .ok ((reply, reply), (b', e'))

theorem agrees_of_related {b₀ : BlockArray A} (fits : A.Fits)
    (related₀ : Related (b₀, extArrayCreate) []) : Agrees b₀ := by
  intro trace b e run
  obtain ⟨xs, spec, related⟩ := (both_simulates fits).trace related₀ run
  have hlen : blockArrayGetlen b = .ok (extArrayGetLen e) := by
    rw [blockArrayGetlen_spec related.1, related.2.length]
    rfl
  have hcontents : BlockArrays.contents b = .ok (ExtArrays.contents e) := by
    rw [contents_spec related.1, related.2.contents_eq]
  refine ⟨replies_agree spec, hlen, hcontents, fun op permitted => ?_⟩
  obtain ⟨reply, ⟨b', e'⟩, _, hstep, spec', -⟩ := both_simulates fits _ _ op related permitted
  cases spec'
  exact ⟨_, b', e', hstep⟩

/-- One byte in front of the empty arrays. -/
def firstByte : Op := .insert 0 [0] fun _ => 0

theorem firstByte_permitted : Permitted extArrayCreate.len firstByte :=
  ⟨le_refl 0, List.cons_ne_nil _ _, show 0 + 1 < 2 ^ 31 by decide⟩

/-- The first insertion shows whether there is room for a slab. -/
theorem Agrees.fits {b₀ : BlockArray A} (rep : BlockArrays.Represents b₀ []) (agrees : Agrees b₀) :
    A.Fits := by
  obtain ⟨-, -, -, hreturns⟩ := agrees [] b₀ extArrayCreate (.nil _)
  obtain ⟨reply, b', e', hrun⟩ := hreturns firstByte firstByte_permitted
  obtain ⟨⟨rb, b''⟩, hrun, -⟩ := bind_eq_ok.mp hrun
  exact (step_fits rep hrun).resolve_right fun h => h 0 [0] _ rfl

section Slabs

variable {malloc : SlabAlloc → SlabAllocator.Block} {cap : Nat}

/-- On slabs from any `malloc` that succeeds, the arrays agree exactly when the
size of a slab of 512 blocks fits 32 bits. -/
theorem block_array_agrees_iff (slabs : Nat → SlabAllocator.Slab) (words : Nat → Option Nat)
    (fresh : ∀ a, Granted a (some (malloc a)))
    (tail : Nat → UInt8) (blocks : Nat → BlockArrays.Block) (hpos : 0 < cap) (hcap : cap < 2 ^ 32) :
    (∃ b₀, blockArrayCreate (slabBlocks slabs words malloc fresh) tail blocks cap = .ok b₀ ∧
        Agrees b₀) ↔
      alignedSize (blockHeader + cap) * 512 + headerSize < 2 ^ 32 := by
  constructor
  · rintro ⟨b₀, init, agrees⟩
    exact (create_fits_iff hcap init).mp (agrees.fits (create_represents init))
  · intro fits
    obtain ⟨b₀, init⟩ := create_returns slabs words fresh tail blocks hpos fits
    exact ⟨b₀, init, agrees_of_related ((create_fits_iff hcap init).mpr fits) (create_related init)⟩

end Slabs

/-- What is behind the bytes that are stored. -/
def freshBlocks : Nat → BlockArrays.Block := fun _ => ⟨none, none, 0, fun _ => 0⟩

/-- Blocks of three bytes: the elements straddle the blocks, and the removal
deletes one of the three. -/
theorem block_array_agrees_straddling :
    ∃ (b₀ b : BlockArray (blocksOf stackedBlocks 3)) (e : ExtArray)
      (trace : List (Op × Reply × Reply)),
      blockArrayCreate stackedBlocks (fun _ => 0) freshBlocks 3 = .ok b₀ ∧
      Trace (both _) (b₀, extArrayCreate) trace (b, e) ∧
      trace.map (fun call => call.2.1) = [.inserted, .count 2 [3, 4, 7, 8]] ∧
      (∀ call ∈ trace, call.2.1 = call.2.2) ∧
      blockArrayGetlen b = .ok (extArrayGetLen e) ∧
      BlockArrays.contents b = .ok (ExtArrays.contents e) ∧
      ∀ op, Permitted e.len op → ∃ reply b' e',
        (both _).step (b, e) op = .ok ((reply, reply), (b', e')) := by
  obtain ⟨b₀, init, agrees⟩ := (block_array_agrees_iff SlabAllocator.noSlabs (fun _ => none)
    nextBlock_granted (fun _ => 0) freshBlocks (show 0 < 3 by decide) (by decide)).mpr
      (by decide)
  have fits := agrees.fits (create_represents init)
  have permitted₁ : (both (blocksOf stackedBlocks 3)).pre (b₀, extArrayCreate)
      (.insert 0 [1, 2, 3, 4, 5, 6, 7, 8] fun _ => 0) :=
    ⟨Nat.zero_le _, List.cons_ne_nil _ _, show 0 + 8 < 2 ^ 31 by decide⟩
  obtain ⟨r₁, st₁, xs₁, hstep₁, answer₁, rel₁⟩ :=
    both_simulates fits _ _ _ (create_related init) permitted₁
  cases answer₁
  have hlen : st₁.2.len = 8 := rel₁.2.length.symm
  have permitted₂ : (both (blocksOf stackedBlocks 3)).pre st₁ (.remove ⟨1, 2, 2⟩ 2 true) := by
    show InRange _ _ st₁.2.len
    rw [hlen]
    exact ⟨⟨by decide, by decide, by decide, by decide⟩, by decide⟩
  obtain ⟨r₂, ⟨b, e⟩, xs₂, hstep₂, answer₂, -⟩ := both_simulates fits _ _ _ rel₁ permitted₂
  cases answer₂
  have run : Trace (both _) (b₀, extArrayCreate) _ (b, e) :=
    .cons permitted₁ hstep₁ (.cons permitted₂ hstep₂ (.nil _))
  exact ⟨b₀, b, e, _, init, run, by decide, agrees _ _ _ run⟩

/-- A slab for blocks of `8388577` bytes is asked for with 32 bytes: the array is
created, and the first byte put into it is stored outside. -/
theorem wide_blocks_disagree : ∃ b₀ : BlockArray (blocksOf stackedBlocks 8388577),
    blockArrayCreate stackedBlocks (fun _ => 0) freshBlocks 8388577 = .ok b₀ ∧
      (both _).pre (b₀, extArrayCreate) firstByte ∧
      (∀ result, (both _).step (b₀, extArrayCreate) firstByte ≠ .ok result) ∧ ¬ Agrees b₀ := by
  obtain ⟨b₀, init⟩ : ∃ b₀ : BlockArray (blocksOf stackedBlocks 8388577),
      blockArrayCreate stackedBlocks (fun _ => 0) freshBlocks 8388577 = .ok b₀ := ⟨_, rfl⟩
  have hrep := create_represents init
  have short : ¬ (blocksOf stackedBlocks 8388577).Fits := fun fits =>
    absurd ((create_fits_iff (by decide) init).mp fits) (by decide)
  refine ⟨b₀, init, firstByte_permitted, ?_, fun agrees => short (agrees.fits hrep)⟩
  rintro ⟨reply, st⟩ hrun
  obtain ⟨⟨rb, b'⟩, hrun, -⟩ := bind_eq_ok.mp hrun
  exact short ((step_fits hrep hrun).resolve_right fun h => h 0 [0] _ rfl)

end ArrayAgreement
