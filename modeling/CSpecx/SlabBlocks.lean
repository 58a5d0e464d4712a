import CSpecx.BlockArrayHeap
import Mathlib.Data.Finset.Lattice.Fold
import Mathlib.Order.Lattice.Nat

/-!
# Blocks from the slab allocator

The slab allocator meets the contract of the block array's allocator for slots of
any size, when `i_malloc` returns blocks that do not overlap. A slab has room for
its slots where the total size stays below 32 bits; elsewhere the first allocation
runs over the end of the block.
-/

namespace SlabBlocks

open CExec SlabAllocator BlockArrays

/-- The slab allocator with the slots it has handed out. -/
structure SlabState where
  alloc : SlabAlloc
  live : List Nat

section Slots

variable (slabs : Nat → Slab) (words : Nat → Option Nat)
  (malloc : SlabAlloc → SlabAllocator.Block)

/-- `slab_alloc_init`, on parameters of type `u32`. -/
def initSlots (size cap : Nat) : Outcome SlabState := do
  let a ← slabAllocInit slabs words (u32 size) cap
  .ok ⟨a, []⟩

/-- `malloc` supplies the slabs. -/
def allocSlot (st : SlabState) : Outcome (Option Nat × SlabState) := do
  let (p, a) ← slabAllocAlloc st.alloc (some (malloc st.alloc))
  .ok (p, ⟨a, p.toList ++ st.live⟩)

def freeSlot (st : SlabState) (p : Nat) : Outcome SlabState := do
  let a ← slabAllocFree st.alloc p
  .ok ⟨a, st.live.erase p⟩

/-- A slab has room for `cap` slots. -/
def SlabFits (size cap : Nat) : Prop := alignedSize (u32 size) * cap + headerSize < 2 ^ 32

/-- Between calls: the slabs are in order, or there never was room for one. -/
def Usable (size cap : Nat) (st : SlabState) : Prop :=
  (SlabFits size cap ∧ ∃ ss, SlabAllocator.Invariant st.alloc st.live ss) ∨
    (¬ SlabFits size cap ∧ st.live = [] ∧
      ∀ result, slabAllocAlloc st.alloc (some (malloc st.alloc)) ≠ .ok result)

variable {slabs words malloc} {size cap p : Nat} {st st' : SlabState}

theorem initSlots_usable (hrun : initSlots slabs words size cap = .ok st) :
    Usable malloc size cap st ∧ st.live = [] := by
  obtain ⟨a, init, hrun⟩ := bind_eq_ok.mp hrun
  obtain rfl := Except.ok.inj hrun
  by_cases fits : SlabFits size cap
  · exact ⟨.inl ⟨fits, [], init_invariant fits init⟩, rfl⟩
  · exact ⟨.inr ⟨fits, rfl, first_alloc_faults (u32_lt size) init (not_lt.mp fits) (malloc a)⟩, rfl⟩

theorem allocSlot_usable (fresh : ∀ a, Granted a (some (malloc a))) (fits : SlabFits size cap)
    (usable : Usable malloc size cap st) :
    ∃ p st', allocSlot malloc st = .ok (some p, st') ∧ Usable malloc size cap st' ∧
      p ∉ st.live ∧ st'.live = p :: st.live := by
  obtain ⟨-, ss, inv⟩ := usable.resolve_right fun short => short.1 fits
  rcases slabAllocAlloc_spec inv (fresh st.alloc) with ⟨p, a', hrun, hp, hinv⟩ | ⟨-, hnone, -⟩
  · refine ⟨p, ⟨a', p :: st.live⟩, by rw [allocSlot, hrun]; rfl, .inl ⟨fits, ?_⟩, hp, rfl⟩
    rcases hinv with ⟨inv', -⟩ | ⟨base, inv', -⟩
    · exact ⟨ss, inv'⟩
    · exact ⟨base :: ss, inv'⟩
  · exact absurd hnone (Option.some_ne_none _)

theorem freeSlot_usable (usable : Usable malloc size cap st) (hp : p ∈ st.live) :
    ∃ st', freeSlot st p = .ok st' ∧ Usable malloc size cap st' ∧ st'.live = st.live.erase p := by
  rcases usable with ⟨fits, ss, inv⟩ | ⟨-, hnone, -⟩
  · obtain ⟨a', ss', hrun, inv'⟩ := slabAllocFree_spec inv hp
    exact ⟨⟨a', st.live.erase p⟩, by rw [freeSlot, hrun]; rfl, .inl ⟨fits, ss', inv'⟩, rfl⟩
  · rw [hnone] at hp
    exact absurd hp List.not_mem_nil

theorem Usable.nodup (usable : Usable malloc size cap st) : st.live.Nodup := by
  rcases usable with ⟨-, ss, inv⟩ | ⟨-, hnone, -⟩
  · exact inv.live_nodup
  · rw [hnone]
    exact List.nodup_nil

end Slots

/-- Slots of the slab allocator, `malloc` supplying the slabs. -/
def slabBlocks (slabs : Nat → Slab) (words : Nat → Option Nat)
    (malloc : SlabAlloc → SlabAllocator.Block) (fresh : ∀ a, Granted a (some (malloc a)))
    (size cap : Nat) : BlockAllocator where
  State := SlabState
  Fits := SlabFits size cap
  init := initSlots slabs words size cap
  Ok := Usable malloc size cap
  live st := st.live.toFinset
  alloc := allocSlot malloc
  free := freeSlot
  init_ok := by
    intro st hrun
    obtain ⟨usable, hnone⟩ := initSlots_usable hrun
    exact ⟨usable, by rw [hnone]; rfl⟩
  alloc_ok := by
    intro fits st usable
    obtain ⟨p, st', hrun, usable', hp, hlive⟩ := allocSlot_usable fresh fits usable
    exact ⟨p, st', hrun, usable', by simpa using hp, by simp [hlive]⟩
  alloc_short := by
    rintro short st usable ⟨ptr, st'⟩ hrun
    obtain ⟨-, -, hfaults⟩ := usable.resolve_left fun h => short h.1
    obtain ⟨result, hrun, -⟩ := bind_eq_ok.mp hrun
    exact hfaults result hrun
  fits_of_live := by
    rintro st p (⟨fits, -⟩ | ⟨-, hnone, -⟩) hp
    · exact fits
    · simp [hnone] at hp
  free_ok := by
    intro st p usable hp
    obtain ⟨st', hrun, usable', hlive⟩ := freeSlot_usable usable (List.mem_toFinset.mp hp)
    refine ⟨st', hrun, usable', ?_⟩
    ext q
    simp only [hlive, List.mem_toFinset, Finset.mem_erase, usable.nodup.mem_erase_iff]

section Create

variable {slabs : Nat → Slab} {words : Nat → Option Nat}
  {malloc : SlabAlloc → SlabAllocator.Block} {fresh : ∀ a, Granted a (some (malloc a))}
  {tail : Nat → UInt8} {blocks : Nat → BlockArrays.Block} {cap : Nat}

/-- Such a `cap_per_node` is a `u32`. -/
theorem cap_lt (fits : alignedSize (blockHeader + cap) * 512 + headerSize < 2 ^ 32) :
    cap < 2 ^ 32 := by
  have hle := le_alignedSize (blockHeader + cap)
  omega

/-- Whether a slab has room for its 512 blocks, once the array is there. -/
theorem create_fits_iff {b : BlockArray (blocksOf (slabBlocks slabs words malloc fresh) cap)}
    (hcap : cap < 2 ^ 32)
    (init : blockArrayCreate (slabBlocks slabs words malloc fresh) tail blocks cap = .ok b) :
    (blocksOf (slabBlocks slabs words malloc fresh) cap).Fits ↔
      alignedSize (blockHeader + cap) * 512 + headerSize < 2 ^ 32 := by
  have hsize := create_size hcap init
  have hblock : blockHeader + cap < 2 ^ 32 :=
    lt_of_le_of_lt (Nat.add_le_add_right (by decide) _) hsize
  show alignedSize (u32 (u32 (blockHeader + cap))) * 512 + headerSize < 2 ^ 32 ↔ _
  rw [u32_of_lt hblock, u32_of_lt hblock]

theorem create_returns (slabs : Nat → Slab) (words : Nat → Option Nat)
    (fresh : ∀ a, Granted a (some (malloc a))) (tail : Nat → UInt8)
    (blocks : Nat → BlockArrays.Block) (hpos : 0 < cap)
    (fits : alignedSize (blockHeader + cap) * 512 + headerSize < 2 ^ 32) :
    ∃ b, blockArrayCreate (slabBlocks slabs words malloc fresh) tail blocks cap = .ok b := by
  have hblock : blockHeader + cap ≤ alignedSize (blockHeader + cap) := le_alignedSize _
  have hheader : blockHeader = 24 := rfl
  have hslot : u32 (blockHeader + cap) = blockHeader + cap := u32_of_lt (by omega)
  have hfield : 8 ≤ blockHeader + cap := by omega
  have hslots : 0 < 512 := by decide
  have hsize : arrayHeader + cap < 2 ^ 32 := by
    show 56 + cap < 2 ^ 32
    omega
  obtain ⟨s, hs⟩ : ∃ s, initSlots slabs words (u32 (blockHeader + cap)) 512 = .ok s := by
    simp only [initSlots, hslot, slabAllocInit, assert_pos hfield, assert_pos hslots, ok_bind]
    exact ⟨_, rfl⟩
  exact ⟨_, create_ok tail blocks hpos hsize hs⟩

end Create

/-- An `i_malloc` that answers with the address above every block it gave out. -/
def nextBlock (a : SlabAlloc) : SlabAllocator.Block :=
  ⟨a.blocks.sup fun b => b + (a.slabs b).totalSize, fun _ => none⟩

theorem nextBlock_granted (a : SlabAlloc) : Granted a (some (nextBlock a)) := fun _ hb =>
  .inr (Finset.le_sup (f := fun b => b + (a.slabs b).totalSize) hb)

/-- Slots out of blocks that lie one above the other. -/
def stackedBlocks : Nat → Nat → BlockAllocator :=
  slabBlocks noSlabs (fun _ => none) nextBlock nextBlock_granted

end SlabBlocks
