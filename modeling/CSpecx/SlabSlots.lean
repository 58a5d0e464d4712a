import CSpecx.SlabAllocatorRuns

/-!
# The slots of a slab

The aligned size, its product with the number of slots and the sum with the
header are formed in 32 bits. A slab has room for its slots exactly when none of
the three wraps.
-/

namespace SlabAllocator

open CExec Component

/-- `sizeof (struct block)`. -/
def blockHeader : Nat := 24

/-- The slabs that `block_array_create` sets up. -/
def blockArraySlabs (slabs : Nat → Slab) (words : Nat → Option Nat) (capPerNode : Nat) :
    Outcome SlabAlloc := do
  assert (0 < capPerNode)
  slabAllocInit slabs words (u32 (blockHeader + capPerNode)) 512

/-- The slots of a slab in a block of `total` bytes: each holds what was
requested, lies behind the header and inside the block, and behind the others. -/
structure SlotsFit (request : Nat) (a : SlabAlloc) (total : Nat) : Prop where
  request_le : request ≤ a.size
  inside : ∀ i < a.capPerSlab, headerSize + a.size * i + a.size ≤ total
  apart : ∀ i < a.capPerSlab, ∀ j < i, a.size * j + a.size ≤ a.size * i

/-- The block that is asked for has room for the slots, and over every run each
block that is held has, and no permitted call leaves its block. -/
def SlabsHold (request : Nat) (a₀ : SlabAlloc) : Prop :=
  SlotsFit request a₀ (totalSize a₀) ∧
    ∀ trace st, Trace slabAllocator ⟨a₀, []⟩ trace st →
      (∀ s ∈ st.alloc.blocks, SlotsFit request st.alloc (st.alloc.slabs s).totalSize) ∧
        ∀ op, Permitted st op → ∃ reply st', step st op = .ok (reply, st')

/-- The size and the number of the slots. -/
structure SameSlots (a a' : SlabAlloc) : Prop where
  size : a'.size = a.size
  cap : a'.capPerSlab = a.capPerSlab

section Kept

variable {a a' a'' : SlabAlloc} {s n cur ptr : Nat} {ret v : Option Nat} {grant : Option Block}

theorem SameSlots.rfl : SameSlots a a := ⟨by rfl, by rfl⟩

theorem SameSlots.trans (h : SameSlots a a') (h' : SameSlots a' a'') : SameSlots a a'' :=
  ⟨h'.size.trans h.size, h'.cap.trans h.cap⟩

theorem store_same (hrun : a.store ptr v = .ok a') : SameSlots a a' := by
  obtain ⟨_, -, hrun⟩ := bind_eq_ok.mp hrun
  obtain rfl := Except.ok.inj hrun
  exact ⟨by rfl, by rfl⟩

theorem threadSlots_same (hrun : threadSlots n a cur = .ok a') : SameSlots a a' := by
  induction n generalizing a cur with
  | zero => exact store_same hrun
  | succ n ih =>
    obtain ⟨b, hstore, hrun⟩ := bind_eq_ok.mp hrun
    exact (store_same hstore).trans (ih hrun)

theorem linkHead_same (hrun : linkHead a s = .ok a') : SameSlots a a' := by
  unfold linkHead at hrun
  split at hrun
  · obtain rfl := Except.ok.inj hrun
    exact .rfl
  · obtain ⟨_, -, hrun⟩ := bind_eq_ok.mp hrun
    obtain ⟨_, -, hrun⟩ := bind_eq_ok.mp hrun
    obtain rfl := Except.ok.inj hrun
    exact ⟨by rfl, by rfl⟩

theorem slabAllocExtend_same (hrun : slabAllocExtend a grant = .ok (ret, a')) : SameSlots a a' := by
  obtain ⟨_, -, hrun⟩ := bind_eq_ok.mp hrun
  cases grant with
  | none =>
    obtain ⟨-, rfl⟩ := ok_pair_inj hrun
    exact .rfl
  | some block =>
    obtain ⟨b, hlink, hrun⟩ := bind_eq_ok.mp hrun
    obtain ⟨c, hthread, hrun⟩ := bind_eq_ok.mp hrun
    obtain ⟨-, rfl⟩ := ok_pair_inj hrun
    have linked := linkHead_same hlink
    have threaded := threadSlots_same hthread
    exact ⟨threaded.size.trans linked.size, threaded.cap.trans linked.cap⟩

theorem takeSlot_same (hrun : takeSlot a s = .ok (ret, a')) : SameSlots a a' := by
  obtain ⟨v, -, hrun⟩ := bind_eq_ok.mp hrun
  split at hrun
  · cases hrun
  · obtain ⟨_, -, hrun⟩ := bind_eq_ok.mp hrun
    obtain ⟨-, rfl⟩ := ok_pair_inj hrun
    exact ⟨by rfl, by rfl⟩

theorem slabAllocAlloc_same (hrun : slabAllocAlloc a grant = .ok (ret, a')) : SameSlots a a' := by
  obtain ⟨cached, -, hrun⟩ := bind_eq_ok.mp hrun
  cases cached with
  | some s => exact takeSlot_same hrun
  | none =>
    obtain ⟨found, -, hrun⟩ := bind_eq_ok.mp hrun
    cases found with
    | some s =>
      have taken := takeSlot_same hrun
      exact ⟨taken.size, taken.cap⟩
    | none =>
      obtain ⟨⟨extended, b⟩, hextend, hrun⟩ := bind_eq_ok.mp hrun
      have same := slabAllocExtend_same hextend
      cases extended with
      | none =>
        obtain ⟨-, rfl⟩ := ok_pair_inj hrun
        exact same
      | some s =>
        have taken := takeSlot_same hrun
        exact ⟨taken.size.trans same.size, taken.cap.trans same.cap⟩

theorem unlinkNext_same (hrun : unlinkNext a s = .ok a') : SameSlots a a' := by
  obtain ⟨v, -, hrun⟩ := bind_eq_ok.mp hrun
  split at hrun
  · obtain rfl := Except.ok.inj hrun
    exact .rfl
  · obtain ⟨_, -, hrun⟩ := bind_eq_ok.mp hrun
    obtain rfl := Except.ok.inj hrun
    exact ⟨by rfl, by rfl⟩

theorem unlinkPrev_same (hrun : unlinkPrev a s = .ok a') : SameSlots a a' := by
  obtain ⟨v, -, hrun⟩ := bind_eq_ok.mp hrun
  split at hrun
  · obtain rfl := Except.ok.inj hrun
    exact .rfl
  · obtain ⟨_, -, hrun⟩ := bind_eq_ok.mp hrun
    obtain rfl := Except.ok.inj hrun
    exact ⟨by rfl, by rfl⟩

theorem free_same (hrun : a.free s = .ok a') : SameSlots a a' := by
  obtain ⟨_, -, hrun⟩ := bind_eq_ok.mp hrun
  obtain rfl := Except.ok.inj hrun
  exact ⟨by rfl, by rfl⟩

theorem removeSlab_same (hrun : removeSlab a s = .ok a') : SameSlots a a' := by
  obtain ⟨v, hslab, hrun⟩ := bind_eq_ok.mp hrun
  obtain ⟨b, hnext, hrun⟩ := bind_eq_ok.mp hrun
  obtain ⟨c, hprev, hrun⟩ := bind_eq_ok.mp hrun
  have same := (unlinkNext_same hnext).trans ((unlinkPrev_same hprev).trans (free_same hrun))
  refine ⟨same.size.trans ?_, same.cap.trans ?_⟩
  · split <;> split <;> rfl
  · split <;> split <;> rfl

theorem slabAllocFree_same (hrun : slabAllocFree a ptr = .ok a') : SameSlots a a' := by
  obtain ⟨s, -, hrun⟩ := bind_eq_ok.mp hrun
  obtain ⟨b, hreturn, hrun⟩ := bind_eq_ok.mp hrun
  obtain ⟨c, hupdate, hrun⟩ := bind_eq_ok.mp hrun
  obtain ⟨v, -, hrun⟩ := bind_eq_ok.mp hrun
  have returned : SameSlots a b := by
    obtain ⟨_, -, hreturn⟩ := bind_eq_ok.mp hreturn
    obtain ⟨_, -, hreturn⟩ := bind_eq_ok.mp hreturn
    obtain ⟨d, hstore, hreturn⟩ := bind_eq_ok.mp hreturn
    obtain rfl := Except.ok.inj hreturn
    exact (store_same hstore).trans ⟨by rfl, by rfl⟩
  have updated : SameSlots b c := by
    obtain ⟨cached, -, hupdate⟩ := bind_eq_ok.mp hupdate
    cases cached with
    | some _ =>
      obtain rfl := Except.ok.inj hupdate
      exact .rfl
    | none =>
      obtain rfl := Except.ok.inj hupdate
      exact ⟨by rfl, by rfl⟩
  refine returned.trans (updated.trans ?_)
  split at hrun
  · exact removeSlab_same hrun
  · obtain rfl := Except.ok.inj hrun
    exact .rfl

theorem step_same {st st' : State} {op : Op} {reply : Reply}
    (hstep : step st op = .ok (reply, st')) : SameSlots st.alloc st'.alloc := by
  cases op with
  | alloc grant =>
    obtain ⟨⟨ptr, b⟩, halloc, hstep⟩ := bind_eq_ok.mp hstep
    obtain ⟨-, rfl⟩ := ok_pair_inj hstep
    exact slabAllocAlloc_same halloc
  | free ptr =>
    obtain ⟨b, hfree, hstep⟩ := bind_eq_ok.mp hstep
    obtain ⟨-, rfl⟩ := ok_pair_inj hstep
    exact slabAllocFree_same hfree
  | write ptr words =>
    obtain ⟨-, rfl⟩ := ok_pair_inj hstep
    exact ⟨by rfl, by rfl⟩

theorem runs_same (a₀ : SlabAlloc) : Preserves slabAllocator fun st => SameSlots a₀ st.alloc :=
  fun _ _ _ _ same _ hstep => same.trans (step_same hstep)

end Kept

section Sizes

variable {slabs : Nat → Slab} {words : Nat → Option Nat} {a : SlabAlloc} {request size cap : Nat}

theorem le_alignedSize (n : Nat) : n ≤ alignedSize n := by
  unfold alignedSize
  omega

theorem alignedSize_le (n : Nat) : alignedSize n ≤ n + 7 := by
  unfold alignedSize
  omega

/-- The slots of a slab lie in a block of the size of the slab. -/
theorem SlotsFit.extent (hrequest : request ≤ a.size) : SlotsFit request a (extent a) := by
  refine ⟨hrequest, fun i hi => ?_, fun i _ j hj => ?_⟩
  · have hmul := Nat.mul_le_mul_left a.size (Nat.succ_le_of_lt hi)
    rw [Nat.mul_succ] at hmul
    unfold SlabAllocator.extent
    omega
  · have hmul := Nat.mul_le_mul_left a.size (Nat.succ_le_of_lt hj)
    rw [Nat.mul_succ] at hmul
    exact hmul

theorem slabAllocInit_fields (init : slabAllocInit slabs words size cap = .ok a) :
    0 < cap ∧ a.size = u32 (alignedSize size) ∧ a.capPerSlab = cap ∧ a.blocks = ∅ ∧
      a.head = none ∧ a.current = none := by
  obtain ⟨_, -, init⟩ := bind_eq_ok.mp init
  obtain ⟨_, hcap, init⟩ := bind_eq_ok.mp init
  obtain rfl := Except.ok.inj init
  exact ⟨assert_eq_ok_iff.mp hcap, by rfl, by rfl, by rfl, by rfl, by rfl⟩

/-- Slots that fit show that no sum wrapped: the block that is asked for is
below `2 ^ 32` bytes whatever it should have been. -/
theorem fits_of_slotsFit (init : slabAllocInit slabs words (u32 request) cap = .ok a)
    (fit : SlotsFit request a (totalSize a)) : alignedSize request * cap + headerSize < 2 ^ 32 := by
  obtain ⟨hcap, hsize, hslots, -⟩ := slabAllocInit_fields init
  have hle := fit.request_le
  have hlt : a.size < 2 ^ 32 := hsize ▸ u32_lt _
  rw [u32_of_lt (show request < 2 ^ 32 by omega)] at hsize
  have haligned : a.size = alignedSize request := by
    rw [hsize]
    refine u32_of_lt ?_
    by_contra hwrap
    have hup := alignedSize_le request
    rw [u32, Nat.mod_eq_sub_mod (by omega), Nat.mod_eq_of_lt (by omega)] at hsize
    omega
  have hlast := fit.inside (cap - 1) (by omega)
  have htotal : totalSize a < 2 ^ 32 := u32_lt _
  have hmul : a.size * (cap - 1) + a.size = a.size * cap := by
    rw [← Nat.mul_succ, Nat.succ_eq_add_one, Nat.sub_add_cancel hcap]
  rw [← haligned]
  omega

theorem slabsHold_of_fits (fits : alignedSize request * cap + headerSize < 2 ^ 32)
    (init : slabAllocInit slabs words (u32 request) cap = .ok a) : SlabsHold request a := by
  obtain ⟨hcap, hsize, hslots, -⟩ := slabAllocInit_fields init
  have hone : alignedSize request * 1 ≤ alignedSize request * cap := Nat.mul_le_mul_left _ hcap
  have hle := le_alignedSize request
  rw [u32_of_lt (show request < 2 ^ 32 by omega)] at init hsize
  rw [u32_of_lt (by omega)] at hsize
  have inv := init_invariant fits init
  constructor
  · rw [inv.toLayout.totalSize_eq]
    exact SlotsFit.extent (by omega)
  · intro trace st run
    obtain ⟨ss, kept⟩ := runs_keep.trace ⟨[], inv⟩ run
    have same : SameSlots a st.alloc := (runs_same a).trace .rfl run
    refine ⟨fun s hs => ?_, fun op permitted => ?_⟩
    · rw [kept.total s ((kept.blocks s).mp hs)]
      refine SlotsFit.extent ?_
      rw [same.size]
      omega
    · obtain ⟨reply, st', -, hstep, -⟩ := step_spec kept permitted
      exact ⟨reply, st', hstep⟩

theorem slabsHold_iff (init : slabAllocInit slabs words (u32 request) cap = .ok a) :
    SlabsHold request a ↔ alignedSize request * cap + headerSize < 2 ^ 32 :=
  ⟨fun holds => fits_of_slotsFit init holds.1, fun fits => slabsHold_of_fits fits init⟩

end Sizes

section Wrapped

variable {slabs : Nat → Slab} {words : Nat → Option Nat} {a : SlabAlloc} {size cap : Nat}

/-- The loop stores into every slot. -/
theorem threadSlots_inside {n cur : Nat} {b : SlabAlloc} (hrun : threadSlots n a cur = .ok b) :
    ∃ words, ({ a with words := words } : SlabAlloc).InBlock (cur + a.size * n) := by
  induction n generalizing a cur with
  | zero =>
    obtain ⟨_, hin, -⟩ := bind_eq_ok.mp hrun
    exact ⟨a.words, access_eq_ok_iff.mp hin⟩
  | succ n ih =>
    obtain ⟨c, hstore, hrun⟩ := bind_eq_ok.mp hrun
    obtain ⟨_, -, hstore⟩ := bind_eq_ok.mp hstore
    obtain rfl := Except.ok.inj hstore
    obtain ⟨words, hin⟩ := ih hrun
    refine ⟨words, ?_⟩
    have hnext : cur + a.size * (n + 1) = cur + a.size + a.size * n := by
      rw [Nat.mul_succ]
      omega
    rw [hnext]
    exact hin

/-- Past the limit the first call runs over the end of its only block. -/
theorem first_alloc_faults (hsize : size < 2 ^ 32)
    (init : slabAllocInit slabs words size cap = .ok a)
    (hwrap : 2 ^ 32 ≤ alignedSize size * cap + headerSize) (block : Block) :
    ∀ result, slabAllocAlloc a (some block) ≠ .ok result := by
  rintro ⟨ptr, b⟩ hrun
  obtain ⟨hcap, hslot, hslots, hblocks, hhead, hcurrent⟩ := slabAllocInit_fields init
  obtain ⟨cached, hcached, hrun⟩ := bind_eq_ok.mp hrun
  rw [cachedSpace, hcurrent] at hcached
  obtain rfl := Except.ok.inj hcached
  obtain ⟨found, hfound, hrun⟩ := bind_eq_ok.mp hrun
  rw [hhead, findSpace] at hfound
  obtain rfl := Except.ok.inj hfound
  obtain ⟨⟨extended, c⟩, hextend, -⟩ := bind_eq_ok.mp hrun
  obtain ⟨_, -, hextend⟩ := bind_eq_ok.mp hextend
  obtain ⟨d, hlink, hextend⟩ := bind_eq_ok.mp hextend
  obtain ⟨_, hthread, -⟩ := bind_eq_ok.mp hextend
  obtain ⟨e, he⟩ : ∃ e, e = (a.receive block (totalSize a)).setSlab block.base
      (freshSlab a.head block.base (totalSize a)) := ⟨_, rfl⟩
  have hehead : e.head = none := by rw [he]; exact hhead
  rw [← he, linkHead, hehead] at hlink
  obtain rfl := Except.ok.inj hlink
  obtain ⟨words', s, hs, -, hend⟩ := threadSlots_inside hthread
  have hheld : s ∈ e.blocks := hs
  have hend : block.base + headerSize + e.size * (e.capPerSlab - 1) + 8 ≤
      s + (e.slabs s).totalSize := hend
  have hsole : s = block.base := by
    rw [he] at hheld
    rcases Finset.mem_insert.mp hheld with h | h
    · exact h
    · rw [hblocks] at h
      exact absurd h (Finset.notMem_empty s)
  have htotal : (e.slabs block.base).totalSize = totalSize a := by
    rw [he, setSlab_self]
    rfl
  have hesize : e.size = a.size := by rw [he]; rfl
  have hecap : e.capPerSlab = cap := by rw [he]; exact hslots
  rw [hsole, htotal, hesize, hecap] at hend
  have hwhole : totalSize a = u32 (a.size * cap + headerSize) := by
    rw [totalSize, hslots]
    exact Nat.mod_add_mod _ _ _
  have hmul : a.size * (cap - 1) + a.size = a.size * cap := by
    rw [← Nat.mul_succ, Nat.succ_eq_add_one, Nat.sub_add_cancel hcap]
  have hup := alignedSize_le size
  by_cases haligned : alignedSize size < 2 ^ 32
  · rw [u32_of_lt haligned] at hslot
    rw [← hslot] at hwrap
    have hshort : totalSize a ≤ a.size * cap + headerSize - 2 ^ 32 := by
      rw [hwhole, u32, Nat.mod_eq_sub_mod hwrap]
      exact Nat.mod_le _ _
    omega
  · have hnone : a.size = 0 := by
      have hmultiple : 8 ∣ alignedSize size := Nat.dvd_mul_left 8 _
      rw [hslot, u32]
      omega
    rw [hwhole, hnone, Nat.zero_mul, Nat.zero_mul] at hend
    have hheader : u32 (0 + headerSize) = headerSize := by decide
    omega

end Wrapped

/-- The slots have room if and only if the size of a slab fits 32 bits, for any
client of the allocator and for the blocks of a block array. -/
theorem slabs_hold_slots_iff {slabs : Nat → Slab} {words : Nat → Option Nat}
    {size cap capPerNode : Nat} {a b : SlabAlloc} (hsize : size < 2 ^ 32)
    (init : slabAllocInit slabs words size cap = .ok a)
    (create : blockArraySlabs slabs words capPerNode = .ok b) :
    (SlabsHold size a ↔ alignedSize size * cap + headerSize < 2 ^ 32) ∧
      (SlabsHold (blockHeader + capPerNode) b ↔
        alignedSize (blockHeader + capPerNode) * 512 + headerSize < 2 ^ 32) := by
  constructor
  · rw [← u32_of_lt hsize] at init
    exact slabsHold_iff init
  · obtain ⟨_, -, create⟩ := bind_eq_ok.mp create
    exact slabsHold_iff create

def noSlabs : Nat → Slab := fun _ => ⟨none, none, none, 0, 0⟩

theorem slabs_hold_slots_iff_small : ∃ a b : SlabAlloc,
    (SlabsHold 12 a ↔ alignedSize 12 * 4 + headerSize < 2 ^ 32) ∧
      (SlabsHold (blockHeader + 40) b ↔
        alignedSize (blockHeader + 40) * 512 + headerSize < 2 ^ 32) := by
  obtain ⟨a, init⟩ : ∃ a, slabAllocInit noSlabs (fun _ => none) 12 4 = .ok a := ⟨_, rfl⟩
  obtain ⟨b, create⟩ : ∃ b, blockArraySlabs noSlabs (fun _ => none) 40 = .ok b := ⟨_, rfl⟩
  exact ⟨a, b, slabs_hold_slots_iff (by decide) init create⟩

/-- Two slots of `2 ^ 31` bytes: the block is as large as the header. -/
theorem header_only_slab : ∃ a, slabAllocInit noSlabs (fun _ => none) (2 ^ 31) 2 = .ok a ∧
    totalSize a = headerSize ∧ ¬ SlabsHold (2 ^ 31) a ∧
    ∀ block result, slabAllocAlloc a (some block) ≠ .ok result := by
  have hsize : 2 ^ 31 < 2 ^ 32 := by decide
  have hwrap : 2 ^ 32 ≤ alignedSize (2 ^ 31) * 2 + headerSize := by decide
  obtain ⟨a, init⟩ : ∃ a, slabAllocInit noSlabs (fun _ => none) (2 ^ 31) 2 = .ok a := ⟨_, rfl⟩
  obtain ⟨-, hslot, hslots, -⟩ := slabAllocInit_fields init
  refine ⟨a, init, ?_, ?_, first_alloc_faults hsize init hwrap⟩
  · rw [totalSize, hslot, hslots]
    decide
  · rw [← u32_of_lt hsize] at init
    rw [slabsHold_iff init]
    exact not_lt.mpr hwrap

end SlabAllocator
