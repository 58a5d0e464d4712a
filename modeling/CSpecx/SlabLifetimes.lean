import CSpecx.SlabAllocatorRuns
import Mathlib.Combinatorics.Enumerative.DoubleCounting

/-!
# The objects in a slab allocator

Callers store words in the slots they hold and read them back. Whatever is
allocated and freed in between, the words of an object stay, the slabs are no
more than the objects, and `slab_alloc_destroy` gives all of them back.
-/

namespace SlabAllocator

open CExec Component LinkedChain

/-- The loop of `slab_alloc_destroy`. -/
def destroyLoop : Nat → SlabAlloc → Option Nat → Outcome SlabAlloc
  | _, a, none => .ok a
  | 0, _, some _ => .error .fuel
  | n + 1, a, some s => do
    let v ← a.slab s
    let a ← a.free s
    destroyLoop n a v.next

def slabAllocDestroy (a : SlabAlloc) : Outcome SlabAlloc := do
  let a ← destroyLoop a.fuel a a.head
  .ok { a with head := none, current := none }

/-- A call, or a caller's access to word `i` of its object. -/
inductive Use where
  | alloc (grant : Option Block)
  | free (ptr : Nat)
  | store (ptr i : Nat) (v : Option Nat)
  | load (ptr i : Nat)
  | destroy

inductive Answer where
  | pointer (ptr : Option Nat)
  | word (v : Option Nat)
  | done

/-- Objects are accessed inside their slot and freed once; `slab_alloc_destroy`
may find some that are not freed. -/
def Allowed (st : State) : Use → Prop
  | .alloc grant => Granted st.alloc grant
  | .free ptr => ptr ∈ st.live
  | .store ptr i _ => ptr ∈ st.live ∧ 8 * i + 8 ≤ st.alloc.size
  | .load ptr i => ptr ∈ st.live ∧ 8 * i + 8 ≤ st.alloc.size
  | .destroy => True

def use (st : State) : Use → Outcome (Answer × State)
  | .alloc grant => do
    let (ptr, a) ← slabAllocAlloc st.alloc grant
    .ok (.pointer ptr, { alloc := a, live := ptr.toList ++ st.live })
  | .free ptr => do
    let a ← slabAllocFree st.alloc ptr
    .ok (.done, { alloc := a, live := st.live.erase ptr })
  | .store ptr i v => do
    let a ← st.alloc.store (ptr + 8 * i) v
    .ok (.done, { st with alloc := a })
  | .load ptr i => do
    let v ← st.alloc.load (ptr + 8 * i)
    .ok (.word v, st)
  | .destroy => do
    let a ← slabAllocDestroy st.alloc
    .ok (.done, { alloc := a, live := [] })

def callers : Interface State Use Answer := { pre := Allowed, step := use }

/-- Objects of words, each behind its pointer. -/
structure Objects where
  live : List Nat
  word : Nat → Nat → Option Nat

/-- A new object has any words; only `malloc` can refuse one. -/
inductive Objects.Step (o : Objects) : Use → Answer → Objects → Prop where
  | allocated (grant : Option Block) (ptr : Nat) (words : Nat → Option Nat) (fresh : ptr ∉ o.live) :
      Step o (.alloc grant) (.pointer (some ptr))
        ⟨ptr :: o.live, Function.update o.word ptr words⟩
  | refused : Step o (.alloc none) (.pointer none) o
  | freed (ptr : Nat) (held : ptr ∈ o.live) :
      Step o (.free ptr) .done ⟨o.live.erase ptr, o.word⟩
  | stored (ptr i : Nat) (v : Option Nat) (held : ptr ∈ o.live) :
      Step o (.store ptr i v) .done
        ⟨o.live, Function.update o.word ptr (Function.update (o.word ptr) i v)⟩
  | loaded (ptr i : Nat) (held : ptr ∈ o.live) : Step o (.load ptr i) (.word (o.word ptr i)) o
  | destroyed : Step o .destroy .done ⟨[], o.word⟩

/-! ## What a call does not touch -/

/-- The slots keep their size, and only words of `changed` change. -/
structure Frame (changed : Nat → Prop) (a a' : SlabAlloc) : Prop where
  size : a'.size = a.size
  words : ∀ q, ¬ changed q → a'.words q = a.words q

section Frames

variable {a a' b : SlabAlloc} {live ss : List Nat} {s p q : Nat} {changed changed' : Nat → Prop}
  {r : Option Nat}

theorem Frame.same (hsize : a'.size = a.size) (hwords : a'.words = a.words) : Frame changed a a' :=
  ⟨hsize, fun q _ => congrFun hwords q⟩

theorem Frame.trans (first : Frame changed a b) (second : Frame changed b a') :
    Frame changed a a' :=
  ⟨second.size.trans first.size, fun q hq => (second.words q hq).trans (first.words q hq)⟩

theorem takeSlot_frame (hrun : takeSlot a s = .ok (r, a')) : Frame changed a a' := by
  obtain ⟨v, -, hrun⟩ := bind_eq_ok.mp hrun
  cases hfree : v.freelist with
  | none =>
    simp only [hfree] at hrun
    cases hrun
  | some ret =>
    simp only [hfree] at hrun
    obtain ⟨rest, -, hrun⟩ := bind_eq_ok.mp hrun
    obtain ⟨-, rfl⟩ := ok_pair_inj hrun
    exact .same rfl rfl

/-- The words of the block that `malloc` has returned. -/
def Delivered (a : SlabAlloc) (grant : Option Block) (q : Nat) : Prop :=
  ∃ block, grant = some block ∧ block.base ≤ q ∧ q < block.base + extent a

theorem granted_far (lay : Layout a live ss) {block : Block} (granted : Granted a (some block))
    (hs : s ∈ ss) : block.base + extent a ≤ s ∨ s + extent a ≤ block.base := by
  have h := granted s ((lay.blocks s).mpr hs)
  rwa [lay.totalSize_eq, lay.total s hs] at h

theorem slabAllocExtend_frame (lay : Layout a live ss) {grant : Option Block}
    (granted : Granted a grant) (hrun : slabAllocExtend a grant = .ok (r, a')) :
    Frame (Delivered a grant) a a' := by
  cases grant with
  | none =>
    obtain ⟨-, -, hrun⟩ := bind_eq_ok.mp hrun
    obtain ⟨-, rfl⟩ := ok_pair_inj hrun
    exact .same rfl rfl
  | some block =>
    have hnew : block.base ∉ ss := by
      intro hmem
      have hheader : headerSize ≤ extent a := Nat.le_add_left _ _
      have hpos : 0 < headerSize := by decide
      rcases granted_far lay granted hmem with hfar | hfar <;> omega
    obtain ⟨a'', hrun', extended⟩ := slabAllocExtend_run lay hnew
    obtain ⟨-, rfl⟩ := ok_pair_inj (hrun.symm.trans hrun')
    exact ⟨extended.size, fun q hq => extended.words q fun hin => hq ⟨block, rfl, hin⟩⟩

theorem slabAllocAlloc_frame (lay : Layout a live ss) {grant : Option Block}
    (granted : Granted a grant) (hrun : slabAllocAlloc a grant = .ok (r, a')) :
    Frame (Delivered a grant) a a' := by
  obtain ⟨cached, -, hrun⟩ := bind_eq_ok.mp hrun
  cases cached with
  | some s => exact takeSlot_frame hrun
  | none =>
    obtain ⟨found, -, hrun⟩ := bind_eq_ok.mp hrun
    cases found with
    | some s =>
      have hcurrent : Frame (Delivered a grant) a { a with current := some s } := .same rfl rfl
      exact hcurrent.trans (takeSlot_frame hrun)
    | none =>
      obtain ⟨⟨slab, b⟩, hextend, hrun⟩ := bind_eq_ok.mp hrun
      have extended := slabAllocExtend_frame lay granted hextend
      cases slab with
      | none =>
        obtain ⟨-, rfl⟩ := ok_pair_inj hrun
        exact extended
      | some s =>
        have hcurrent : Frame (Delivered a grant) b { b with current := some s } := .same rfl rfl
        exact extended.trans (hcurrent.trans (takeSlot_frame hrun))

theorem unlinkNext_frame (hrun : unlinkNext a s = .ok a') : Frame changed a a' := by
  obtain ⟨v, -, hrun⟩ := bind_eq_ok.mp hrun
  cases hprev : v.prev with
  | none =>
    simp only [hprev] at hrun
    obtain rfl := Except.ok.inj hrun
    exact .same rfl rfl
  | some p =>
    simp only [hprev] at hrun
    obtain ⟨u, -, hrun⟩ := bind_eq_ok.mp hrun
    obtain rfl := Except.ok.inj hrun
    exact .same rfl rfl

theorem unlinkPrev_frame (hrun : unlinkPrev a s = .ok a') : Frame changed a a' := by
  obtain ⟨v, -, hrun⟩ := bind_eq_ok.mp hrun
  cases hnext : v.next with
  | none =>
    simp only [hnext] at hrun
    obtain rfl := Except.ok.inj hrun
    exact .same rfl rfl
  | some n =>
    simp only [hnext] at hrun
    obtain ⟨u, -, hrun⟩ := bind_eq_ok.mp hrun
    obtain rfl := Except.ok.inj hrun
    exact .same rfl rfl

theorem free_frame (hrun : a.free s = .ok a') : Frame changed a a' := by
  obtain ⟨-, -, hrun⟩ := bind_eq_ok.mp hrun
  obtain rfl := Except.ok.inj hrun
  exact .same rfl rfl

theorem removeSlab_frame (hrun : removeSlab a s = .ok a') : Frame changed a a' := by
  obtain ⟨v, -, hrun⟩ := bind_eq_ok.mp hrun
  obtain ⟨b, hnext, hrun⟩ := bind_eq_ok.mp hrun
  obtain ⟨c, hprev, hfree⟩ := bind_eq_ok.mp hrun
  have unlinked : Frame changed _ a' :=
    (unlinkNext_frame hnext).trans ((unlinkPrev_frame hprev).trans (free_frame hfree))
  refine ⟨unlinked.size.trans ?_, fun q hq => (unlinked.words q hq).trans ?_⟩
  · split_ifs <;> rfl
  · split_ifs <;> rfl

/-- A freed slot loses its first word to the freelist. -/
theorem slabAllocFree_frame (hrun : slabAllocFree a p = .ok a') : Frame (· = p) a a' := by
  obtain ⟨s, -, hrun⟩ := bind_eq_ok.mp hrun
  obtain ⟨b, hreturn, hrun⟩ := bind_eq_ok.mp hrun
  obtain ⟨c, hupdate, hrun⟩ := bind_eq_ok.mp hrun
  obtain ⟨v, -, hrun⟩ := bind_eq_ok.mp hrun
  have returned : Frame (· = p) a b := by
    obtain ⟨v, -, hreturn⟩ := bind_eq_ok.mp hreturn
    obtain ⟨-, -, hreturn⟩ := bind_eq_ok.mp hreturn
    obtain ⟨d, hstore, hreturn⟩ := bind_eq_ok.mp hreturn
    obtain ⟨-, -, hstore⟩ := bind_eq_ok.mp hstore
    obtain rfl := Except.ok.inj hstore
    obtain rfl := Except.ok.inj hreturn
    exact ⟨rfl, fun q hq => Function.update_of_ne hq _ _⟩
  have updated : Frame (· = p) b c := by
    obtain ⟨cached, -, hupdate⟩ := bind_eq_ok.mp hupdate
    cases cached with
    | none =>
      obtain rfl := Except.ok.inj hupdate
      exact .same rfl rfl
    | some t =>
      obtain rfl := Except.ok.inj hupdate
      exact .same rfl rfl
  refine returned.trans (updated.trans ?_)
  split_ifs at hrun
  · exact removeSlab_frame hrun
  · obtain rfl := Except.ok.inj hrun
    exact .same rfl rfl

end Frames

/-! ## Where the objects are -/

section Slots

variable {a a' : SlabAlloc} {live ss : List Nat} {s p q i j : Nat}

/-- Two objects do not overlap. -/
theorem Layout.objects_apart (lay : Layout a live ss) (hp : p ∈ live) (hq : q ∈ live)
    (hne : p ≠ q) : p + a.size ≤ q ∨ q + a.size ≤ p := by
  obtain ⟨s, hs, hps⟩ := lay.live_slot p hp
  obtain ⟨t, ht, hqt⟩ := lay.live_slot q hq
  by_cases hst : s = t
  · subst hst
    obtain ⟨i, -, hpi⟩ := mem_slots.mp hps
    obtain ⟨j, -, hqj⟩ := mem_slots.mp hqt
    have hij : i ≠ j := by
      rintro rfl
      exact hne (hpi.trans hqj.symm)
    rcases Nat.lt_or_gt_of_ne hij with hlt | hlt
    · have hmul := Nat.mul_le_mul_left a.size (Nat.succ_le_of_lt hlt)
      rw [Nat.mul_succ] at hmul
      omega
    · have hmul := Nat.mul_le_mul_left a.size (Nat.succ_le_of_lt hlt)
      rw [Nat.mul_succ] at hmul
      omega
  · have hp := slot_range hps
    have hq := slot_range hqt
    rcases lay.apart s hs t ht hst with hfar | hfar <;> omega

theorem Layout.word_inBlock (lay : Layout a live ss) (hp : p ∈ live) (hi : 8 * i + 8 ≤ a.size) :
    a.InBlock (p + 8 * i) := by
  obtain ⟨s, hs, hslot⟩ := lay.live_slot p hp
  have hrange := slot_range hslot
  refine ⟨s, (lay.blocks s).mpr hs, by omega, ?_⟩
  rw [lay.total s hs]
  omega

/-- Every slab but a sole one holds an object. -/
theorem Invariant.blocks_le (inv : Invariant a live ss) : a.blocks.card ≤ max 1 live.length := by
  have hblocks : a.blocks = ss.toFinset := by
    ext b
    rw [List.mem_toFinset]
    exact inv.blocks b
  have hcard : a.blocks.card = ss.length := by
    rw [hblocks, List.toFinset_card_of_nodup inv.chain.nodup]
  rcases Nat.lt_or_ge 1 ss.length with hmany | hone
  · have hused : ∀ s ∈ a.blocks, ∃ p ∈ live.toFinset, p ∈ slots a s := by
      intro s hs
      have hs := (inv.blocks s).mp hs
      obtain ⟨f, ok⟩ := inv.free s hs
      have hpos : (a.slabs s).used ≠ 0 := by
        intro hzero
        have hsole := congrArg List.length (inv.sole s hs hzero)
        rw [List.length_singleton] at hsole
        omega
      by_contra hnone
      have hall : slots a s ⊆ f := fun p hp => (ok.mem p).mpr ⟨hp, fun hlive =>
        hnone ⟨p, List.mem_toFinset.mpr hlive, hp⟩⟩
      have hsize := inv.size_ge
      have hle := (slots_nodup (by omega : 0 < a.size)).subperm hall |>.length_le
      rw [length_slots] at hle
      have := ok.used
      omega
    have hle : a.blocks.card ≤ live.toFinset.card :=
      Finset.card_le_card_of_forall_subsingleton (fun s p => p ∈ slots a s) hused
        fun p _ s hs t ht =>
          inv.slot_unique ((inv.blocks s).mp hs.1) ((inv.blocks t).mp ht.1) hs.2 ht.2
    exact (hle.trans (List.toFinset_card_le live)).trans (le_max_right _ _)
  · rw [hcard]
    exact hone.trans (le_max_left _ _)

end Slots

/-! ## Destroying -/

section Destroying

variable {a : SlabAlloc} {live ss : List Nat} {start : Option Nat} {n : Nat}

/-- Each slab of the list is given back once. -/
theorem destroyLoop_spec (path : Path a.next start ss) (nodup : ss.Nodup)
    (held : ∀ s ∈ ss, s ∈ a.blocks) (hfuel : ss.length ≤ n) :
    destroyLoop n a start = .ok { a with blocks := a.blocks \ ss.toFinset } := by
  induction ss generalizing a start n with
  | nil =>
    obtain rfl : start = none := path
    simp [destroyLoop]
  | cons s ss ih =>
    obtain ⟨rfl, htail⟩ := path
    obtain ⟨hs, hnodup⟩ := List.nodup_cons.mp nodup
    obtain ⟨m, rfl⟩ : ∃ m, n = m + 1 := Nat.exists_eq_succ_of_ne_zero (by
      rw [List.length_cons] at hfuel
      omega)
    have hheld := held s List.mem_cons_self
    have hrest : ∀ t ∈ ss, t ∈ a.blocks.erase s := fun t ht =>
      Finset.mem_erase.mpr ⟨ne_of_mem_of_not_mem ht hs, held t (List.mem_cons_of_mem s ht)⟩
    have hloop := ih (a := { a with blocks := a.blocks.erase s }) htail hnodup hrest
      (Nat.le_of_succ_le_succ hfuel)
    have hblocks : a.blocks.erase s \ ss.toFinset = a.blocks \ (s :: ss).toFinset := by
      ext t
      simp only [Finset.mem_sdiff, Finset.mem_erase, List.mem_toFinset, List.mem_cons, not_or]
      tauto
    simp only [destroyLoop, SlabAlloc.slab, SlabAlloc.free, access_pos hheld, ok_bind]
    rw [← hblocks]
    exact hloop

theorem chain_path {next prev : Nat → Option Nat} {before : Option Nat}
    (seg : Seg next prev before ss none) : Path next ss.head? ss := by
  induction ss generalizing before with
  | nil => rfl
  | cons s ss ih =>
    obtain ⟨-, hnext, hseg⟩ := seg
    refine ⟨rfl, ?_⟩
    rw [hnext, Option.or_none]
    exact ih hseg

/-- All blocks are given back, and the allocator is as new. -/
theorem slabAllocDestroy_spec (lay : Layout a live ss) :
    ∃ a', slabAllocDestroy a = .ok a' ∧ Invariant a' [] [] ∧ a'.blocks = ∅ ∧ a'.size = a.size := by
  have hpath : Path a.next a.head ss := by
    rw [lay.chain.head_eq]
    exact chain_path lay.chain.seg
  have hempty : a.blocks \ ss.toFinset = ∅ := by
    ext b
    simp [lay.blocks b]
  have hrun := destroyLoop_spec hpath lay.chain.nodup
    (fun s hs => (lay.blocks s).mpr hs) lay.length_le
  rw [hempty] at hrun
  refine ⟨{ a with head := none, current := none, blocks := ∅ }, ?_, ?_, rfl, rfl⟩
  · rw [slabAllocDestroy, hrun]
    rfl
  · exact ⟨⟨lay.size_ge, lay.cap_pos, lay.bound, Chain.empty, by simp, by simp, by simp,
      List.nodup_nil, by simp, by simp⟩, by simp, by simp⟩

end Destroying

/-! ## Runs -/

/-- The slots hold the words of the objects. -/
structure Holds (size : Nat) (st : State) (o : Objects) : Prop where
  live : o.live = st.live
  sound : ∃ ss, Invariant st.alloc st.live ss
  slotSize : st.alloc.size = size
  words : ∀ p ∈ st.live, ∀ i, 8 * i + 8 ≤ size → st.alloc.words (p + 8 * i) = o.word p i

section Runs

variable {st : State} {o : Objects} {size : Nat} {a' : SlabAlloc} {p i : Nat}

theorem Holds.alloc (holds : Holds size st o) {grant : Option Block}
    (granted : Granted st.alloc grant) :
    ∃ r st' o', use st (.alloc grant) = .ok (r, st') ∧ o.Step (.alloc grant) r o' ∧
      Holds size st' o' := by
  obtain ⟨ss, inv⟩ := holds.sound
  rcases slabAllocAlloc_spec inv granted with ⟨p, a', hrun, hfresh, hinv⟩ | ⟨hrun, rfl, -⟩
  · have frame := slabAllocAlloc_frame inv.toLayout granted hrun
    have sound : ∃ ss', Invariant a' (p :: st.live) ss' := by
      rcases hinv with ⟨inv', -⟩ | ⟨base, inv', -⟩
      · exact ⟨ss, inv'⟩
      · exact ⟨base :: ss, inv'⟩
    have husing : use st (.alloc grant) = .ok (.pointer (some p), ⟨a', p :: st.live⟩) := by
      simp only [use, hrun, ok_bind]
      rfl
    refine ⟨_, _, _, husing,
      .allocated grant p (fun i => a'.words (p + 8 * i)) (holds.live ▸ hfresh),
      ⟨congrArg (p :: ·) holds.live, sound, frame.size.trans holds.slotSize, fun q hq i hi => ?_⟩⟩
    show a'.words (q + 8 * i) = Function.update o.word p (fun i => a'.words (p + 8 * i)) q i
    rcases List.mem_cons.mp hq with rfl | hq
    · rw [Function.update_self]
    · have hne : q ≠ p := fun heq => hfresh (heq ▸ hq)
      rw [Function.update_of_ne hne, ← holds.words q hq i hi]
      refine frame.words _ ?_
      -- the new block is apart from the slab of the object
      rintro ⟨block, rfl, hlo, hhi⟩
      obtain ⟨s, hs, hslot⟩ := inv.live_slot q hq
      have hrange := slot_range hslot
      have hsize := holds.slotSize
      rcases granted_far inv.toLayout granted hs with hfar | hfar <;> omega
  · have husing : use st (.alloc none) = .ok (.pointer none, st) := by
      simp only [use, hrun, ok_bind]
      rfl
    exact ⟨_, _, _, husing, .refused, holds⟩

theorem Holds.free (holds : Holds size st o) (hp : p ∈ st.live) :
    ∃ st', use st (.free p) = .ok (.done, st') ∧ Holds size st' ⟨o.live.erase p, o.word⟩ := by
  obtain ⟨ss, inv⟩ := holds.sound
  obtain ⟨a', ss', hrun, inv'⟩ := slabAllocFree_spec inv hp
  have frame := slabAllocFree_frame hrun
  have husing : use st (.free p) = .ok (.done, ⟨a', st.live.erase p⟩) := by
    simp only [use, hrun, ok_bind]
  refine ⟨_, husing, congrArg (·.erase p) holds.live, ⟨ss', inv'⟩, frame.size.trans holds.slotSize,
    fun q hq i hi => ?_⟩
  have hlive := List.mem_of_mem_erase hq
  have hne : q ≠ p := fun heq => inv.live_nodup.not_mem_erase (heq ▸ hq)
  have hsize := holds.slotSize
  have hpos := inv.size_ge
  rw [← holds.words q hlive i hi]
  refine frame.words _ fun heq => ?_
  rcases inv.objects_apart hlive hp hne with hfar | hfar <;> omega

theorem Holds.store (holds : Holds size st o) (hp : p ∈ st.live) (hi : 8 * i + 8 ≤ st.alloc.size)
    (v : Option Nat) :
    ∃ st', use st (.store p i v) = .ok (.done, st') ∧
      Holds size st' ⟨o.live, Function.update o.word p (Function.update (o.word p) i v)⟩ := by
  obtain ⟨ss, inv⟩ := holds.sound
  have hsize := holds.slotSize
  have husing : use st (.store p i v) =
      .ok (.done, { st with alloc := st.alloc.setWord (p + 8 * i) v }) := by
    simp only [use, SlabAlloc.store, access_pos (inv.word_inBlock hp hi), ok_bind]
  refine ⟨_, husing, holds.live, ⟨ss, write_invariant inv hp fun q hq => ?_⟩, hsize,
    fun q hq j hj => ?_⟩
  · have hat : q = p + 8 * i := by
      by_contra hne
      exact hq (Function.update_of_ne hne _ _)
    omega
  · show Function.update st.alloc.words (p + 8 * i) v (q + 8 * j) =
      Function.update o.word p (Function.update (o.word p) i v) q j
    by_cases hqp : q = p
    · subst hqp
      rw [Function.update_self]
      by_cases hji : j = i
      · rw [hji, Function.update_self, Function.update_self]
      · have hne : q + 8 * j ≠ q + 8 * i := by omega
        rw [Function.update_of_ne hne, Function.update_of_ne hji]
        exact holds.words q hq j hj
    · have hne : q + 8 * j ≠ p + 8 * i := by
        rcases inv.objects_apart hq hp hqp with hfar | hfar <;> omega
      rw [Function.update_of_ne hne, Function.update_of_ne hqp]
      exact holds.words q hq j hj

theorem Holds.load (holds : Holds size st o) (hp : p ∈ st.live) (hi : 8 * i + 8 ≤ st.alloc.size) :
    use st (.load p i) = .ok (.word (o.word p i), st) := by
  obtain ⟨ss, inv⟩ := holds.sound
  simp only [use, SlabAlloc.load, access_pos (inv.word_inBlock hp hi), ok_bind,
    holds.words p hp i (holds.slotSize ▸ hi)]

theorem callers_simulation (size : Nat) : Simulation callers Objects.Step (Holds size) := by
  intro st o u holds allowed
  cases u with
  | alloc grant => exact holds.alloc allowed
  | free p =>
    obtain ⟨st', hrun, holds'⟩ := holds.free allowed
    exact ⟨_, _, _, hrun, .freed p (holds.live ▸ allowed), holds'⟩
  | store p i v =>
    obtain ⟨st', hrun, holds'⟩ := holds.store allowed.1 allowed.2 v
    exact ⟨_, _, _, hrun, .stored p i v (holds.live ▸ allowed.1), holds'⟩
  | load p i =>
    have hrun := holds.load allowed.1 allowed.2
    exact ⟨_, _, _, hrun, .loaded p i (holds.live ▸ allowed.1), holds⟩
  | destroy =>
    obtain ⟨ss, inv⟩ := holds.sound
    obtain ⟨a', hrun, inv', -, hsize⟩ := slabAllocDestroy_spec inv.toLayout
    have husing : use st .destroy = .ok (.done, ⟨a', []⟩) := by
      simp only [use, hrun, ok_bind]
    exact ⟨_, _, _, husing, .destroyed, rfl, ⟨[], inv'⟩, hsize.trans holds.slotSize,
      fun _ h => nomatch h⟩

/-- Every run of callers and `slab_alloc_destroy` is one of objects that keep their words; the
blocks held are no more than the objects or one, and none is left behind a destruction. -/
theorem objects_kept {slabs : Nat → Slab} {words : Nat → Option Nat} {cap : Nat} {a₀ : SlabAlloc}
    {tr : List (Use × Answer)} (fits : alignedSize size * cap + headerSize < 2 ^ 32)
    (init : slabAllocInit slabs words size cap = .ok a₀) (run : Trace callers ⟨a₀, []⟩ tr st) :
    (∃ o, SpecTrace Objects.Step ⟨[], fun _ _ => none⟩ tr o ∧ o.live = st.live ∧ o.live.Nodup) ∧
      st.alloc.blocks.card ≤ max 1 st.live.length ∧
      (∀ u, Allowed st u → ∃ r st', use st u = .ok (r, st')) ∧
      ∃ a', slabAllocDestroy st.alloc = .ok a' ∧ a'.blocks = ∅ := by
  have started : Holds a₀.size ⟨a₀, []⟩ ⟨[], fun _ _ => none⟩ :=
    ⟨rfl, ⟨[], init_invariant fits init⟩, rfl, fun _ h => nomatch h⟩
  obtain ⟨o, htrace, holds⟩ := (callers_simulation a₀.size).trace started run
  obtain ⟨ss, inv⟩ := holds.sound
  obtain ⟨a', hrun, -, hempty, -⟩ := slabAllocDestroy_spec inv.toLayout
  exact ⟨⟨o, htrace, holds.live, holds.live ▸ inv.live_nodup⟩, inv.blocks_le,
    fun u allowed => (callers_simulation a₀.size).returns holds allowed, a', hrun, hempty⟩

end Runs

/-- An object of the second slab is written, and the only object of the first one is freed. -/
theorem objects_kept_freed : ∃ st : State, st.live = [232] ∧
    (∃ o, SpecTrace Objects.Step ⟨[], fun _ _ => none⟩
        [(.alloc (some ⟨64, fun _ => some 1⟩), .pointer (some 96)),
          (.alloc (some ⟨200, fun _ => some 2⟩), .pointer (some 232)),
          (.store 232 1 (some 7), .done), (.free 96, .done),
          (.load 232 1, .word (some 7))] o ∧ o.live = st.live ∧ o.live.Nodup) ∧
    st.alloc.blocks.card ≤ 1 := by
  obtain ⟨a₀, h₀⟩ : ∃ a₀, slabAllocInit (fun _ => ⟨none, none, none, 0, 0⟩) (fun _ => none) 12 1 =
      .ok a₀ := ⟨_, rfl⟩
  obtain ⟨st, run, hlive⟩ : ∃ st, Trace callers ⟨a₀, []⟩
      [(.alloc (some ⟨64, fun _ => some 1⟩), .pointer (some 96)),
        (.alloc (some ⟨200, fun _ => some 2⟩), .pointer (some 232)),
        (.store 232 1 (some 7), .done), (.free 96, .done), (.load 232 1, .word (some 7))] st ∧
      st.live = [232] := by
    rw [← Except.ok.inj h₀]
    refine ⟨_, .cons ?_ rfl (.cons ?_ rfl (.cons ?_ rfl (.cons ?_ rfl (.cons ?_ rfl (.nil _))))),
      rfl⟩
    · exact fun b hb => absurd hb (Finset.notMem_empty b)
    · intro b hb
      obtain rfl | hb := Finset.mem_insert.mp (show b ∈ insert 64 (∅ : Finset Nat) from hb)
      · exact .inr (by decide)
      · exact absurd hb (Finset.notMem_empty b)
    · exact ⟨.head _, by decide⟩
    · exact .tail _ (.head _)
    · exact ⟨.head _, by decide⟩
  have fits : alignedSize 12 * 1 + headerSize < 2 ^ 32 := by decide
  obtain ⟨hobjects, hblocks, -⟩ := objects_kept fits h₀ run
  rw [hlive] at hblocks
  exact ⟨st, hlive, hobjects, hblocks⟩

end SlabAllocator
