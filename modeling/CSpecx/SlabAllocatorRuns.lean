import CSpecx.Component
import CSpecx.SlabAllocator

/-!
# Runs of the slab allocator

Between calls the holder of a live pointer may store anything in its slot. The
invariant ties the list of slabs, the freelists threaded through the slots and
the live pointers together; each call keeps it.
-/

namespace SlabAllocator

open CExec LinkedChain Component

/-- The slots of the slab at `s`. -/
def slots (a : SlabAlloc) (s : Nat) : List Nat :=
  List.range' (s + headerSize) a.capPerSlab a.size

/-- The bytes of a slab. -/
def extent (a : SlabAlloc) : Nat := a.size * a.capPerSlab + headerSize

/-- The freelist `f` of a slab is its slots that are not live, each once. -/
structure SlabOk (a : SlabAlloc) (live : List Nat) (s : Nat) (f : List Nat) : Prop where
  path : Path a.words (a.slabs s).freelist f
  nodup : f.Nodup
  mem : ∀ p, p ∈ f ↔ p ∈ slots a s ∧ p ∉ live
  used : (a.slabs s).used + f.length = a.capPerSlab

/-- The slabs `ss` in list order with their slots, whatever `current` is. -/
structure Layout (a : SlabAlloc) (live ss : List Nat) : Prop where
  size_ge : 8 ≤ a.size
  cap_pos : 0 < a.capPerSlab
  bound : extent a < 2 ^ 32
  chain : Chain a.next a.prev a.head ss
  blocks : ∀ b, b ∈ a.blocks ↔ b ∈ ss
  total : ∀ s ∈ ss, (a.slabs s).totalSize = extent a
  apart : ∀ s ∈ ss, ∀ t ∈ ss, s ≠ t → s + extent a ≤ t ∨ t + extent a ≤ s
  live_nodup : live.Nodup
  live_slot : ∀ p ∈ live, ∃ s ∈ ss, p ∈ slots a s
  free : ∀ s ∈ ss, ∃ f, SlabOk a live s f

structure Invariant (a : SlabAlloc) (live ss : List Nat) : Prop extends Layout a live ss where
  current : ∀ s, a.current = some s → s ∈ ss
  sole : ∀ s ∈ ss, (a.slabs s).used = 0 → ss = [s]

section Slots

variable {a a' : SlabAlloc} {live live' ss f : List Nat} {s t p : Nat}

theorem mem_slots : p ∈ slots a s ↔ ∃ i < a.capPerSlab, p = s + headerSize + a.size * i := by
  simp only [slots, List.mem_range']

theorem slot_range (h : p ∈ slots a s) :
    s + headerSize ≤ p ∧ p + a.size ≤ s + extent a := by
  obtain ⟨i, hi, rfl⟩ := mem_slots.mp h
  have hmul : a.size * (i + 1) ≤ a.size * a.capPerSlab := Nat.mul_le_mul_left _ hi
  rw [Nat.mul_succ] at hmul
  unfold extent
  omega

theorem slots_nodup (h : 0 < a.size) : (slots a s).Nodup :=
  List.nodup_range' _ (h := h)

theorem length_slots : (slots a s).length = a.capPerSlab := List.length_range'

theorem slots_congr (hsize : a'.size = a.size) (hcap : a'.capPerSlab = a.capPerSlab) :
    slots a' s = slots a s := by
  simp only [slots, hsize, hcap]

/-- A slab is as before when its header fields and its free slots are. -/
theorem SlabOk.congr (ok : SlabOk a live s f) (hsize : a'.size = a.size)
    (hcap : a'.capPerSlab = a.capPerSlab)
    (hfree : (a'.slabs s).freelist = (a.slabs s).freelist)
    (hused : (a'.slabs s).used = (a.slabs s).used)
    (hwords : ∀ p ∈ f, a'.words p = a.words p)
    (hlive : ∀ p ∈ slots a s, p ∈ live' ↔ p ∈ live) : SlabOk a' live' s f := by
  refine ⟨?_, ok.nodup, fun p => ?_, by rw [hused, hcap, ok.used]⟩
  · rw [hfree, path_congr hwords]
    exact ok.path
  · rw [slots_congr hsize hcap, ok.mem]
    constructor
    · rintro ⟨hp, hn⟩
      exact ⟨hp, fun h => hn ((hlive p hp).mp h)⟩
    · rintro ⟨hp, hn⟩
      exact ⟨hp, fun h => hn ((hlive p hp).mpr h)⟩

namespace Layout

variable (lay : Layout a live ss)
include lay

theorem slot_unique (hs : s ∈ ss) (ht : t ∈ ss) (hps : p ∈ slots a s) (hpt : p ∈ slots a t) :
    s = t := by
  by_contra hne
  have h₁ := slot_range hps
  have h₂ := slot_range hpt
  have h₃ := lay.size_ge
  rcases lay.apart s hs t ht hne with h | h <;> omega

theorem slab_eq (hs : s ∈ ss) : a.slab s = .ok (a.slabs s) := by
  rw [SlabAlloc.slab, access_pos ((lay.blocks s).mpr hs), ok_bind]

theorem inBlock (hs : s ∈ ss) (hp : p ∈ slots a s) : a.InBlock p := by
  have h₁ := slot_range hp
  have h₂ := lay.size_ge
  refine ⟨s, (lay.blocks s).mpr hs, by omega, ?_⟩
  rw [lay.total s hs]
  omega

theorem length_le : ss.length ≤ a.fuel := by
  have hsub : ss.toFinset ⊆ a.blocks := fun b hb =>
    (lay.blocks b).mpr (List.mem_toFinset.mp hb)
  have hcard := Finset.card_le_card hsub
  rwa [List.toFinset_card_of_nodup lay.chain.nodup] at hcard

end Layout

end Slots

section Links

variable {a : SlabAlloc} {s q : Nat} {v : Slab}

theorem setSlab_ne (h : q ≠ s) : (a.setSlab s v).slabs q = a.slabs q :=
  Function.update_of_ne h _ _

@[simp] theorem setSlab_self : (a.setSlab s v).slabs s = v := Function.update_self _ _ _

theorem setSlab_next : (a.setSlab s v).next q = if q = s then v.next else a.next q := by
  by_cases h : q = s
  · subst h; simp [SlabAlloc.next]
  · simp [SlabAlloc.next, setSlab_ne h, h]

theorem setSlab_prev : (a.setSlab s v).prev q = if q = s then v.prev else a.prev q := by
  by_cases h : q = s
  · subst h; simp [SlabAlloc.prev]
  · simp [SlabAlloc.prev, setSlab_ne h, h]

end Links

section Alloc

variable {a a' : SlabAlloc} {live ss : List Nat} {s : Nat}

/-- A slab whose header keeps its links and its size stays in the layout. -/
theorem Layout.setSlab (lay : Layout a live ss) (hs : s ∈ ss) (v : Slab)
    (words : Nat → Option Nat) {live' : List Nat} (hnext : v.next = (a.slabs s).next)
    (hprev : v.prev = (a.slabs s).prev) (htotal : v.totalSize = (a.slabs s).totalSize)
    (hnodup : live'.Nodup) (hslot : ∀ p ∈ live', ∃ t ∈ ss, p ∈ slots a t)
    (hself : ∃ f, SlabOk { a.setSlab s v with words := words } live' s f)
    (hother : ∀ t ∈ ss, t ≠ s → ∀ f, SlabOk a live t f →
      SlabOk { a.setSlab s v with words := words } live' t f) :
    Layout { a.setSlab s v with words := words } live' ss := by
  refine ⟨lay.size_ge, lay.cap_pos, lay.bound, ?_, lay.blocks, fun t ht => ?_, lay.apart,
    hnodup, hslot, fun t ht => ?_⟩
  · refine lay.chain.congr (fun q _ => ?_) (fun q _ => ?_)
    · change (a.setSlab s v).next q = _
      rw [setSlab_next]
      split
      · next h => rw [h, hnext]; rfl
      · rfl
    · change (a.setSlab s v).prev q = _
      rw [setSlab_prev]
      split
      · next h => rw [h, hprev]; rfl
      · rfl
  · change ((a.setSlab s v).slabs t).totalSize = _
    by_cases h : t = s
    · subst h
      rw [setSlab_self, htotal]
      exact lay.total t ht
    · rw [setSlab_ne h]
      exact lay.total t ht
  · by_cases h : t = s
    · exact h ▸ hself
    · obtain ⟨f, ok⟩ := lay.free t ht
      exact ⟨f, hother t ht h f ok⟩

theorem takeSlot_spec (lay : Layout a live ss) (hs : s ∈ ss)
    (hspace : (a.slabs s).freelist ≠ none) :
    ∃ p a', takeSlot a s = .ok (some p, a') ∧ Layout a' (p :: live) ss ∧ p ∉ live ∧
      a'.current = a.current ∧ a'.blocks = a.blocks ∧ 0 < (a'.slabs s).used ∧
      ∀ t, t ≠ s → a'.slabs t = a.slabs t := by
  obtain ⟨f, ok⟩ := lay.free s hs
  obtain ⟨p, hp⟩ := Option.ne_none_iff_exists'.mp hspace
  have hpath := ok.path
  rw [hp] at hpath
  obtain ⟨f, rfl, hrest⟩ := hpath.eq_cons
  obtain ⟨hslot, hfresh⟩ := (ok.mem p).mp List.mem_cons_self
  obtain ⟨hpf, hnodup⟩ := List.nodup_cons.mp ok.nodup
  have hused := ok.used
  have hcap : a.capPerSlab < 2 ^ 32 := by
    have hle : 1 * a.capPerSlab ≤ a.size * a.capPerSlab :=
      Nat.mul_le_mul_right _ (by have := lay.size_ge; omega)
    have hb := lay.bound
    unfold extent at hb
    omega
  have hu : u32 ((a.slabs s).used + 1) = (a.slabs s).used + 1 := by
    refine u32_of_lt ?_
    simp only [List.length_cons] at hused
    omega
  refine ⟨p, _, ?_, lay.setSlab hs
    { a.slabs s with freelist := a.words p, used := (a.slabs s).used + 1 } a.words rfl rfl rfl
    (List.nodup_cons.mpr ⟨hfresh, lay.live_nodup⟩) ?_ ?_ ?_, hfresh, rfl, rfl, ?_,
    fun t ht => setSlab_ne ht⟩
  · rw [takeSlot, lay.slab_eq hs, ok_bind, hp]
    simp only [SlabAlloc.load]
    rw [access_pos (lay.inBlock hs hslot), ok_bind, ok_bind, hu]
    rfl
  · intro q hq
    rcases List.mem_cons.mp hq with rfl | hq
    · exact ⟨s, hs, hslot⟩
    · exact lay.live_slot q hq
  · refine ⟨f, ?_, hnodup, fun q => ?_, ?_⟩
    · simpa using hrest
    · have hm := ok.mem q
      rw [List.mem_cons] at hm ⊢
      change q ∈ f ↔ q ∈ slots a s ∧ _
      constructor
      · intro hq
        obtain ⟨hqs, hql⟩ := hm.mp (Or.inr hq)
        exact ⟨hqs, not_or.mpr ⟨ne_of_mem_of_not_mem hq hpf, hql⟩⟩
      · rintro ⟨hqs, hq⟩
        obtain ⟨hqp, hql⟩ := not_or.mp hq
        exact (hm.mpr ⟨hqs, hql⟩).resolve_left hqp
    · simp only [setSlab_self, List.length_cons] at hused ⊢
      change (a.slabs s).used + 1 + f.length = a.capPerSlab
      omega
  · intro t ht hts f ok
    refine ok.congr rfl rfl ?_ ?_ (fun q _ => rfl) fun q hq => ?_
    · rw [show (_ : SlabAlloc).slabs t = _ from setSlab_ne hts]
    · rw [show (_ : SlabAlloc).slabs t = _ from setSlab_ne hts]
    · have hqp : q ≠ p := by
        rintro rfl
        exact hts (lay.slot_unique ht hs hq hslot)
      rw [List.mem_cons, or_iff_right hqp]
  · change 0 < ((a.setSlab s _).slabs s).used
    rw [setSlab_self]
    exact Nat.succ_pos _

/-- The scan stops at a slab with a free slot, or there is none. -/
theorem findSpace_spec (lay : Layout a live ss) {fuel : Nat} {before : Option Nat}
    {ws : List Nat} (seg : Seg a.next a.prev before ws none) (hws : ∀ s ∈ ws, s ∈ ss)
    (enough : ws.length ≤ fuel) :
    (findSpace fuel a ws.head? = .ok none ∧ ∀ s ∈ ws, (a.slabs s).freelist = none) ∨
    ∃ s ∈ ws, findSpace fuel a ws.head? = .ok (some s) ∧ (a.slabs s).freelist ≠ none := by
  induction ws generalizing fuel before with
  | nil => exact Or.inl ⟨by cases fuel <;> rfl, by simp⟩
  | cons w ws ih =>
    obtain ⟨fuel, rfl⟩ : ∃ n, fuel = n + 1 := ⟨fuel - 1, by simp at enough; omega⟩
    obtain ⟨-, hn, hs⟩ := seg
    have hw : w ∈ ss := hws w List.mem_cons_self
    have hnext : (a.slabs w).next = ws.head? := by
      rw [Option.or_none] at hn
      exact hn
    have hstep : findSpace (fuel + 1) a (some w) = if (a.slabs w).freelist.isSome then
        .ok (some w) else findSpace fuel a ws.head? := by
      rw [findSpace, lay.slab_eq hw, ok_bind, hnext]
    rw [List.head?_cons, hstep]
    cases hfree : (a.slabs w).freelist with
    | some p =>
      exact Or.inr ⟨w, List.mem_cons_self, by simp, by simp [hfree]⟩
    | none =>
      simp only [Option.isSome_none, Bool.false_eq_true, if_false]
      rcases ih hs (fun s h => hws s (List.mem_cons_of_mem w h)) (by simpa using enough) with
        ⟨hrun, hall⟩ | ⟨s, hmem, hrun, hspace⟩
      · refine Or.inl ⟨hrun, fun s h => ?_⟩
        rcases List.mem_cons.mp h with rfl | h
        · exact hfree
        · exact hall s h
      · exact Or.inr ⟨s, List.mem_cons_of_mem w hmem, hrun, hspace⟩

/-- Threading links the slots in address order and stores nothing else. -/
theorem threadSlots_spec {n cur : Nat} (hsize : 0 < a.size)
    (hin : ∀ p ∈ List.range' cur (n + 1) a.size, a.InBlock p) :
    ∃ words, threadSlots n a cur = .ok { a with words := words } ∧
      Path words (some cur) (List.range' cur (n + 1) a.size) ∧
      ∀ p, p ∉ List.range' cur (n + 1) a.size → words p = a.words p := by
  induction n generalizing a cur with
  | zero =>
    refine ⟨Function.update a.words cur none, ?_, ⟨rfl, ?_⟩, fun p hp => ?_⟩
    · rw [threadSlots, SlabAlloc.store, access_pos (hin cur (by simp)), ok_bind]
      rfl
    · exact Function.update_self _ _ _
    · exact Function.update_of_ne (by simpa using hp) _ _
  | succ n ih =>
    have hcons : List.range' cur (n + 2) a.size =
        cur :: List.range' (cur + a.size) (n + 1) a.size := rfl
    rw [hcons] at hin ⊢
    have hfresh : cur ∉ List.range' (cur + a.size) (n + 1) a.size := by
      intro h
      obtain ⟨i, -, hi⟩ := List.mem_range'.mp h
      omega
    obtain ⟨words, hrun, hpath, hkeep⟩ := ih (a := a.setWord cur (some (cur + a.size)))
      hsize (fun p hp => hin p (List.mem_cons_of_mem cur hp))
    have hcur : words cur = some (cur + a.size) :=
      (hkeep cur hfresh).trans (Function.update_self _ _ _)
    refine ⟨words, ?_, ⟨rfl, hcur ▸ hpath⟩, fun p hp => ?_⟩
    · rw [threadSlots, SlabAlloc.store, access_pos (hin cur List.mem_cons_self), ok_bind,
        ok_bind]
      exact hrun
    · obtain ⟨hpc, hp⟩ := not_or.mp (List.mem_cons.not.mp hp)
      exact (hkeep p hp).trans (Function.update_of_ne hpc _ _)

/-- `i_malloc` returns a block apart from those that are held. -/
def Granted (a : SlabAlloc) : Option Block → Prop
  | none => True
  | some block => ∀ b ∈ a.blocks,
      block.base + totalSize a ≤ b ∨ b + (a.slabs b).totalSize ≤ block.base

theorem Layout.totalSize_eq (lay : Layout a live ss) : totalSize a = extent a := by
  have hb := lay.bound
  unfold extent at hb
  rw [totalSize, u32_of_lt (n := a.size * a.capPerSlab) (by omega), u32_of_lt hb]
  rfl

theorem linkHead_spec (lay : Layout a live ss) {b : SlabAlloc} (slab : Nat)
    (hhead : b.head = a.head) (hblocks : ∀ s ∈ ss, s ∈ b.blocks)
    (hslabs : ∀ s ∈ ss, b.slabs s = a.slabs s) :
    ∃ f, linkHead b slab = .ok { b with slabs := f } ∧
      ∀ t, f t = if a.head = some t then { b.slabs t with prev := some slab } else b.slabs t := by
  cases hcase : a.head with
  | none =>
    rw [hcase] at hhead
    refine ⟨b.slabs, ?_, by simp⟩
    unfold linkHead
    split
    · rfl
    · next h he =>
      rw [hhead] at he
      cases he
  | some h =>
    rw [hcase] at hhead
    have hfirst : ss.head? = some h := lay.chain.head_eq.symm.trans hcase
    have hmem : h ∈ ss := List.mem_of_head? hfirst
    have hprev : (b.slabs h).prev = none := by
      rw [hslabs h hmem]
      cases ss with
      | nil => cases hfirst
      | cons x ws =>
        obtain rfl := Option.some.inj hfirst
        exact lay.chain.seg.1
    refine ⟨Function.update b.slabs h { b.slabs h with prev := some slab }, ?_, fun t => ?_⟩
    · unfold linkHead SlabAlloc.slab
      split
      · next he =>
        rw [hhead] at he
        cases he
      · next h' he =>
        obtain rfl : h = h' := Option.some.inj (hhead.symm.trans he)
        rw [access_pos (hblocks h hmem), ok_bind, ok_bind, assert_pos hprev, ok_bind]
        rfl
    · by_cases ht : t = h
      · subst ht; simp
      · simp [ht, Ne.symm ht]

/-- `a'` is `a` with a slab at the head whose slots are all free. -/
structure Extended (a : SlabAlloc) (slab : Nat) (a' : SlabAlloc) : Prop where
  size : a'.size = a.size
  cap : a'.capPerSlab = a.capPerSlab
  current : a'.current = a.current
  blocks : a'.blocks = insert slab a.blocks
  head : a'.head = some slab
  fresh : a'.slabs slab = freshSlab a.head slab (extent a)
  old : ∀ t, t ≠ slab → a'.slabs t =
    if a.head = some t then { a.slabs t with prev := some slab } else a.slabs t
  path : Path a'.words (some (slab + headerSize)) (slots a slab)
  words : ∀ p, ¬ (slab ≤ p ∧ p < slab + extent a) → a'.words p = a.words p

theorem slabAllocExtend_run (lay : Layout a live ss) {block : Block} (hnew : block.base ∉ ss) :
    ∃ a', slabAllocExtend a (some block) = .ok (some block.base, a') ∧
      Extended a block.base a' := by
  obtain ⟨slab, hslab⟩ : ∃ slab, slab = block.base := ⟨_, rfl⟩
  rw [← hslab] at hnew
  have htotal := lay.totalSize_eq
  have hsize := lay.size_ge
  have hcap := lay.cap_pos
  have hext : headerSize ≤ extent a := Nat.le_add_left _ _
  have hpos : 0 < headerSize := by decide
  have hne : ∀ t ∈ ss, t ≠ slab := fun t ht => ne_of_mem_of_not_mem ht hnew
  -- the block with its header
  obtain ⟨b, hb⟩ : ∃ b, b = (a.receive block (extent a)).setSlab slab
      (freshSlab a.head slab (extent a)) := ⟨_, rfl⟩
  have hbself : b.slabs slab = freshSlab a.head slab (extent a) := by rw [hb, setSlab_self]
  have hbs : ∀ t, t ≠ slab → b.slabs t = a.slabs t := fun t ht => by
    rw [hb, setSlab_ne ht]
    rfl
  have hbwords : ∀ p, ¬ (slab ≤ p ∧ p < slab + extent a) → b.words p = a.words p := by
    intro p hp
    rw [hb, hslab] at *
    exact if_neg hp
  obtain ⟨hbhead, hbcur, hbsize, hbcap, hbblocks⟩ : b.head = a.head ∧ b.current = a.current ∧
      b.size = a.size ∧ b.capPerSlab = a.capPerSlab ∧ b.blocks = insert slab a.blocks := by
    rw [hb, hslab]
    exact ⟨rfl, rfl, rfl, rfl, rfl⟩
  -- the old head points back to it
  obtain ⟨f, hlink, hf⟩ := linkHead_spec lay slab hbhead
    (fun s hs => hbblocks ▸ Finset.mem_insert_of_mem ((lay.blocks s).mpr hs))
    (fun s hs => hbs s (hne s hs))
  have hheadne : a.head ≠ some slab := fun h =>
    hnew (List.mem_of_head? (lay.chain.head_eq.symm.trans h))
  have hfself : f slab = freshSlab a.head slab (extent a) := by
    rw [hf, if_neg hheadne, hbself]
  -- its slots are threaded
  obtain ⟨c, hc⟩ : ∃ c : SlabAlloc, c = { b with slabs := f, head := some slab } := ⟨_, rfl⟩
  have hrange : List.range' (slab + headerSize) (c.capPerSlab - 1 + 1) c.size =
      slots a slab := by
    rw [hc]
    simp only [hbsize, hbcap, slots]
    congr 1
    omega
  have hcin : ∀ p ∈ List.range' (slab + headerSize) (c.capPerSlab - 1 + 1) c.size,
      c.InBlock p := by
    intro p hp
    rw [hrange] at hp
    have h := slot_range hp
    refine ⟨slab, by rw [hc]; exact hbblocks ▸ Finset.mem_insert_self _ _, by omega, ?_⟩
    have ht : (c.slabs slab).totalSize = extent a := by
      rw [hc]
      simp only [hfself, freshSlab]
    rw [ht]
    omega
  obtain ⟨words, hthread, hpath, hkeep⟩ := threadSlots_spec
    (by rw [hc]; simp only [hbsize]; omega) hcin
  rw [hrange] at hpath hkeep
  have hthread' : threadSlots (b.capPerSlab - 1) c (slab + headerSize) =
      .ok { c with words := words } := by
    rw [← hthread, hc]
  have hwords : ∀ p, ¬ (slab ≤ p ∧ p < slab + extent a) → words p = a.words p := by
    intro p hp
    have hout : p ∉ slots a slab := fun h => by
      have := slot_range h
      omega
    have hcb : c.words p = b.words p := by rw [hc]
    rw [hkeep p hout, hcb, hbwords p hp]
  refine ⟨{ c with words := words }, ?_, ?_⟩
  · simp only [slabAllocExtend, htotal, ← hslab]
    rw [assert_pos (by omega), ok_bind, ← hb, hlink, ok_bind]
    simp only [← hc, hthread', ok_bind]
  · rw [← hslab, hc]
    exact ⟨hbsize, hbcap, hbcur, hbblocks, rfl, hfself,
      fun t ht => (hf t).trans (by rw [hbs t ht]), hpath, hwords⟩

theorem Extended.layout {slab : Nat} (ext : Extended a slab a') (lay : Layout a live ss)
    (hfar : ∀ t ∈ ss, slab + extent a ≤ t ∨ t + extent a ≤ slab) (hnew : slab ∉ ss) :
    Layout a' live (slab :: ss) := by
  have hsize := lay.size_ge
  have hne : ∀ t ∈ ss, t ≠ slab := fun t ht => ne_of_mem_of_not_mem ht hnew
  have hextent : extent a' = extent a := by simp only [extent, ext.size, ext.cap]
  have hslots : ∀ t, slots a' t = slots a t := fun t => slots_congr ext.size ext.cap
  -- the slots of the other slabs are outside the block
  have houtside : ∀ t ∈ ss, ∀ p ∈ slots a t, ¬ (slab ≤ p ∧ p < slab + extent a) := by
    intro t ht p hp
    have := slot_range hp
    have := hfar t ht
    omega
  refine ⟨?_, ?_, ?_, ?_, ?_, ?_, ?_, lay.live_nodup, ?_, ?_⟩
  · rw [ext.size]
    exact hsize
  · rw [ext.cap]
    exact lay.cap_pos
  · rw [hextent]
    exact lay.bound
  · have hchain : Chain a.next a.prev a.head ([] ++ ss) := lay.chain
    refine hchain.insert hnew ?_ ?_ ?_ (fun q hq => ?_) (fun q hq => ?_)
    · simpa using ext.head
    · simp only [SlabAlloc.next, ext.fresh, freshSlab]
      exact lay.chain.head_eq
    · simp only [SlabAlloc.prev, ext.fresh, freshSlab]
      rfl
    · simp only [SlabAlloc.next, ext.old q (hne q hq), List.getLast?_nil, reduceCtorEq, if_false]
      split <;> rfl
    · simp only [SlabAlloc.prev, ext.old q (hne q hq), lay.chain.head_eq]
      split <;> rfl
  · intro x
    rw [ext.blocks, Finset.mem_insert, lay.blocks, List.mem_cons]
  · intro t ht
    rw [hextent]
    rcases List.mem_cons.mp ht with rfl | ht
    · rw [ext.fresh]
      rfl
    · rw [ext.old t (hne t ht), ← lay.total t ht]
      split <;> rfl
  · rw [hextent]
    intro x hx y hy hxy
    rcases List.mem_cons.mp hx with rfl | hxs
    · exact hfar y ((List.mem_cons.mp hy).resolve_left (Ne.symm hxy))
    · rcases List.mem_cons.mp hy with rfl | hys
      · exact (hfar x hxs).symm
      · exact lay.apart x hxs y hys hxy
  · intro p hp
    obtain ⟨t, ht, hpt⟩ := lay.live_slot p hp
    exact ⟨t, List.mem_cons_of_mem _ ht, (hslots t).symm ▸ hpt⟩
  · intro t ht
    rcases List.mem_cons.mp ht with rfl | ht
    · refine ⟨slots a t, ?_, slots_nodup (by omega), fun p => ?_, ?_⟩
      · rw [ext.fresh]
        exact ext.path
      · rw [hslots]
        refine ⟨fun hp => ⟨hp, fun hl => ?_⟩, fun hp => hp.1⟩
        obtain ⟨u, hu, hpu⟩ := lay.live_slot p hl
        have := slot_range hp
        exact houtside u hu p hpu ⟨by omega, by omega⟩
      · rw [ext.fresh, length_slots, ext.cap]
        exact Nat.zero_add _
    · obtain ⟨fl, ok⟩ := lay.free t ht
      have hold := ext.old t (hne t ht)
      refine ⟨fl, ok.congr ext.size ext.cap ?_ ?_ (fun p hp => ?_) fun p _ => Iff.rfl⟩
      · rw [hold]
        split <;> rfl
      · rw [hold]
        split <;> rfl
      · exact ext.words p (houtside t ht p ((ok.mem p).mp hp).1)

/-- The new slab is linked at the head with all of its slots free. -/
theorem slabAllocExtend_spec (lay : Layout a live ss) {block : Block}
    (grant : Granted a (some block)) :
    ∃ a', slabAllocExtend a (some block) = .ok (some block.base, a') ∧
      Layout a' live (block.base :: ss) ∧ block.base ∉ ss ∧ a'.current = a.current ∧
      a'.blocks = insert block.base a.blocks ∧ (a'.slabs block.base).freelist ≠ none ∧
      ∀ t ∈ ss, (a'.slabs t).used = (a.slabs t).used := by
  have hfar : ∀ t ∈ ss, block.base + extent a ≤ t ∨ t + extent a ≤ block.base := by
    intro t ht
    have h := grant t ((lay.blocks t).mpr ht)
    rwa [lay.totalSize_eq, lay.total t ht] at h
  have hnew : block.base ∉ ss := by
    intro h
    have hext : headerSize ≤ extent a := Nat.le_add_left _ _
    have hpos : 0 < headerSize := by decide
    rcases hfar _ h with h | h <;> omega
  obtain ⟨a', hrun, ext⟩ := slabAllocExtend_run lay hnew
  refine ⟨a', hrun, ext.layout lay hfar hnew, hnew, ext.current, ext.blocks, ?_, fun t ht => ?_⟩
  · rw [ext.fresh]
    exact Option.some_ne_none _
  · rw [ext.old t (ne_of_mem_of_not_mem ht hnew)]
    split <;> rfl

theorem cachedSpace_spec (lay : Layout a live ss) (hcur : ∀ s, a.current = some s → s ∈ ss) :
    (cachedSpace a = .ok none ∧ ∀ s, a.current = some s → (a.slabs s).freelist = none) ∨
    ∃ s ∈ ss, a.current = some s ∧ cachedSpace a = .ok (some s) ∧
      (a.slabs s).freelist ≠ none := by
  cases hcase : a.current with
  | none => exact Or.inl ⟨by simp only [cachedSpace, hcase], by simp⟩
  | some s =>
    have hs := hcur s hcase
    have hrun : cachedSpace a =
        .ok (if (a.slabs s).freelist.isSome then some s else none) := by
      simp only [cachedSpace, hcase]
      rw [lay.slab_eq hs, ok_bind]
    cases hfree : (a.slabs s).freelist with
    | none =>
      refine Or.inl ⟨by rw [hrun, hfree]; rfl, fun t ht => ?_⟩
      rw [← Option.some.inj ht]
      exact hfree
    | some p => exact Or.inr ⟨s, hs, rfl, by rw [hrun, hfree]; rfl, by simp [hfree]⟩

theorem Layout.withCurrent (lay : Layout a live ss) (c : Option Nat) :
    Layout { a with current := c } live ss :=
  ⟨lay.size_ge, lay.cap_pos, lay.bound, lay.chain, lay.blocks, lay.total, lay.apart,
    lay.live_nodup, lay.live_slot, fun s hs => by
      obtain ⟨f, ok⟩ := lay.free s hs
      exact ⟨f, ok.path, ok.nodup, ok.mem, ok.used⟩⟩

/-- Taking a free slot keeps the invariant when no other slab is empty. -/
theorem takeSlot_invariant (lay : Layout a live ss) (hs : s ∈ ss)
    (hspace : (a.slabs s).freelist ≠ none) (hcur : a.current = some s)
    (hsole : ∀ t ∈ ss, t ≠ s → 0 < (a.slabs t).used) :
    ∃ p a', takeSlot a s = .ok (some p, a') ∧ Invariant a' (p :: live) ss ∧ p ∉ live ∧
      a'.blocks = a.blocks := by
  obtain ⟨p, a', hrun, lay', hp, hcur', hblocks, hused, hkeep⟩ := takeSlot_spec lay hs hspace
  refine ⟨p, a', hrun, ⟨lay', fun t ht => ?_, fun t ht h0 => ?_⟩, hp, hblocks⟩
  · rw [hcur', hcur] at ht
    exact Option.some.inj ht ▸ hs
  · by_cases hts : t = s
    · subst hts
      omega
    · rw [hkeep t hts] at h0
      have := hsole t ht hts
      omega

theorem Invariant.used_pos (inv : Invariant a live ss) {t : Nat} (hs : s ∈ ss) (ht : t ∈ ss)
    (hne : t ≠ s) : 0 < (a.slabs t).used := by
  refine Nat.pos_of_ne_zero fun h0 => hne ?_
  have hsole := inv.sole t ht h0
  rw [hsole, List.mem_singleton] at hs
  exact hs.symm

/-- A call hands out a slot that was not live; it asks for a slab only when no
slab of the list has a free slot. -/
theorem slabAllocAlloc_spec (inv : Invariant a live ss) {grant : Option Block}
    (hgrant : Granted a grant) :
    (∃ p a', slabAllocAlloc a grant = .ok (some p, a') ∧ p ∉ live ∧
      ((Invariant a' (p :: live) ss ∧ a'.blocks = a.blocks) ∨
        ∃ base, Invariant a' (p :: live) (base :: ss) ∧ ∀ s ∈ ss, (a.slabs s).freelist = none)) ∨
    (slabAllocAlloc a grant = .ok (none, a) ∧ grant = none ∧
      ∀ s ∈ ss, (a.slabs s).freelist = none) := by
  have lay := inv.toLayout
  unfold slabAllocAlloc
  rcases cachedSpace_spec lay inv.current with ⟨hcache, -⟩ | ⟨s, hs, hcur, hcache, hspace⟩
  · rw [hcache, ok_bind]
    have hscan := findSpace_spec lay lay.chain.seg (fun s h => h) lay.length_le
    rw [← lay.chain.head_eq] at hscan
    rcases hscan with ⟨hfind, hfull⟩ | ⟨s, hs, hfind, hspace⟩
    · dsimp only
      rw [hfind, ok_bind]
      cases grant with
      | none =>
        refine Or.inr ⟨?_, rfl, hfull⟩
        have hpos : 0 < totalSize a := by
          rw [lay.totalSize_eq]
          exact Nat.lt_of_lt_of_le (by decide) (Nat.le_add_left headerSize _)
        simp only [slabAllocExtend]
        rw [assert_pos hpos, ok_bind, ok_bind]
      | some block =>
        obtain ⟨b, hext, layb, hnew, -, -, hspace, hused⟩ := slabAllocExtend_spec lay hgrant
        have hfullused : ∀ t ∈ ss, 0 < (a.slabs t).used := by
          intro t ht
          obtain ⟨f, ok⟩ := lay.free t ht
          have hpath := ok.path
          rw [hfull t ht] at hpath
          have hlen := ok.used
          have := lay.cap_pos
          rw [hpath.eq_nil, List.length_nil] at hlen
          omega
        obtain ⟨p, a', htake, inv', hp, -⟩ := takeSlot_invariant
          (layb.withCurrent (some block.base)) List.mem_cons_self hspace rfl
          (fun t ht hne => by
            have hts := (List.mem_cons.mp ht).resolve_left hne
            exact (hused t hts).symm ▸ hfullused t hts)
        refine Or.inl ⟨p, a', ?_, hp, Or.inr ⟨block.base, inv', hfull⟩⟩
        dsimp only
        rw [hext, ok_bind]
        exact htake
    · dsimp only
      rw [hfind, ok_bind]
      obtain ⟨p, a', htake, inv', hp, hblocks⟩ := takeSlot_invariant
        (lay.withCurrent (some s)) hs hspace rfl (fun t ht hne => inv.used_pos hs ht hne)
      exact Or.inl ⟨p, a', htake, hp, Or.inl ⟨inv', hblocks⟩⟩
  · rw [hcache, ok_bind]
    obtain ⟨p, a', htake, inv', hp, hblocks⟩ := takeSlot_invariant lay hs hspace hcur
      (fun t ht hne => inv.used_pos hs ht hne)
    exact Or.inl ⟨p, a', htake, hp, Or.inl ⟨inv', hblocks⟩⟩

end Alloc

section Free

variable {a a' : SlabAlloc} {live ss : List Nat} {s p : Nat}

theorem slabContains_iff (lay : Layout a live ss) (hs : s ∈ ss) (hp : p ∈ slots a s) {t : Nat}
    (ht : t ∈ ss) : slabContains a t p = true ↔ t = s := by
  have hb := lay.bound
  have hsize := lay.size_ge
  have hrange := slot_range hp
  have hprod : a.capPerSlab * a.size + headerSize = extent a := by
    rw [Nat.mul_comm]
    rfl
  have hu : u32 (a.capPerSlab * a.size) = a.capPerSlab * a.size := u32_of_lt (by omega)
  simp only [slabContains, hu, decide_eq_true_eq]
  constructor
  · intro h
    by_contra hne
    rcases lay.apart t ht s hs hne with h' | h' <;> omega
  · rintro rfl
    omega

theorem findOwner_spec (lay : Layout a live ss) (hs : s ∈ ss) (hp : p ∈ slots a s)
    {fuel : Nat} {before : Option Nat} {ws : List Nat}
    (seg : Seg a.next a.prev before ws none) (hws : ∀ t ∈ ws, t ∈ ss) (hmem : s ∈ ws)
    (enough : ws.length ≤ fuel) : findOwner fuel a p ws.head? = .ok s := by
  induction ws generalizing fuel before with
  | nil => cases hmem
  | cons w ws ih =>
    obtain ⟨fuel, rfl⟩ : ∃ n, fuel = n + 1 := ⟨fuel - 1, by simp at enough; omega⟩
    obtain ⟨-, hn, hseg⟩ := seg
    have hw : w ∈ ss := hws w List.mem_cons_self
    have hnext : (a.slabs w).next = ws.head? := by
      rw [Option.or_none] at hn
      exact hn
    rw [List.head?_cons, findOwner]
    by_cases hwt : w = s
    · rw [if_pos ((slabContains_iff lay hs hp hw).mpr hwt), hwt]
    · rw [if_neg fun h => hwt ((slabContains_iff lay hs hp hw).mp h), lay.slab_eq hw, ok_bind,
        hnext]
      exact ih hseg (fun t h => hws t (List.mem_cons_of_mem w h))
        ((List.mem_cons.mp hmem).resolve_left (Ne.symm hwt)) (by simpa using enough)

theorem slabFromPtr_spec (inv : Invariant a live ss) (hs : s ∈ ss) (hp : p ∈ slots a s) :
    slabFromPtr a p = .ok s := by
  have lay := inv.toLayout
  have hscan : findOwner a.fuel a p a.head = .ok s := by
    rw [lay.chain.head_eq]
    exact findOwner_spec lay hs hp lay.chain.seg (fun t h => h) hs lay.length_le
  cases hcur : a.current with
  | none => simp only [slabFromPtr, hcur, hscan]
  | some c =>
    have hiff := slabContains_iff lay hs hp (inv.current c hcur)
    simp only [slabFromPtr, hcur, hscan]
    split
    · next h => rw [hiff.mp h]
    · rfl

theorem returnSlot_spec (lay : Layout a live ss) (hs : s ∈ ss) (hp : p ∈ slots a s)
    (hlive : p ∈ live) :
    ∃ a', returnSlot a s p = .ok a' ∧ Layout a' (live.erase p) ss ∧ a'.current = a.current ∧
      (a'.slabs s).freelist ≠ none ∧ (∀ t, t ≠ s → a'.slabs t = a.slabs t) := by
  obtain ⟨f, ok⟩ := lay.free s hs
  have hpf : p ∉ f := fun h => ((ok.mem p).mp h).2 hlive
  have hnodup : (p :: f).Nodup := List.nodup_cons.mpr ⟨hpf, ok.nodup⟩
  have hsub : p :: f ⊆ slots a s := by
    intro q hq
    rcases List.mem_cons.mp hq with rfl | hq
    · exact hp
    · exact ((ok.mem q).mp hq).1
  have hlen := (List.subperm_of_subset hnodup hsub).length_le
  rw [length_slots, List.length_cons] at hlen
  have hused := ok.used
  have hpos : 0 < (a.slabs s).used := by omega
  have herase : ∀ q, q ∈ live.erase p ↔ q ≠ p ∧ q ∈ live :=
    fun q => lay.live_nodup.mem_erase_iff
  refine ⟨_, ?_, lay.setSlab hs
    { a.slabs s with freelist := some p, used := (a.slabs s).used - 1 }
    (Function.update a.words p (a.slabs s).freelist) rfl rfl rfl (lay.live_nodup.erase p)
    (fun q hq => lay.live_slot q ((herase q).mp hq).2) ?_ ?_, rfl, ?_,
    fun t ht => setSlab_ne ht⟩
  · rw [returnSlot, lay.slab_eq hs, ok_bind, assert_pos hpos, ok_bind, SlabAlloc.store,
      access_pos (lay.inBlock hs hp), ok_bind, ok_bind]
    rfl
  · refine ⟨p :: f, ?_, hnodup, fun q => ?_, ?_⟩
    · refine ⟨by rw [show (_ : SlabAlloc).slabs s = _ from setSlab_self], ?_⟩
      change Path (Function.update a.words p (a.slabs s).freelist)
        (Function.update a.words p (a.slabs s).freelist p) f
      rw [Function.update_self, path_congr (fun q hq => Function.update_of_ne
        (ne_of_mem_of_not_mem hq hpf) _ _)]
      exact ok.path
    · change q ∈ p :: f ↔ q ∈ slots a s ∧ q ∉ live.erase p
      rw [List.mem_cons, ok.mem, herase]
      constructor
      · rintro (rfl | ⟨hqs, hql⟩)
        · exact ⟨hp, fun h => h.1 rfl⟩
        · exact ⟨hqs, fun h => hql h.2⟩
      · rintro ⟨hqs, hq⟩
        by_cases hqp : q = p
        · exact Or.inl hqp
        · exact Or.inr ⟨hqs, fun h => hq ⟨hqp, h⟩⟩
    · rw [show (_ : SlabAlloc).slabs s = _ from setSlab_self, List.length_cons]
      change (a.slabs s).used - 1 + (f.length + 1) = a.capPerSlab
      omega
  · intro t ht hts g okt
    have hpg : p ∉ g := fun h =>
      hts (lay.slot_unique ht hs ((okt.mem p).mp h).1 hp)
    refine okt.congr rfl rfl ?_ ?_ (fun q hq => ?_) fun q hq => ?_
    · rw [show (_ : SlabAlloc).slabs t = _ from setSlab_ne hts]
    · rw [show (_ : SlabAlloc).slabs t = _ from setSlab_ne hts]
    · exact Function.update_of_ne (ne_of_mem_of_not_mem hq hpg) _ _
    · have hqp : q ≠ p := by
        rintro rfl
        exact hts (lay.slot_unique ht hs hq hp)
      rw [herase, and_iff_right hqp]
  · rw [show (_ : SlabAlloc).slabs s = _ from setSlab_self]
    simp

theorem updateCurrent_spec (lay : Layout a live ss) (hs : s ∈ ss)
    (hcur : ∀ t, a.current = some t → t ∈ ss) :
    ∃ c, updateCurrent a s = .ok { a with current := c } ∧ ∀ t, c = some t → t ∈ ss := by
  unfold updateCurrent
  rcases cachedSpace_spec lay hcur with ⟨hcache, -⟩ | ⟨t, -, -, hcache, -⟩
  · refine ⟨some s, by rw [hcache, ok_bind], fun t ht => ?_⟩
    exact Option.some.inj ht ▸ hs
  · exact ⟨a.current, by rw [hcache, ok_bind], hcur⟩

theorem unlinkNext_spec (hs : s ∈ a.blocks)
    (hprev : ∀ t, a.prev s = some t → t ∈ a.blocks) :
    ∃ f, unlinkNext a s = .ok { a with slabs := f } ∧ ∀ t, f t =
      if a.prev s = some t then { a.slabs t with next := a.next s } else a.slabs t := by
  have hslab : a.slab s = .ok (a.slabs s) := by rw [SlabAlloc.slab, access_pos hs, ok_bind]
  rw [unlinkNext, hslab, ok_bind]
  cases hcase : (a.slabs s).prev with
  | none => exact ⟨a.slabs, rfl, fun t => by simp [SlabAlloc.prev, hcase]⟩
  | some q =>
    have hq : q ∈ a.blocks := hprev q hcase
    refine ⟨Function.update a.slabs q { a.slabs q with next := (a.slabs s).next }, ?_,
      fun t => ?_⟩
    · dsimp only
      rw [SlabAlloc.slab, access_pos hq, ok_bind, ok_bind]
      rfl
    · by_cases ht : t = q
      · subst ht; simp [SlabAlloc.prev, SlabAlloc.next, hcase]
      · simp [SlabAlloc.prev, hcase, ht, Ne.symm ht]

theorem unlinkPrev_spec (hs : s ∈ a.blocks)
    (hnext : ∀ t, a.next s = some t → t ∈ a.blocks) :
    ∃ f, unlinkPrev a s = .ok { a with slabs := f } ∧ ∀ t, f t =
      if a.next s = some t then { a.slabs t with prev := a.prev s } else a.slabs t := by
  have hslab : a.slab s = .ok (a.slabs s) := by rw [SlabAlloc.slab, access_pos hs, ok_bind]
  rw [unlinkPrev, hslab, ok_bind]
  cases hcase : (a.slabs s).next with
  | none => exact ⟨a.slabs, rfl, fun t => by simp [SlabAlloc.next, hcase]⟩
  | some q =>
    have hq : q ∈ a.blocks := hnext q hcase
    refine ⟨Function.update a.slabs q { a.slabs q with prev := (a.slabs s).prev }, ?_,
      fun t => ?_⟩
    · dsimp only
      rw [SlabAlloc.slab, access_pos hq, ok_bind, ok_bind]
      rfl
    · by_cases ht : t = q
      · subst ht; simp [SlabAlloc.prev, SlabAlloc.next, hcase]
      · simp [SlabAlloc.next, hcase, ht, Ne.symm ht]

/-- `a'` is `a` with the slab taken out of the list and given back. -/
structure Unlinked (a : SlabAlloc) (s : Nat) (a' : SlabAlloc) : Prop where
  size : a'.size = a.size
  cap : a'.capPerSlab = a.capPerSlab
  words : a'.words = a.words
  current : a'.current = if a.current = some s then none else a.current
  blocks : a'.blocks = a.blocks.erase s
  head : a'.head = if a.head = some s then a.next s else a.head
  next : ∀ t, a'.next t = if a.prev s = some t then a.next s else a.next t
  prev : ∀ t, a'.prev t = if a.next s = some t then a.prev s else a.prev t
  freelist : ∀ t, (a'.slabs t).freelist = (a.slabs t).freelist
  used : ∀ t, (a'.slabs t).used = (a.slabs t).used
  total : ∀ t, (a'.slabs t).totalSize = (a.slabs t).totalSize

/-- The assignments to `current` and `head` come first. -/
theorem removeSlab_start (hblock : s ∈ a.blocks) : removeSlab a s = (do
    let b ← unlinkNext { a with
      current := if a.current = some s then none else a.current
      head := if a.head = some s then a.next s else a.head } s
    let b ← unlinkPrev b s
    b.free s) := by
  have hslab : ∀ c : SlabAlloc, c.blocks = a.blocks → c.slabs = a.slabs →
      c.slab s = .ok (a.slabs s) := by
    intro c hc hcs
    rw [SlabAlloc.slab, hc, hcs, access_pos hblock, ok_bind]
  unfold removeSlab
  by_cases h₁ : a.current = some s
  · by_cases h₂ : a.head = some s
    · simp only [if_pos h₁, if_pos h₂]
      rw [hslab { a with current := none } rfl rfl]
      rfl
    · simp only [if_pos h₁, if_neg h₂]
      rw [hslab { a with current := none } rfl rfl]
      rfl
  · by_cases h₂ : a.head = some s
    · simp only [if_neg h₁, if_pos h₂]
      rw [hslab a rfl rfl]
      rfl
    · simp only [if_neg h₁, if_neg h₂]
      rw [hslab a rfl rfl]
      rfl

theorem removeSlab_run (lay : Layout a live ss) (hs : s ∈ ss) :
    ∃ a', removeSlab a s = .ok a' ∧ Unlinked a s a' := by
  have hblock : s ∈ a.blocks := (lay.blocks s).mpr hs
  have hneigh : ∀ t, a.prev s = some t ∨ a.next s = some t → t ∈ a.blocks := by
    rintro t (h | h)
    · exact (lay.blocks t).mpr (lay.chain.prev_mem hs h)
    · exact (lay.blocks t).mpr (lay.chain.next_mem hs h)
  have hprevne : a.prev s ≠ some s := by
    intro h
    obtain ⟨ws₁, ws₂, rfl⟩ := List.append_of_mem hs
    have hnot := (List.nodup_cons.mp (List.perm_middle.nodup_iff.mp lay.chain.nodup)).1
    have hlast : ws₁.getLast? = some s := lay.chain.links.1.symm.trans h
    exact hnot (List.mem_append_left _ (List.mem_of_getLast? hlast))
  obtain ⟨b, hb⟩ : ∃ b : SlabAlloc, b = { a with
      current := if a.current = some s then none else a.current
      head := if a.head = some s then a.next s else a.head } := ⟨_, rfl⟩
  obtain ⟨hbslabs, hbblocks⟩ : b.slabs = a.slabs ∧ b.blocks = a.blocks := by
    rw [hb]
    exact ⟨rfl, rfl⟩
  have hbnext : b.next = a.next := by funext t; simp only [SlabAlloc.next, hbslabs]
  have hbprev : b.prev = a.prev := by funext t; simp only [SlabAlloc.prev, hbslabs]
  -- the slab before it
  obtain ⟨f, hfirst, hf⟩ := unlinkNext_spec (a := b) (s := s) (hbblocks ▸ hblock) (by
    intro t ht
    rw [hbprev] at ht
    exact hbblocks ▸ hneigh t (Or.inl ht))
  rw [hbslabs, hbnext, hbprev] at hf
  obtain ⟨c, hc⟩ : ∃ c : SlabAlloc, c = { b with slabs := f } := ⟨_, rfl⟩
  have hcs : c.slabs s = a.slabs s := by
    rw [hc]
    exact (hf s).trans (if_neg hprevne)
  have hcnext : c.next s = a.next s := by simp only [SlabAlloc.next, hcs]
  have hcprev : c.prev s = a.prev s := by simp only [SlabAlloc.prev, hcs]
  have hcblocks : c.blocks = a.blocks := by rw [hc]; exact hbblocks
  -- the slab behind it
  obtain ⟨g, hsecond, hg⟩ := unlinkPrev_spec (a := c) (s := s) (hcblocks ▸ hblock) (by
    intro t ht
    rw [hcnext] at ht
    exact hcblocks ▸ hneigh t (Or.inr ht))
  rw [hcnext, hcprev] at hg
  have hcf : c.slabs = f := by rw [hc]
  rw [hcf] at hg
  refine ⟨{ c with slabs := g, blocks := a.blocks.erase s }, ?_, ?_⟩
  · rw [removeSlab_start hblock, ← hb, hfirst, ok_bind, ← hc, hsecond, ok_bind, SlabAlloc.free,
      access_pos (show s ∈ c.blocks from hcblocks ▸ hblock), ok_bind, hcblocks]
  · have hnext : ∀ t, (g t).next = if a.prev s = some t then a.next s else a.next t := by
      intro t
      rw [hg, hf]
      split <;> split <;> rfl
    have hprev : ∀ t, (g t).prev = if a.next s = some t then a.prev s else a.prev t := by
      intro t
      rw [hg, hf]
      by_cases h₁ : a.next s = some t
      · rw [if_pos h₁, if_pos h₁]
      · rw [if_neg h₁, if_neg h₁]
        split <;> rfl
    have hsame : ∀ t, (g t).freelist = (a.slabs t).freelist ∧ (g t).used = (a.slabs t).used ∧
        (g t).totalSize = (a.slabs t).totalSize := by
      intro t
      rw [hg, hf]
      split <;> split <;> exact ⟨rfl, rfl, rfl⟩
    rw [hc, hb]
    exact ⟨rfl, rfl, rfl, rfl, rfl, rfl, hnext, hprev, fun t => (hsame t).1,
      fun t => (hsame t).2.1, fun t => (hsame t).2.2⟩

/-- Every slot of an unused slab is on its freelist. -/
theorem Layout.unused (lay : Layout a live ss) (hs : s ∈ ss)
    (hempty : (a.slabs s).used = 0) : ∀ p ∈ live, p ∉ slots a s := by
  intro p hp hps
  obtain ⟨f, ok⟩ := lay.free s hs
  have hsub : f ⊆ slots a s := fun q hq => ((ok.mem q).mp hq).1
  have hused := ok.used
  have hperm := (List.subperm_of_subset ok.nodup hsub).perm_of_length_le
    (by rw [length_slots]; omega)
  exact ((ok.mem p).mp (hperm.mem_iff.mpr hps)).2 hp

theorem Unlinked.layout {ws₁ ws₂ : List Nat} (out : Unlinked a s a')
    (lay : Layout a live (ws₁ ++ s :: ws₂)) (hunused : ∀ p ∈ live, p ∉ slots a s) :
    Layout a' live (ws₁ ++ ws₂) := by
  have hkeep : ∀ t ∈ ws₁ ++ ws₂, t ∈ ws₁ ++ s :: ws₂ := fun t ht =>
    ((List.sublist_cons_self s ws₂).append_left ws₁).subset ht
  have hnot : s ∉ ws₁ ++ ws₂ :=
    (List.nodup_cons.mp (List.perm_middle.nodup_iff.mp lay.chain.nodup)).1
  have hextent : extent a' = extent a := by simp only [extent, out.size, out.cap]
  have hslots : ∀ t, slots a' t = slots a t := fun t => slots_congr out.size out.cap
  refine ⟨?_, ?_, ?_, ?_, fun t => ?_, fun t ht => ?_, ?_, lay.live_nodup, fun p hp => ?_,
    fun t ht => ?_⟩
  · rw [out.size]
    exact lay.size_ge
  · rw [out.cap]
    exact lay.cap_pos
  · rw [hextent]
    exact lay.bound
  · refine lay.chain.remove ?_ (fun t _ => out.next t) (fun t _ => out.prev t)
    rw [out.head]
    simp only [lay.chain.head_iff]
  · rw [out.blocks, Finset.mem_erase, lay.blocks, List.perm_middle.mem_iff, List.mem_cons]
    constructor
    · rintro ⟨hts, ht⟩
      exact ht.resolve_left hts
    · exact fun ht => ⟨ne_of_mem_of_not_mem ht hnot, Or.inr ht⟩
  · rw [hextent, out.total]
    exact lay.total t (hkeep t ht)
  · rw [hextent]
    exact fun x hx y hy hxy => lay.apart x (hkeep x hx) y (hkeep y hy) hxy
  · obtain ⟨t, ht, hpt⟩ := lay.live_slot p hp
    rw [List.perm_middle.mem_iff] at ht
    rcases List.mem_cons.mp ht with rfl | ht
    · exact absurd hpt (hunused p hp)
    · exact ⟨t, ht, (hslots t).symm ▸ hpt⟩
  · obtain ⟨f, ok⟩ := lay.free t (hkeep t ht)
    exact ⟨f, ok.congr out.size out.cap (out.freelist t) (out.used t)
      (fun p _ => by rw [out.words]) fun p _ => Iff.rfl⟩

/-- A slab without live slots leaves the list and its block is released. -/
theorem removeSlab_spec {ws₁ ws₂ : List Nat} (lay : Layout a live (ws₁ ++ s :: ws₂))
    (hempty : (a.slabs s).used = 0) :
    ∃ a', removeSlab a s = .ok a' ∧ Layout a' live (ws₁ ++ ws₂) ∧
      a'.current = (if a.current = some s then none else a.current) ∧
      ∀ t ∈ ws₁ ++ ws₂, (a'.slabs t).used = (a.slabs t).used := by
  have hs : s ∈ ws₁ ++ s :: ws₂ := List.mem_append_right _ List.mem_cons_self
  obtain ⟨a', hrun, out⟩ := removeSlab_run lay hs
  exact ⟨a', hrun, out.layout lay (lay.unused hs hempty), out.current, fun t _ => out.used t⟩

theorem slabAllocFree_spec (inv : Invariant a live ss) (hp : p ∈ live) :
    ∃ a' ss', slabAllocFree a p = .ok a' ∧ Invariant a' (live.erase p) ss' := by
  obtain ⟨s, hs, hslot⟩ := inv.live_slot p hp
  obtain ⟨b, hreturn, layb, hcurb, -, hkeep⟩ := returnSlot_spec inv.toLayout hs hslot hp
  obtain ⟨c, hupdate, hcur⟩ := updateCurrent_spec layb hs fun t ht =>
    inv.current t (hcurb ▸ ht)
  have layc := layb.withCurrent c
  have hslab := layc.slab_eq hs
  have hrun : slabAllocFree a p = if (b.slabs s).used = 0 ∧
      ((b.slabs s).next.isSome ∨ (b.slabs s).prev.isSome) then
        removeSlab { b with current := c } s else .ok { b with current := c } := by
    rw [slabAllocFree, slabFromPtr_spec inv hs hslot, ok_bind, hreturn, ok_bind, hupdate,
      ok_bind, hslab, ok_bind]
  -- another slab is empty only if it was the only one
  have hothers : ∀ t ∈ ss, t ≠ s → (b.slabs t).used ≠ 0 := by
    intro t ht hts h0
    rw [hkeep t hts] at h0
    have := inv.used_pos hs ht hts
    omega
  obtain ⟨ws₁, ws₂, rfl⟩ := Chain.mem_split hs
  rw [hrun]
  split
  · next hempty =>
    obtain ⟨a', hremove, lay', hcur', hused⟩ := removeSlab_spec layc hempty.1
    have hnot : s ∉ ws₁ ++ ws₂ :=
      (List.nodup_cons.mp (List.perm_middle.nodup_iff.mp layb.chain.nodup)).1
    refine ⟨a', ws₁ ++ ws₂, hremove, lay', fun t ht => ?_, fun t ht h0 => ?_⟩
    · rw [hcur'] at ht
      split at ht
      · cases ht
      · next hne =>
        have hmem := List.perm_middle.mem_iff.mp (hcur t ht)
        refine (List.mem_cons.mp hmem).resolve_left ?_
        rintro rfl
        exact hne ht
    · have hts : t ≠ s := ne_of_mem_of_not_mem ht hnot
      have hmem : t ∈ ws₁ ++ s :: ws₂ :=
        List.perm_middle.mem_iff.mpr (List.mem_cons_of_mem s ht)
      rw [hused t ht] at h0
      exact absurd h0 (hothers t hmem hts)
  · next hkept =>
    refine ⟨{ b with current := c }, _, rfl, layc, hcur, fun t ht h0 => ?_⟩
    by_cases hts : t = s
    · subst hts
      obtain ⟨hprev, hnext⟩ := layb.chain.links
      have hnone : ¬ ((b.slabs t).next.isSome ∨ (b.slabs t).prev.isSome) :=
        fun h => hkept ⟨h0, h⟩
      rw [not_or, Option.not_isSome_iff_eq_none, Option.not_isSome_iff_eq_none] at hnone
      have h₁ : ws₁ = [] := List.getLast?_eq_none_iff.mp (hprev.symm.trans hnone.2)
      have h₂ : ws₂ = [] := List.head?_eq_none_iff.mp (hnext.symm.trans hnone.1)
      rw [h₁, h₂]
      rfl
    · exact absurd h0 (hothers t ht hts)

end Free

/-- The allocator and the pointers its callers hold. -/
structure State where
  alloc : SlabAlloc
  live : List Nat

/-- `write` is a caller storing into a slot it holds. -/
inductive Op where
  | alloc (grant : Option Block)
  | free (ptr : Nat)
  | write (ptr : Nat) (words : Nat → Option Nat)

inductive Reply where
  | pointer (ptr : Option Nat)
  | done

/-- Only live pointers are freed, and a store changes words that overlap the
slot. -/
def Permitted (st : State) : Op → Prop
  | .alloc grant => Granted st.alloc grant
  | .free ptr => ptr ∈ st.live
  | .write ptr words => ptr ∈ st.live ∧
      ∀ q, words q ≠ st.alloc.words q → ptr < q + 8 ∧ q < ptr + st.alloc.size

def step (st : State) : Op → Outcome (Reply × State)
  | .alloc grant => do
    let (ptr, a) ← slabAllocAlloc st.alloc grant
    .ok (.pointer ptr, { alloc := a, live := ptr.toList ++ st.live })
  | .free ptr => do
    let a ← slabAllocFree st.alloc ptr
    .ok (.done, { alloc := a, live := st.live.erase ptr })
  | .write _ words => .ok (.done, { st with alloc := { st.alloc with words := words } })

def slabAllocator : Interface State Op Reply := { pre := Permitted, step := step }

section Runs

variable {st : State} {ss : List Nat}

/-- Stores into a live slot leave the freelists alone. -/
theorem write_invariant (inv : Invariant st.alloc st.live ss) {p : Nat}
    {words : Nat → Option Nat} (hp : p ∈ st.live)
    (hwords : ∀ q, words q ≠ st.alloc.words q → p < q + 8 ∧ q < p + st.alloc.size) :
    Invariant { st.alloc with words := words } st.live ss := by
  obtain ⟨s, hs, hslot⟩ := inv.live_slot p hp
  have hsize := inv.size_ge
  refine ⟨⟨inv.size_ge, inv.cap_pos, inv.bound, inv.chain, inv.blocks, inv.total, inv.apart,
    inv.live_nodup, inv.live_slot, fun t ht => ?_⟩, inv.current, inv.sole⟩
  obtain ⟨f, ok⟩ := inv.free t ht
  refine ⟨f, ok.congr rfl rfl rfl rfl (fun q hq => ?_) fun q _ => Iff.rfl⟩
  obtain ⟨hqslot, hqfree⟩ := (ok.mem q).mp hq
  by_contra hne
  obtain ⟨h₁, h₂⟩ := hwords q hne
  by_cases hts : t = s
  · subst hts
    obtain ⟨i, -, hqi⟩ := mem_slots.mp hqslot
    obtain ⟨j, -, hpj⟩ := mem_slots.mp hslot
    -- two slots of one slab are a multiple of the slot size apart
    rcases lt_trichotomy i j with hij | rfl | hij
    · have hmul := Nat.mul_le_mul_left st.alloc.size (Nat.succ_le_of_lt hij)
      rw [Nat.mul_succ] at hmul
      omega
    · exact hqfree (hqi.trans hpj.symm ▸ hp)
    · have hmul := Nat.mul_le_mul_left st.alloc.size (Nat.succ_le_of_lt hij)
      rw [Nat.mul_succ] at hmul
      omega
  · have hq := slot_range hqslot
    have hp := slot_range hslot
    rcases inv.apart t ht s hs hts with h | h <;> omega

/-- A permitted operation returns and keeps the invariant; an allocation that
obtains a block found every slab full. -/
theorem step_spec (inv : Invariant st.alloc st.live ss) {op : Op} (permitted : Permitted st op) :
    ∃ reply st' ss', step st op = .ok (reply, st') ∧ Invariant st'.alloc st'.live ss' ∧
      (∀ grant, op = .alloc grant → st'.alloc.blocks ≠ st.alloc.blocks →
        ∀ s ∈ ss, (st.alloc.slabs s).freelist = none) := by
  cases op with
  | alloc grant =>
    rcases slabAllocAlloc_spec inv permitted with
      ⟨p, a', hrun, -, ⟨inv', hblocks⟩ | ⟨base, inv', hfull⟩⟩ | ⟨hrun, -, hfull⟩
    · exact ⟨_, _, ss, by rw [step, hrun]; rfl, inv', fun _ _ h => absurd hblocks h⟩
    · exact ⟨_, _, base :: ss, by rw [step, hrun]; rfl, inv', fun _ _ _ => hfull⟩
    · exact ⟨_, _, ss, by rw [step, hrun]; rfl, inv, fun _ _ _ => hfull⟩
  | free ptr =>
    obtain ⟨a', ss', hrun, inv'⟩ := slabAllocFree_spec inv permitted
    exact ⟨_, _, ss', by rw [step, hrun]; rfl, inv', fun _ h => nomatch h⟩
  | write ptr words =>
    exact ⟨_, _, ss, rfl, write_invariant inv permitted.1 permitted.2, fun _ h => nomatch h⟩

theorem init_invariant {slabs : Nat → Slab} {words : Nat → Option Nat} {size cap : Nat}
    {a : SlabAlloc} (fits : alignedSize size * cap + headerSize < 2 ^ 32)
    (init : slabAllocInit slabs words size cap = .ok a) : Invariant a [] [] := by
  obtain ⟨_, hsize, init⟩ := bind_eq_ok.mp init
  obtain ⟨_, hcap, init⟩ := bind_eq_ok.mp init
  have hsize := assert_eq_ok_iff.mp hsize
  have hcap := assert_eq_ok_iff.mp hcap
  have hle : alignedSize size * 1 ≤ alignedSize size * cap := Nat.mul_le_mul_left _ hcap
  have hu : u32 (alignedSize size) = alignedSize size := u32_of_lt (by omega)
  have hge : 8 ≤ alignedSize size := by
    unfold alignedSize
    omega
  rw [← Except.ok.inj init]
  refine ⟨⟨le_of_le_of_eq hge hu.symm, hcap, ?_, Chain.empty, by simp, by simp, by simp,
    List.nodup_nil, by simp, by simp⟩, by simp, by simp⟩
  unfold extent
  rw [hu]
  exact fits

theorem runs_keep : Preserves slabAllocator fun st => ∃ ss, Invariant st.alloc st.live ss := by
  rintro st op r st' ⟨ss, inv⟩ permitted hstep
  obtain ⟨reply, st₁, ss', hstep', inv', -⟩ := step_spec inv permitted
  obtain ⟨-, rfl⟩ := ok_pair_inj (hstep.symm.trans hstep')
  exact ⟨ss', inv'⟩

/-- Over every run the slabs, their freelists and the live pointers fit
together, every permitted call returns, and a slab is added only to full ones. -/
theorem slab_allocator_invariant {slabs : Nat → Slab} {words : Nat → Option Nat}
    {size cap : Nat} {a₀ : SlabAlloc} {trace : List (Op × Reply)}
    (fits : alignedSize size * cap + headerSize < 2 ^ 32)
    (init : slabAllocInit slabs words size cap = .ok a₀)
    (run : Trace slabAllocator ⟨a₀, []⟩ trace st) :
    ∃ ss, Invariant st.alloc st.live ss ∧
      (∀ p ∈ st.live, ∃! s, s ∈ ss ∧ p ∈ slots st.alloc s) ∧
      ∀ op, Permitted st op → ∃ reply st', step st op = .ok (reply, st') ∧
        (∀ grant, op = .alloc grant → st'.alloc.blocks ≠ st.alloc.blocks →
          ∀ s ∈ ss, (st.alloc.slabs s).freelist = none) := by
  obtain ⟨ss, inv⟩ := runs_keep.trace ⟨[], init_invariant fits init⟩ run
  refine ⟨ss, inv, fun p hp => ?_, fun op permitted => ?_⟩
  · obtain ⟨s, hs, hslot⟩ := inv.live_slot p hp
    exact ⟨s, ⟨hs, hslot⟩, fun t ht => inv.slot_unique ht.1 hs ht.2 hslot⟩
  · obtain ⟨reply, st', -, hstep, -, hfull⟩ := step_spec inv permitted
    exact ⟨reply, st', hstep, hfull⟩

/-- Two slabs of one slot each; freeing the first slot releases its slab. -/
theorem slab_allocator_invariant_two_slabs : ∃ st : State, st.live = [232] ∧
    ∃ ss, Invariant st.alloc st.live ss ∧
      (∀ p ∈ st.live, ∃! s, s ∈ ss ∧ p ∈ slots st.alloc s) ∧
      ∀ op, Permitted st op → ∃ reply st', step st op = .ok (reply, st') ∧
        (∀ grant, op = .alloc grant → st'.alloc.blocks ≠ st.alloc.blocks →
          ∀ s ∈ ss, (st.alloc.slabs s).freelist = none) := by
  obtain ⟨a₀, h₀⟩ : ∃ a₀, slabAllocInit (fun _ => ⟨none, none, none, 0, 0⟩) (fun _ => none) 12 1 =
      .ok a₀ := ⟨_, rfl⟩
  obtain ⟨st, run, hlive⟩ : ∃ st, Trace slabAllocator ⟨a₀, []⟩
      [(.alloc (some ⟨64, fun _ => some 1⟩), .pointer (some 96)),
        (.alloc (some ⟨200, fun _ => some 2⟩), .pointer (some 232)), (.free 96, .done)] st ∧
      st.live = [232] := by
    rw [← Except.ok.inj h₀]
    refine ⟨_, .cons ?_ rfl (.cons ?_ rfl (.cons ?_ rfl (.nil _))), rfl⟩
    · exact fun b hb => absurd hb (Finset.notMem_empty b)
    · intro b hb
      obtain rfl | hb := Finset.mem_insert.mp (show b ∈ insert 64 (∅ : Finset Nat) from hb)
      · exact .inr (by decide)
      · exact absurd hb (Finset.notMem_empty b)
    · exact .tail _ (.head _)
  exact ⟨st, hlive, slab_allocator_invariant (by decide) h₀ run⟩

end Runs

end SlabAllocator
