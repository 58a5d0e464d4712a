import CSpecx.ArrayAgreement

/-!
# Runs of a block array

Elements may straddle the end of the data, and a selection may be empty. The
block list stays well formed and is what the allocator has handed out. With an
empty selection `block_array_remove` still compacts the block it finds, and
leaves that block when it is full.
-/

namespace BlockArrays

open CExec CellMemory Component LinkedChain Strided ByteSequence

variable {A : BlockAllocator} {r r' r₀ : BlockArray A} {p q cur o pos n : Nat}
  {ps before after : List Nat} {xs : List UInt8} {str : Stride} {size : Nat} {dest : Bool}

/-! ## Empty selections -/

theorem seekWalk_empty {α : Type}
    {copy : BlockArray A → Nat → Nat → Nat → α → Outcome (BlockArray A × α)} (rep : Represents r xs)
    (empty : str.nelems = 0) (a : α) :
    seekWalk copy str size r a = .ok (0, r, a) := by
  obtain ⟨ps, inv, -, -⟩ := rep
  have inv₀ : Invariant r ([] ++ ps) := inv
  have hall : str.nelems ≤ 0 := Nat.le_of_eq empty
  have hseek := seek_spec (u32 (str.start * size)) inv₀ inv.length_lt_fuel
  rw [← inv.chain.head_eq] at hseek
  rcases hseek with ⟨-, hnone⟩ | ⟨before, cur, after, o, -, hsome, -⟩
  · simp only [seekWalk, hnone, ok_bind]
  · obtain ⟨k, hfuel⟩ : ∃ k, r.fuel = k + 1 := ⟨_, rfl⟩
    rw [hfuel] at hsome
    simp only [seekWalk, hfuel, hsome, ok_bind, walk, if_pos hall]

/-- The block that holds byte `pos` is full. -/
def FullAt (r : BlockArray A) (pos : Nat) : Prop :=
  ∃ before cur after, walkBlocks r r.fuel r.head = .ok (before ++ cur :: after) ∧
    (flat r before).length ≤ pos ∧ pos < (flat r before).length + r.len cur ∧
    r.len cur = r.capPerNode

theorem walkBlocks_all (inv : Invariant r ps) : walkBlocks r r.fuel r.head = .ok ps := by
  have inv₀ : Invariant r ([] ++ ps) := inv
  rw [inv.chain.head_eq]
  exact walkBlocks_spec inv₀ inv.length_lt_fuel

theorem FullAt.lt (hfull : FullAt r pos) (rep : Represents r xs) : pos < xs.length := by
  obtain ⟨ps, inv, rfl, -⟩ := rep
  obtain ⟨before, cur, after, hsplit, -, hhigh, -⟩ := hfull
  obtain rfl := Except.ok.inj ((walkBlocks_all inv).symm.trans hsplit)
  rw [flat_append, flat_cons, List.length_append, List.length_append, length_bytes]
  omega

/-- A byte lies in one block only. -/
theorem split_unique {before' after' : List Nat} {cur' : Nat}
    (hsplit : before ++ cur :: after = before' ++ cur' :: after')
    (hlow : (flat r before).length ≤ pos) (hhigh : pos < (flat r before).length + r.len cur)
    (hlow' : (flat r before').length ≤ pos)
    (hhigh' : pos < (flat r before').length + r.len cur') : cur = cur' := by
  induction before generalizing before' pos with
  | nil =>
    cases before' with
    | nil => exact (List.cons.inj hsplit).1
    | cons b before' =>
      obtain ⟨rfl, -⟩ := List.cons.inj hsplit
      rw [flat_cons, List.length_append, length_bytes] at hlow'
      simp only [flat_nil, List.length_nil] at hhigh
      omega
  | cons a before ih =>
    cases before' with
    | nil =>
      obtain ⟨rfl, -⟩ := List.cons.inj hsplit
      rw [flat_cons, List.length_append, length_bytes] at hlow
      simp only [flat_nil, List.length_nil] at hhigh'
      omega
    | cons b before' =>
      obtain ⟨rfl, hrest⟩ := List.cons.inj hsplit
      rw [flat_cons, List.length_append, length_bytes] at hlow hhigh hlow' hhigh'
      have hlow₁ : (flat r before).length ≤ pos - r.len a := by omega
      have hlow₂ : (flat r before').length ≤ pos - r.len a := by omega
      exact ih hrest hlow₁ (by omega) hlow₂ (by omega)

theorem store_load_self {m : Nat → UInt8} : store m o (load m o n) = m := by
  funext i
  by_cases hin : o ≤ i ∧ i < o + n
  · obtain ⟨k, rfl⟩ := Nat.exists_eq_add_of_le hin.1
    have hk : k < (load m o n).length := by rw [length_load]; omega
    rw [store_inside hk, getElem_load]
  · exact store_outside (by rw [length_load]; omega)

/-- The bytes of a block move onto themselves, unless the block is full: then the
write cursor goes on to the next block, which is not the read block. -/
theorem compactLoop_empty (inv : Invariant r (before ++ cur :: after)) (ho : o < r.len cur)
    (htlen : r.tlen = 0) (enough : 0 < n) :
    (r.len cur = r.capPerNode ∧ compactLoop n r ⟨cur, o, cur, o⟩ = .error .assertion) ∨
      (r.len cur ≠ r.capPerNode ∧ ∃ r', compactLoop n r ⟨cur, o, cur, o⟩ =
          .ok (r', ⟨cur, r.len cur, cur, r.len cur⟩) ∧
        Represents (r'.setLen cur (r.len cur)) (flat r (before ++ cur :: after)) ∧
        r'.block cur = .ok (r'.blocks cur)) := by
  obtain ⟨k, rfl⟩ := Nat.exists_eq_add_of_lt enough
  have hcur : cur ∈ before ++ cur :: after := by simp
  have hle := inv.len_le cur hcur
  have hfield : (r.blocks cur).len = r.len cur := rfl
  have hn : min (r.capPerNode - o) (r.len cur - o) = r.len cur - o := by omega
  have hload := inv.loadBytes hcur (show o + (r.len cur - o) ≤ r.capPerNode by omega)
  have hfits : o + (load (r.data cur) o (r.len cur - o)).length ≤ r.capPerNode := by
    rw [length_load]
    omega
  have hstore := inv.storeBytes hcur hfits
  rw [store_load_self] at hstore
  have inv' : Invariant (r.setData cur (r.data cur)) (before ++ cur :: after) := inv.setData _
  have hsum : o + (r.len cur - o) = r.len cur := by omega
  by_cases hfull : r.len cur = r.capPerNode
  · refine .inl ⟨hfull, ?_⟩
    have hnext : ((r.setData cur (r.data cur)).setLen cur r.capPerNode).next cur ≠ some cur := by
      rw [BlockArray.setLen_next, BlockArray.setData_next]
      intro hself
      have hhead : after.head? = some cur := inv.chain.links.2.symm.trans hself
      have hnot := (List.nodup_cons.mp (List.perm_middle.nodup_iff.mp inv.chain.nodup)).1
      exact hnot (List.mem_append_right _ (List.mem_of_mem_head? hhead))
    have hcap : (r.setData cur (r.data cur)).capPerNode = r.capPerNode := rfl
    have hfails : assert (((r.setData cur (r.data cur)).setLen cur r.capPerNode).next cur =
        some cur) = .error .assertion := if_neg hnext
    simp only [compactLoop, inv.block hcur, hfield, hn, ok_bind, moveDown, hload,
      hstore, hsum, hcap, if_pos hfull, hfails, error_bind]
  · refine .inr ⟨hfull, r.setData cur (r.data cur), ?_, ?_, inv'.block hcur⟩
    · have hfield' : ((r.setData cur (r.data cur)).blocks cur).len = r.len cur :=
        congrFun (BlockArray.setData_len r cur (r.data cur)) cur
      have hcap : (r.setData cur (r.data cur)).capPerNode = r.capPerNode := rfl
      have hsame : ¬ cur ≠ cur := fun h => h rfl
      simp only [compactLoop, inv.block hcur, hfield, hn, ok_bind, moveDown, hload, hstore, hsum,
        hcap, if_neg hfull, inv'.block hcur, hfield', if_true, dropRead, if_neg hsame]
    · refine ⟨_, inv'.setLen hle, flat_congr fun q _ => bytes_congr ?_ ?_, htlen⟩
      · simp
      · by_cases hq : q = cur
        · simp [hq]
        · simp [hq]

/-- Either the assertion fails in a full block, or nothing is removed. -/
theorem blockArrayRemove_empty (rep : Represents r xs) (empty : str.nelems = 0) (dest : Bool) :
    (FullAt r (u32 (str.start * size)) ∧
      blockArrayRemove r str size dest = .error .assertion) ∨
    (¬ FullAt r (u32 (str.start * size)) ∧
      ∃ r', blockArrayRemove r str size dest = .ok (0, [], r') ∧ Represents r' xs) := by
  obtain ⟨ps, inv, rfl, htlen⟩ := rep
  have inv₀ : Invariant r ([] ++ ps) := inv
  have hwalk := walkBlocks_all inv
  have hseek := seek_spec (u32 (str.start * size)) inv₀ inv.length_lt_fuel
  rw [← inv.chain.head_eq] at hseek
  rcases hseek with ⟨hend, hnone⟩ | ⟨before, cur, after, o, rfl, hsome, ho, hsum⟩
  · refine .inr ⟨?_, r, ?_, ps, inv, rfl, htlen⟩
    · intro hfull
      have := hfull.lt ⟨ps, inv, rfl, htlen⟩
      omega
    · simp only [blockArrayRemove, hnone, ok_bind]
  · have hfuel : 0 < r.fuel := Nat.succ_pos _
    have hall : str.nelems ≤ 0 := Nat.le_of_eq empty
    have hloop : removeLoop str size dest r.fuel r ⟨cur, o, cur, o⟩ ⟨size, true⟩ 0 [] =
        .ok ⟨r, ⟨cur, o, cur, o⟩, false, 0, []⟩ := by
      obtain ⟨k, hk⟩ : ∃ k, r.fuel = k + 1 := ⟨_, rfl⟩
      rw [hk, removeLoop, if_pos hall]
    rcases compactLoop_empty inv ho htlen hfuel with ⟨hfull, hrun⟩ | ⟨hroom, r', hrun, rep', hblock⟩
    · refine .inl ⟨⟨before, cur, after, hwalk, by omega, by omega, hfull⟩, ?_⟩
      simp only [blockArrayRemove, hsome, ok_bind, removeFrom, hloop, compactRest,
        Bool.false_eq_true, if_false, hrun, error_bind]
    · refine .inr ⟨?_, _, ?_, rep'⟩
      · rintro ⟨before', cur', after', hsplit, hlow, hhigh, hfull⟩
        have hsame := Except.ok.inj (hwalk.symm.trans hsplit)
        have hlow₀ : (flat r before).length ≤ u32 (str.start * size) := by omega
        have hcur : cur = cur' := split_unique hsame hlow₀ (by omega) hlow hhigh
        exact hroom (hcur ▸ hfull)
      · simp only [blockArrayRemove, hsome, ok_bind, removeFrom, hloop,
          compactRest, Bool.false_eq_true, if_false, hrun, hblock]

/-! ## Runs -/

/-- A block array on its own, with any length of data. -/
def blockRuns (A : BlockAllocator) : Interface (BlockArray A) Op Reply where
  pre r op := ∃ len, blockArrayGetlen r = .ok len ∧ Allowed len op
  step := step

/-- With an empty selection a call that returns keeps the bytes. -/
theorem step_empty (rep : Represents r xs) {op : Op} (empty : ¬ Selects op) {reply : Reply}
    (hrun : step r op = .ok (reply, r')) :
    Represents r' xs := by
  cases op with
  | insert ofst src grown => exact absurd trivial empty
  | read str size =>
    have hzero : str.nelems = 0 := Nat.eq_zero_of_not_pos empty
    simp only [step, blockArrayRead, seekWalk_empty rep hzero, ok_bind] at hrun
    obtain ⟨-, rfl⟩ := ok_pair_inj hrun
    exact rep
  | write str size src =>
    have hzero : str.nelems = 0 := Nat.eq_zero_of_not_pos empty
    simp only [step, blockArrayWrite, seekWalk_empty rep hzero, ok_bind] at hrun
    obtain ⟨-, rfl⟩ := ok_pair_inj hrun
    exact rep
  | remove str size dest =>
    have hzero : str.nelems = 0 := Nat.eq_zero_of_not_pos empty
    rcases blockArrayRemove_empty rep hzero dest with ⟨-, hfails⟩ | ⟨-, r'', hok, rep'⟩
    · rw [step, hfails] at hrun
      cases hrun
    · rw [step, hok] at hrun
      obtain ⟨-, rfl⟩ := ok_pair_inj hrun
      exact rep'
  | getlen => exact absurd trivial empty

theorem blockRuns_keep : Preserves (blockRuns A) fun r => ∃ xs, Represents r xs := by
  rintro r op reply r' ⟨xs, rep⟩ ⟨len, hlen, allowed⟩ hrun
  obtain rfl := Except.ok.inj ((blockArrayGetlen_spec rep).symm.trans hlen)
  by_cases selects : Selects op
  · obtain ⟨r'', hok, rep'⟩ := step_selects rep (step_fits rep hrun) allowed selects
    obtain ⟨-, rfl⟩ := ok_pair_inj (hok.symm.trans hrun)
    exact ⟨_, rep'⟩
  · exact ⟨xs, step_empty rep selects hrun⟩

theorem blockRuns_represents {A : Nat → Nat → BlockAllocator} {tail : Nat → UInt8}
    {blocks : Nat → Block} {cap : Nat} {r₀ r : BlockArray (blocksOf A cap)}
    {trace : List (Op × Reply)} (init : blockArrayCreate A tail blocks cap = .ok r₀)
    (run : Trace (blockRuns _) r₀ trace r) : ∃ xs, Represents r xs :=
  blockRuns_keep.trace ⟨[], create_represents init⟩ run

/-- The blocks that a walk along `next` visits: each has its neighbours in the
walk as its links, and they are the slots that are handed out. -/
structure WellFormed (r : BlockArray A) (ps : List Nat) : Prop where
  walk : walkBlocks r r.fuel r.head = .ok ps
  distinct : ps.Nodup
  links : ∀ before p after, ps = before ++ p :: after →
    r.prev p = before.getLast? ∧ r.next p = after.head?
  len_le : ∀ p ∈ ps, r.len p ≤ r.capPerNode
  tlen : r.tlen = 0
  owned : ∀ p, p ∈ ps ↔ p ∈ A.live r.blockAlloc

theorem Invariant.wellFormed (inv : Invariant r ps) (htlen : r.tlen = 0) : WellFormed r ps := by
  refine ⟨walkBlocks_all inv, inv.chain.nodup, ?_, inv.len_le, htlen, inv.live⟩
  rintro before p after rfl
  exact inv.chain.links

/-- On every run the list stays well formed, and no operation that selects something
fails: not even with an allocator that faults when a slot is freed twice. -/
def StaysWellFormed (r₀ : BlockArray A) : Prop :=
  ∀ trace r, Trace (blockRuns A) r₀ trace r →
    (∃ ps, WellFormed r ps) ∧
      ∀ op, (blockRuns A).pre r op → Selects op → ∃ reply r', step r op = .ok (reply, r')

theorem staysWellFormed_of_represents (rep₀ : Represents r₀ []) (fits : A.Fits) :
    StaysWellFormed r₀ := by
  intro trace r run
  obtain ⟨xs, rep⟩ := blockRuns_keep.trace ⟨[], rep₀⟩ run
  constructor
  · obtain ⟨ps, inv, -, htlen⟩ := rep
    exact ⟨ps, inv.wellFormed htlen⟩
  · rintro op ⟨len, hlen, allowed⟩ selects
    obtain rfl := Except.ok.inj ((blockArrayGetlen_spec rep).symm.trans hlen)
    obtain ⟨r', hrun, -⟩ := step_selects rep (.inl fits) allowed selects
    exact ⟨_, r', hrun⟩

theorem firstByte_allowed (rep : Represents r []) :
    (blockRuns A).pre r ArrayAgreement.firstByte :=
  ⟨_, blockArrayGetlen_spec rep, ArrayAgreement.firstByte_permitted.allowed⟩

theorem StaysWellFormed.fits (stays : StaysWellFormed r₀) (rep₀ : Represents r₀ []) : A.Fits := by
  obtain ⟨-, hreturns⟩ := stays [] r₀ (.nil _)
  obtain ⟨reply, r', hrun⟩ := hreturns _ (firstByte_allowed rep₀) trivial
  exact (step_fits rep₀ hrun).resolve_right fun h => h 0 [0] _ rfl

section Slabs

open SlabBlocks
open SlabAllocator (SlabAlloc Granted alignedSize blockHeader headerSize)

variable {malloc : SlabAlloc → SlabAllocator.Block} {cap : Nat}

/-- On slabs from any `malloc` that succeeds, the blocks are well formed and owned
exactly when the size of a slab of 512 of them fits 32 bits. -/
theorem blocks_well_formed_iff (slabs : Nat → SlabAllocator.Slab) (words : Nat → Option Nat)
    (fresh : ∀ a, Granted a (some (malloc a))) (tail : Nat → UInt8) (blocks : Nat → Block)
    (hpos : 0 < cap) (hcap : cap < 2 ^ 32) :
    (∃ r₀, blockArrayCreate (slabBlocks slabs words malloc fresh) tail blocks cap = .ok r₀ ∧
        StaysWellFormed r₀) ↔
      alignedSize (blockHeader + cap) * 512 + headerSize < 2 ^ 32 := by
  constructor
  · rintro ⟨r₀, init, stays⟩
    exact (create_fits_iff hcap init).mp (stays.fits (create_represents init))
  · intro fits
    obtain ⟨r₀, init⟩ := create_returns slabs words fresh tail blocks hpos fits
    exact ⟨r₀, init, staysWellFormed_of_represents (create_represents init)
      ((create_fits_iff hcap init).mpr fits)⟩

/-- Blocks of three bytes: eight bytes in three blocks, and a removal that ends with
half an element. -/
theorem blocks_well_formed_straddling :
    ∃ (r₀ r : BlockArray (blocksOf stackedBlocks 3)) (trace : List (Op × Reply)),
      blockArrayCreate stackedBlocks (fun _ => 0) ArrayAgreement.freshBlocks 3 = .ok r₀ ∧
      Trace (blockRuns _) r₀ trace r ∧
      trace.map Prod.snd = [.inserted, .count 1 []] ∧ contents r = .ok [1, 2, 3] ∧
      (∃ ps, WellFormed r ps) ∧
      ∀ op, (blockRuns _).pre r op → Selects op → ∃ reply r', step r op = .ok (reply, r') := by
  obtain ⟨r₀, init, stays⟩ := (blocks_well_formed_iff SlabAllocator.noSlabs (fun _ => none)
    nextBlock_granted (fun _ => 0) ArrayAgreement.freshBlocks (show 0 < 3 by decide)
    (by decide)).mpr
      (by decide)
  have rep₀ := create_represents init
  have fits := stays.fits rep₀
  have allowed₁ : Allowed 0 (.insert 0 [1, 2, 3, 4, 5, 6, 7, 8] fun _ => 0) :=
    ⟨Nat.zero_le _, List.cons_ne_nil _ _, by decide⟩
  obtain ⟨r₁, hstep₁, rep₁⟩ := step_selects rep₀ (.inl fits) allowed₁ trivial
  have allowed₂ : Allowed 8 (.remove ⟨1, 1, 2⟩ 3 false) :=
    ⟨by decide, by decide, by decide⟩
  obtain ⟨r₂, hstep₂, rep₂⟩ := step_selects rep₁ (.inl fits) allowed₂ (show 0 < 2 by decide)
  obtain ⟨trace, hreplies, run⟩ : ∃ trace : List (Op × Reply),
      trace.map Prod.snd = [.inserted, .count 1 []] ∧ Trace (blockRuns _) r₀ trace r₂ :=
    ⟨_, by decide, .cons ⟨_, blockArrayGetlen_spec rep₀, allowed₁⟩ hstep₁
      (.cons ⟨_, blockArrayGetlen_spec rep₁, allowed₂⟩ hstep₂ (.nil _))⟩
  have hcontents : contents r₂ = .ok [1, 2, 3] :=
    (contents_spec rep₂).trans (congrArg Except.ok (by decide))
  exact ⟨r₀, r₂, trace, init, run, hreplies, hcontents, stays _ _ run⟩

/-- The widest blocks that fit take up a slab just below `2 ^ 32` bytes; one byte more,
and the first block is not owned: the freelist already runs over the end. -/
theorem wide_blocks_outside :
    alignedSize (blockHeader + 8388576) * 512 + headerSize < 2 ^ 32 ∧
    ∃ r₀ : BlockArray (blocksOf stackedBlocks 8388577),
      blockArrayCreate stackedBlocks (fun _ => 0) ArrayAgreement.freshBlocks 8388577 = .ok r₀ ∧
      (blockRuns _).pre r₀ ArrayAgreement.firstByte ∧
      (∀ result, step r₀ ArrayAgreement.firstByte ≠ .ok result) ∧ ¬ StaysWellFormed r₀ := by
  refine ⟨by decide, ?_⟩
  obtain ⟨r₀, init⟩ : ∃ r₀ : BlockArray (blocksOf stackedBlocks 8388577),
      blockArrayCreate stackedBlocks (fun _ => 0) ArrayAgreement.freshBlocks 8388577 = .ok r₀ :=
    ⟨_, rfl⟩
  have rep₀ := create_represents init
  have short : ¬ (blocksOf stackedBlocks 8388577).Fits := fun fits =>
    absurd ((create_fits_iff (by decide) init).mp fits) (by decide)
  refine ⟨r₀, init, firstByte_allowed rep₀, ?_, fun stays => short (stays.fits rep₀)⟩
  rintro ⟨reply, r'⟩ hrun
  exact short ((step_fits rep₀ hrun).resolve_right fun h => h 0 [0] _ rfl)

end Slabs

end BlockArrays
