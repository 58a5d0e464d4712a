import CSpecx.ArrayAgreement
import CSpecx.DataValidator

/-!
# The random test of the block array

The setup of the test `block_random`: an empty `ext_array` is the reference, an
empty `block_array` the system under test. Allocations succeed. The two writers
answer an insertion by different conventions, and the test takes that for
corrupted data.
-/

namespace BlockRandom

open CExec Errors ByteSequence BlockArrays ExtArrays DataValidator ArrayAgreement

variable {A : BlockAllocator}

/-! ## The two writers -/

/-- `ext_array_insert_func` hands the inserted length on as an `err_t`. -/
def extArrayInsertFunc (grown : ExtArray → Nat → UInt8) (r : ExtArray) (ofst : Nat)
    (src : List UInt8) (e : ErrorObject) : Outcome (Int × ExtArray × ErrorObject) := do
  let (slen, r') ← extArrayInsert r ofst src (some (grown r)) true
  match slen with
  | some slen => .ok (errT slen, r', e)
  | none => .ok (errorTrace e, r', e)

def extArrayReadFunc (r : ExtArray) (str : Stride) (size : Nat) (e : ErrorObject) :
    Outcome (Int × List UInt8 × ExtArray × ErrorObject) := do
  let (n, bytes) ← extArrayRead r str size
  .ok (n, bytes, r, e)

def extArrayWriteFunc (r : ExtArray) (str : Stride) (size : Nat) (src : Nat → UInt8)
    (e : ErrorObject) : Outcome (Int × ExtArray × ErrorObject) := do
  let (n, r) ← extArrayWrite r str size src
  .ok (n, r, e)

def extArrayRemoveFunc (r : ExtArray) (str : Stride) (size : Nat) (e : ErrorObject) :
    Outcome (Int × List UInt8 × ExtArray × ErrorObject) := do
  let (n, bytes, r) ← extArrayRemove r str size true
  .ok (n, bytes, r, e)

def extArrayGetlenFunc (r : ExtArray) (e : ErrorObject) :
    Outcome (Int × ExtArray × ErrorObject) := .ok (extArrayGetLen r, r, e)

/-- `grown` is what memory holds behind the old contents when the array grows. -/
def extArrayDataWriter (grown : ExtArray → Nat → UInt8) : DataWriter ExtArray where
  insert := extArrayInsertFunc grown
  read := extArrayReadFunc
  write := extArrayWriteFunc
  remove := extArrayRemoveFunc
  getlen := extArrayGetlenFunc

/-- `block_array_insert` returns `SUCCESS`. -/
def blockArrayInsertFunc (r : BlockArray A) (ofst : Nat) (src : List UInt8) (e : ErrorObject) :
    Outcome (Int × BlockArray A × ErrorObject) := do
  let r ← blockArrayInsert r ofst src
  .ok (success, r, e)

def blockArrayReadFunc (r : BlockArray A) (str : Stride) (size : Nat) (e : ErrorObject) :
    Outcome (Int × List UInt8 × BlockArray A × ErrorObject) := do
  let (n, bytes) ← blockArrayRead r str size
  .ok (n, bytes, r, e)

def blockArrayWriteFunc (r : BlockArray A) (str : Stride) (size : Nat) (src : Nat → UInt8)
    (e : ErrorObject) : Outcome (Int × BlockArray A × ErrorObject) := do
  let (n, r) ← blockArrayWrite r str size src
  .ok (n, r, e)

def blockArrayRemoveFunc (r : BlockArray A) (str : Stride) (size : Nat) (e : ErrorObject) :
    Outcome (Int × List UInt8 × BlockArray A × ErrorObject) := do
  let (n, bytes, r) ← blockArrayRemove r str size true
  .ok (n, bytes, r, e)

def blockArrayGetlenFunc (r : BlockArray A) (e : ErrorObject) :
    Outcome (Int × BlockArray A × ErrorObject) := do
  let n ← blockArrayGetlen r
  .ok (n, r, e)

def blockArrayDataWriter (A : BlockAllocator) : DataWriter (BlockArray A) where
  insert := blockArrayInsertFunc
  read := blockArrayReadFunc
  write := blockArrayWriteFunc
  remove := blockArrayRemoveFunc
  getlen := blockArrayGetlenFunc

def arrays (A : BlockAllocator) (grown : ExtArray → Nat → UInt8) :
    Dvalidtr ExtArray (BlockArray A) where
  ref := extArrayDataWriter grown
  sut := blockArrayDataWriter A
  isvalid := none

/-- The contents of memory that a run of the test meets. -/
structure Memory where
  tail : Nat → UInt8
  blocks : Nat → BlockArrays.Block
  grown : ExtArray → Nat → UInt8

/-- One turn of the loop of `block_random`. -/
def blockRandom (A : Nat → Nat → BlockAllocator) (m : Memory) (draws : Draws)
    (capPerNode niters maxInsert : Nat) :
    Outcome (Int × Session ExtArray (BlockArray (blocksOf A capPerNode))) := do
  let b ← blockArrayCreate A m.tail m.blocks capPerNode
  dvalidtrRandomTest (arrays _ m.grown) draws 1 niters maxInsert ⟨extArrayCreate, b, errorCreate, 0⟩

/-! ## The first insertion -/

/-- The two structures hold the same bytes. -/
def Same (s : Session ExtArray (BlockArray A)) : Prop :=
  BlockArrays.contents s.sut = .ok (ExtArrays.contents s.ref)

theorem Related.same {s : Session ExtArray (BlockArray A)} {xs : List UInt8}
    (h : Related (s.sut, s.ref) xs) : Same s := by
  have hsut := contents_spec h.1
  have href := h.2.contents_eq
  exact hsut.trans (congrArg Except.ok href.symm)

theorem errT_of_lt {n : Nat} (h : n < 2 ^ 31) : errT n = n :=
  Int.bmod_eq_of_le (by omega) (by omega)

@[simp] theorem length_ptrRange (n : Nat) : (ptrRange n).length = n := by
  simp [ptrRange]

section Insertion

variable {s : Session ExtArray (BlockArray A)} {xs : List UInt8} {ofst slen : Nat}

/-- Both arrays take the bytes, and the session reports corrupted data. -/
theorem insert_reports (grown : ExtArray → Nat → UInt8) (related : Related (s.sut, s.ref) xs)
    (fits : A.Fits) (hofst : ofst ≤ xs.length) (hpos : 0 < slen)
    (hsmall : xs.length + slen < 2 ^ 31) (he : s.e.causeCode = success) :
    ∃ t, dvalidtrInsert (arrays A grown) ofst slen s = .ok (errCorrupt, t) ∧
      t.e = ⟨errCorrupt, countMismatch slen success⟩ ∧
      Related (t.sut, t.ref) (xs.take ofst ++ ptrRange slen ++ xs.drop ofst) := by
  have hlen := length_ptrRange slen
  have hsrc : ptrRange slen ≠ [] := List.ne_nil_of_length_pos (by omega)
  obtain ⟨r', hr, repr⟩ := extArrayInsert_spec related.2 (grown s.ref) hofst hsrc (by omega)
  obtain ⟨b', hb, repb⟩ := blockArrayInsert_spec related.1 fits hofst hsrc
  have href : extArrayInsertFunc grown s.ref ofst (ptrRange slen) s.e =
      .ok ((slen : Int), r', s.e) := by
    simp only [extArrayInsertFunc, hr, ok_bind, hlen, errT_of_lt (show slen < 2 ^ 31 by omega)]
  have hsut : blockArrayInsertFunc s.sut ofst (ptrRange slen) s.e = .ok (success, b', s.e) := by
    simp only [blockArrayInsertFunc, hb, ok_bind]
  have differ : (slen : Int) ≠ success := by
    show (slen : Int) ≠ 0
    omega
  obtain ⟨t, hrun, ht⟩ := insert_mismatch (d := arrays A grown) hpos (by omega) href hsut
    (Int.natCast_nonneg slen) (le_refl 0) differ
  have hcause : t.e = ⟨errCorrupt, countMismatch slen success⟩ := by
    rw [ht]
    exact errorCausef_records he
  refine ⟨t, ?_, hcause, ?_⟩
  · simpa only [hcause] using hrun
  · rw [ht]
    exact ⟨repb, repr⟩

/-- Without room for a slab the insertion into the block array does not return. -/
theorem insert_short (grown : ExtArray → Nat → UInt8) (related : Related (s.sut, s.ref) xs)
    (short : ¬ A.Fits) (hofst : ofst ≤ xs.length) (hpos : 0 < slen)
    (hsmall : xs.length + slen < 2 ^ 31) :
    ∃ f, dvalidtrInsert (arrays A grown) ofst slen s = .error f := by
  have hlen := length_ptrRange slen
  have hsrc : ptrRange slen ≠ [] := List.ne_nil_of_length_pos (by omega)
  have hmalloc : iMalloc true slen 1 s.e = .ok (true, s.e) :=
    iMalloc_granted hpos Nat.one_pos (by omega)
  obtain ⟨r', hr, -⟩ := extArrayInsert_spec related.2 (grown s.ref) hofst hsrc (by omega)
  obtain ⟨f, hf⟩ : ∃ f, blockArrayInsert s.sut ofst (ptrRange slen) = .error f := by
    cases hrun : blockArrayInsert s.sut ofst (ptrRange slen) with
    | error f => exact ⟨f, rfl⟩
    | ok b' => exact absurd (blockArrayInsert_fits related.1 hrun) short
  have hcount : ¬ (slen : Int) < 0 := Int.not_lt.mpr (Int.natCast_nonneg slen)
  refine ⟨f, ?_⟩
  simp [dvalidtrInsert, hmalloc, assert, insertBoth, arrays, extArrayDataWriter,
    extArrayInsertFunc, blockArrayDataWriter, blockArrayInsertFunc, Session.setError,
    Session.setRef, hr, errT_of_lt (show slen < 2 ^ 31 by omega), hcount, hf]

end Insertion

/-- From half the range on, the doubled capacity of the empty array is zero or too small. -/
theorem extArrayInsert_huge (src : List UInt8) (grown : Nat → UInt8) (hbig : 2 ^ 31 ≤ src.length)
    (hfit : src.length < 2 ^ 32) :
    ∃ f, extArrayInsert extArrayCreate 0 src (some grown) true = .error f := by
  have hcap : u32 src.length = src.length := u32_of_lt hfit
  have hgrow : 0 < src.length := by omega
  by_cases hzero : 0 < u32 (src.length * 2)
  · have houtside : ¬ src.length ≤ u32 (src.length * 2) := by
      simp only [u32]
      omega
    refine ⟨.undefined, ?_⟩
    simp [extArrayInsert, extArrayCreate, extArrayReserve, hcap, hgrow, assert, hzero, spliceSource,
      ExtArray.storeBytes, access, houtside]
  · refine ⟨.assertion, ?_⟩
    simp [extArrayInsert, extArrayCreate, extArrayReserve, hcap, hgrow, assert, hzero]

theorem insert_faults {s : Session ExtArray (BlockArray A)} (grown : ExtArray → Nat → UInt8)
    {slen : Nat} (href : s.ref = extArrayCreate) (hbig : 2 ^ 31 ≤ slen) (hfit : slen < 2 ^ 32) :
    ∃ f, dvalidtrInsert (arrays A grown) 0 slen s = .error f := by
  have hlen := length_ptrRange slen
  have hmalloc : iMalloc true slen 1 s.e = .ok (true, s.e) :=
    iMalloc_granted (by omega) Nat.one_pos (by omega)
  obtain ⟨f, hf⟩ := extArrayInsert_huge (ptrRange slen) (grown s.ref) (by omega) (by omega)
  refine ⟨f, ?_⟩
  rw [← href] at hf
  simp [dvalidtrInsert, hmalloc, assert, insertBoth, arrays, extArrayDataWriter,
    extArrayInsertFunc, Session.setError, hf]

/-! ## The verdict -/

section Verdict

variable {s : Session ExtArray (BlockArray A)} {m : Memory} {draws : Draws}
  {capPerNode niters maxInsert : Nat}

/-- The length of the first insertion. -/
def firstLength (draws : Draws) (maxInsert : Nat) : Nat := draws.draw 2 1 (u32 maxInsert)

theorem firstLength_pos (h : 1 ≤ u32 maxInsert) : 0 < firstLength draws maxInsert :=
  draws.lower_le 2 1 (u32 maxInsert) h

theorem firstLength_lt (h : 1 ≤ u32 maxInsert) : firstLength draws maxInsert < 2 ^ 32 :=
  lt_of_le_of_lt (draws.le_upper 2 1 (u32 maxInsert) h) (u32_lt maxInsert)

theorem getlen_empty (hlen : s.ref.len = 0) :
    dvalidtrGetlen (arrays A m.grown) s = .ok (0, s) := by
  simp [dvalidtrGetlen, arrays, extArrayDataWriter, extArrayGetlenFunc, extArrayGetLen, hlen, errT,
    Session.setRef]

/-- On empty arrays the first operation is an insertion, whatever is drawn. -/
theorem drawOperation_first (draws : Draws) (hdrawn : s.drawn = 0) (h : 1 ≤ u32 maxInsert) :
    ∃ op t, drawOperation draws maxInsert 0 s = .ok (op, t) ∧ op.choice = .insert ∧
      op.str.start = 0 ∧ op.ninsert = firstLength draws maxInsert ∧
      t.ref = s.ref ∧ t.sut = s.sut ∧ t.e = s.e := by
  refine ⟨⟨.insert, 0, ⟨0, draws.draw 1 1 8, 0⟩, firstLength draws maxInsert⟩,
    { s with drawn := 3 }, ?_, rfl, rfl, rfl, rfl, rfl, rfl⟩
  simp [drawOperation, drawStart, drawElements, maxElements, randu32r, assert, h, hdrawn,
    firstLength]

/-- The first iteration is the first insertion. -/
theorem randomStep_first (m : Memory) (draws : Draws) (hlen : s.ref.len = 0)
    (hdrawn : s.drawn = 0) (h : 1 ≤ u32 maxInsert) :
    ∃ t : Session ExtArray (BlockArray A), t.ref = s.ref ∧ t.sut = s.sut ∧ t.e = s.e ∧
      ∃ msg, randomStep (arrays A m.grown) draws 1 maxInsert 0 s =
        (dvalidtrInsert (arrays A m.grown) 0 (firstLength draws maxInsert) t >>= fun
          | (failed, t) =>
            if failed ≠ 0 then .ok (some errCorrupt, t.corrupt msg) else .ok (none, t)) := by
  obtain ⟨op, t, hdraw, hchoice, hstart, hn, href, hsut, he⟩ :=
    drawOperation_first draws hdrawn h
  refine ⟨t, href, hsut, he, failedMessage 0 1 op, ?_⟩
  have hget := getlen_empty (m := m) hlen
  have hofst : u32 (0 * 1) = 0 := rfl
  have hfit : u32 (firstLength draws maxInsert * 1) = firstLength draws maxInsert := by
    rw [Nat.mul_one, u32_of_lt (firstLength_lt h)]
  simp only [randomStep, hget, ok_bind, access_pos, Nat.one_pos, Int.zero_ediv, hdraw, perform,
    hchoice, hstart, hn, hfit, hofst]
  rfl

/-- The empty selection of the final full read is an assertion of `i_malloc`. -/
theorem validate_empty (related : Related (s.sut, s.ref) []) :
    dvalidtrValidate (arrays A m.grown) s = .error .assertion := by
  have hlen : s.ref.len = 0 := related.2.length.symm
  have hget : blockArrayGetlen s.sut = .ok 0 := blockArrayGetlen_spec related.1
  have hlight : dvalidtrLightValidate (arrays A m.grown) s = .ok (success, s) := by
    simp [dvalidtrLightValidate, arrays, extArrayDataWriter, extArrayGetlenFunc, extArrayGetLen,
      blockArrayDataWriter, blockArrayGetlenFunc, hget, hlen, Session.setRef, Session.setSut]
  have hsuccess : ¬ success ≠ 0 := by simp [success]
  simp only [dvalidtrValidate, hlight, ok_bind, if_neg hsuccess]
  simp [arrays, extArrayDataWriter, extArrayGetlenFunc, extArrayGetLen, hlen, dvalidtrRead,
    withBuffers, iMalloc, assert, u32]

/-- The session that `block_random` starts from. -/
def start (b : BlockArray A) : Session ExtArray (BlockArray A) :=
  ⟨extArrayCreate, b, errorCreate, 0⟩

variable {b : BlockArray A}

theorem randomTest_none (m : Memory) (draws : Draws) (related : Related (b, extArrayCreate) []) :
    dvalidtrRandomTest (arrays A m.grown) draws 1 0 maxInsert (start b) = .error .assertion := by
  have hvalidate := validate_empty (s := start b) (m := m) related
  simp [dvalidtrRandomTest, randomLoop, hvalidate]

/-- The first insertion is reported, although both structures took it. -/
theorem randomTest_reports (m : Memory) (draws : Draws) (related : Related (b, extArrayCreate) [])
    (fits : A.Fits) (hiters : 0 < niters) (hmax : 1 ≤ u32 maxInsert)
    (hsmall : firstLength draws maxInsert < 2 ^ 31) :
    ∃ t, dvalidtrRandomTest (arrays A m.grown) draws 1 niters maxInsert (start b) =
        .ok (errCorrupt, t) ∧
      t.e = ⟨errCorrupt, countMismatch (firstLength draws maxInsert) success⟩ ∧
      Related (t.sut, t.ref) (ptrRange (firstLength draws maxInsert)) := by
  obtain ⟨k, rfl⟩ : ∃ k, niters = k + 1 := ⟨niters - 1, by omega⟩
  obtain ⟨s, href, hsut, he, msg, hstep⟩ :=
    randomStep_first (s := start b) m draws rfl rfl hmax
  have related' : Related (s.sut, s.ref) [] := by
    rw [href, hsut]
    exact related
  obtain ⟨t, hinsert, hcause, after⟩ := insert_reports m.grown related' fits (le_refl 0)
    (firstLength_pos hmax) (by simpa using hsmall) (by rw [he]; rfl)
  have hcode : errCorrupt ≠ 0 := by decide
  have hfailed : t.e.causeCode ≠ success := by
    rw [hcause]
    show errCorrupt ≠ success
    decide
  have hbytes : Related (t.sut, t.ref) (ptrRange (firstLength draws maxInsert)) := by
    simpa using after
  refine ⟨t.corrupt msg, ?_, ?_, hbytes⟩
  · simp [dvalidtrRandomTest, randomLoop, hstep, hinsert, hcode]
  · exact (errorCausef_keeps hfailed).trans hcause

theorem drawOperation_none (s : Session ExtArray (BlockArray A)) (draws : Draws)
    (h : u32 maxInsert = 0) :
    drawOperation draws maxInsert 0 s = .error .assertion := by
  simp [drawOperation, drawStart, drawElements, maxElements, randu32r, assert, h]

/-- Where the length of the first insertion cannot be drawn or inserted. -/
theorem randomTest_faults (related : Related (b, extArrayCreate) []) (hiters : 0 < niters)
    (h : u32 maxInsert = 0 ∨ 2 ^ 31 ≤ firstLength draws maxInsert ∨ ¬ A.Fits) :
    ∃ f, dvalidtrRandomTest (arrays A m.grown) draws 1 niters maxInsert (start b) = .error f := by
  obtain ⟨k, rfl⟩ : ∃ k, niters = k + 1 := ⟨niters - 1, by omega⟩
  by_cases hmax : 1 ≤ u32 maxInsert
  · obtain ⟨s, href, hsut, -, msg, hstep⟩ :=
      randomStep_first (s := start b) m draws rfl rfl hmax
    obtain ⟨f, hf⟩ : ∃ f, dvalidtrInsert (arrays A m.grown) 0 (firstLength draws maxInsert) s =
        .error f := by
      by_cases hbig : 2 ^ 31 ≤ firstLength draws maxInsert
      · exact insert_faults m.grown href hbig (firstLength_lt hmax)
      · have short : ¬ A.Fits := (h.resolve_left (by omega)).resolve_left hbig
        have related' : Related (s.sut, s.ref) [] := by
          rw [href, hsut]
          exact related
        exact insert_short m.grown related' short (le_refl 0) (firstLength_pos hmax)
          (by simpa using hbig)
    refine ⟨f, ?_⟩
    simp [dvalidtrRandomTest, randomLoop, hstep, hf]
  · have hget := getlen_empty (s := start b) (m := m) rfl
    have hdraw := drawOperation_none (start b) draws (show u32 maxInsert = 0 by omega)
    refine ⟨.assertion, ?_⟩
    simp [dvalidtrRandomTest, randomLoop, randomStep, hget, access, hdraw]

/-- No failed assertion or access and no report of corrupted data. -/
def Accepts (x : Outcome (Int × Session ExtArray (BlockArray A))) : Prop :=
  ∃ code t, x = .ok (code, t) ∧ code ≠ errCorrupt

/-- A test that returns has reported corrupted data on structures that agree. -/
theorem randomTest_rejects (related : Related (b, extArrayCreate) []) {code : Int}
    {t : Session ExtArray (BlockArray A)}
    (h : dvalidtrRandomTest (arrays A m.grown) draws 1 niters maxInsert (start b) = .ok (code, t)) :
    code = errCorrupt ∧ Same t := by
  by_cases hiters : 0 < niters
  · by_cases hfault : u32 maxInsert = 0 ∨ 2 ^ 31 ≤ firstLength draws maxInsert ∨ ¬ A.Fits
    · obtain ⟨f, hf⟩ := randomTest_faults (m := m) related hiters hfault
      exact absurd (hf.symm.trans h) (by simp)
    · obtain ⟨hzero, hbig, hfits⟩ : u32 maxInsert ≠ 0 ∧
          ¬ 2 ^ 31 ≤ firstLength draws maxInsert ∧ A.Fits := by tauto
      obtain ⟨t', hrun, -, after⟩ := randomTest_reports m draws related hfits hiters
        (show 1 ≤ u32 maxInsert by omega) (Nat.not_le.mp hbig)
      obtain ⟨rfl, rfl⟩ := ok_pair_inj (hrun.symm.trans h)
      exact ⟨rfl, Related.same after⟩
  · obtain rfl : niters = 0 := by omega
    exact absurd ((randomTest_none m draws related).symm.trans h) (by simp)

end Verdict

/-- The test accepts these correct implementations for no input: it fails an
assertion or access, or reports corrupted data while both hold the same bytes. -/
theorem block_random_never_accepts (A : Nat → Nat → BlockAllocator) (m : Memory) (draws : Draws)
    (capPerNode niters maxInsert : Nat) :
    ¬ Accepts (blockRandom A m draws capPerNode niters maxInsert) ∧
      ∀ code t, blockRandom A m draws capPerNode niters maxInsert = .ok (code, t) →
        code = errCorrupt ∧ Same t := by
  have rejects : ∀ code t, blockRandom A m draws capPerNode niters maxInsert = .ok (code, t) →
      code = errCorrupt ∧ Same t := by
    intro code t h
    obtain ⟨b, hcreate, hrun⟩ := bind_eq_ok.mp h
    exact randomTest_rejects (create_related hcreate) hrun
  refine ⟨?_, rejects⟩
  rintro ⟨code, t, hrun, haccept⟩
  exact haccept (rejects code t hrun).1

/-- Every draw is the least of its range. -/
def least : Draws where
  draw _ lower _ := lower
  lower_le _ lower _ _ := le_refl lower
  le_upper _ _ _ h := h

/-- One iteration that inserts one byte: both structures hold it, and the test
reports corrupted data. -/
theorem block_random_one_byte :
    ∃ (m : Memory) (t : Session ExtArray (BlockArray (blocksOf SlabBlocks.stackedBlocks 1))),
      blockRandom SlabBlocks.stackedBlocks m least 1 1 1 = .ok (errCorrupt, t) ∧
      BlockArrays.contents t.sut = .ok [0] ∧ ExtArrays.contents t.ref = [0] ∧
      t.e = ⟨errCorrupt, countMismatch 1 0⟩ ∧
      ¬ Accepts (blockRandom SlabBlocks.stackedBlocks m least 1 1 1) := by
  obtain ⟨m, -⟩ : ∃ m, m = Memory.mk (fun _ => 0) freshBlocks (fun _ _ => 0) := ⟨_, rfl⟩
  obtain ⟨b, hcreate⟩ := SlabBlocks.create_returns SlabAllocator.noSlabs (fun _ => none)
    SlabBlocks.nextBlock_granted m.tail m.blocks Nat.one_pos (by decide)
  have fits := (SlabBlocks.create_fits_iff (by decide) hcreate).mpr (by decide)
  have hmax : 1 ≤ u32 1 := by decide
  have hsmall : firstLength least 1 < 2 ^ 31 := show 1 < 2 ^ 31 by decide
  obtain ⟨t, hrun, hcause, after⟩ := randomTest_reports m least
    (create_related hcreate) fits Nat.one_pos hmax hsmall
  have hblock : blockRandom SlabBlocks.stackedBlocks m least 1 1 1 = .ok (errCorrupt, t) :=
    bind_eq_ok.mpr ⟨b, hcreate, hrun⟩
  refine ⟨m, t, hblock, contents_spec after.1, after.2.contents_eq, hcause, ?_⟩
  rintro ⟨code, t', hrun', haccept⟩
  rw [hblock] at hrun'
  obtain ⟨rfl, -⟩ := ok_pair_inj hrun'
  exact haccept rfl

end BlockRandom
