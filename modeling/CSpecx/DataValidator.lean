import CSpecx.ByteSequence
import CSpecx.Errors

/-!
# The data validator

`data_validator.c` drives two data writers with the same random operations and
compares what they return. A data writer is its table of functions on a
context. Every caller passes `NULL` for the source and destination buffers, so
the buffers here are the ones the functions allocate, and the allocations
succeed. The bytes of a read or removal are what its destination holds behind
the call.
-/

namespace DataValidator

open CExec Errors ByteSequence

/-- `struct data_writer` on contexts `σ`. The count of `insert` is an `err_t`. -/
structure DataWriter (σ : Type) where
  insert : σ → Nat → List UInt8 → ErrorObject → Outcome (Int × σ × ErrorObject)
  read : σ → Stride → Nat → ErrorObject → Outcome (Int × List UInt8 × σ × ErrorObject)
  write : σ → Stride → Nat → (Nat → UInt8) → ErrorObject → Outcome (Int × σ × ErrorObject)
  remove : σ → Stride → Nat → ErrorObject → Outcome (Int × List UInt8 × σ × ErrorObject)
  getlen : σ → ErrorObject → Outcome (Int × σ × ErrorObject)

structure Dvalidtr (ρ σ : Type) where
  ref : DataWriter ρ
  sut : DataWriter σ
  isvalid : Option (σ → ErrorObject → Outcome (Int × ErrorObject))

/-- The random numbers of a run: a value of the range asked for, for each call. -/
structure Draws where
  draw : Nat → Nat → Nat → Nat
  lower_le : ∀ i lower upper, lower ≤ upper → lower ≤ draw i lower upper
  le_upper : ∀ i lower upper, lower ≤ upper → draw i lower upper ≤ upper

/-- The two contexts, the error object and the number of draws so far. -/
structure Session (ρ σ : Type) where
  ref : ρ
  sut : σ
  e : ErrorObject
  drawn : Nat

variable {ρ σ : Type}

namespace Session

def setRef (s : Session ρ σ) (ref : ρ) (e : ErrorObject) : Session ρ σ :=
  { s with ref := ref, e := e }

def setSut (s : Session ρ σ) (sut : σ) (e : ErrorObject) : Session ρ σ :=
  { s with sut := sut, e := e }

def setError (s : Session ρ σ) (e : ErrorObject) : Session ρ σ := { s with e := e }

/-- `error_causef (e, ERR_CORRUPT, ..)`. -/
def corrupt (s : Session ρ σ) (msg : Message) : Session ρ σ :=
  s.setError (errorCausef s.e errCorrupt msg).2

end Session

/-- An integer as an `err_t`. -/
def errT (n : Int) : Int := n.bmod (2 ^ 32)

def randu32r (draws : Draws) (lower upper : Nat) (s : Session ρ σ) :
    Outcome (Nat × Session ρ σ) := do
  assert (lower ≤ upper)
  .ok (draws.draw s.drawn lower upper, { s with drawn := s.drawn + 1 })

/-- The bytes of `ptr_range`. -/
def ptrRange (n : Nat) : List UInt8 := (List.range n).map UInt8.ofNat

/-- The arguments of most messages. -/
def strideArgs (str : Stride) (size : Nat) : List Int := [str.start, str.stride, str.nelems, size]

def dvalidtrLightValidate (d : Dvalidtr ρ σ) (s : Session ρ σ) :
    Outcome (Int × Session ρ σ) := do
  let (sutLen, sut, e) ← d.sut.getlen s.sut s.e
  let s := s.setSut sut e
  if sutLen < 0 then .ok (errorTrace s.e, s)
  else do
    let (refLen, ref, e) ← d.ref.getlen s.ref s.e
    let s := s.setRef ref e
    if refLen < 0 then .ok (errorTrace s.e, s)
    else if sutLen ≠ refLen then
      .ok (errCorrupt, s.corrupt ⟨"length mismatch: ref=%lu sut=%lu (delta=%lu)",
        [refLen, sutLen, sutLen - refLen]⟩)
    else .ok (success, s)

/-- `isvalid`, when there is one; its result only ends the function early. -/
def checkValid (d : Dvalidtr ρ σ) (s : Session ρ σ) : Outcome (Session ρ σ) :=
  match d.isvalid with
  | none => .ok s
  | some isvalid => do
    let (_, e) ← isvalid s.sut s.e
    .ok (s.setError e)

/-- `memcmp` of two buffers of `nelems * size` bytes over `(u64)count * size` bytes. -/
def sameBytes (str : Stride) (size : Nat) (count : Int) (dest ref : List UInt8) :
    Outcome Bool := do
  access (count.toNat * size % 2 ^ 64 ≤ u32 str.nelems * size)
  .ok (dest.take (count.toNat * size % 2 ^ 64) == ref.take (count.toNat * size % 2 ^ 64))

/-- What `dvalidtr_read` does before `theend`. -/
def readChecks (d : Dvalidtr ρ σ) (str : Stride) (size : Nat) (s : Session ρ σ) :
    Outcome (Session ρ σ) := do
  let (refRead, refBytes, ref, e) ← d.ref.read s.ref str size s.e
  let s := s.setRef ref e
  if refRead < 0 then
    .ok (s.corrupt ⟨"ref read failed (start=%lu stride=%lu nelems=%lu size=%u)",
      strideArgs str size⟩)
  else do
    let (sutRead, sutBytes, sut, e) ← d.sut.read s.sut str size s.e
    let s := s.setSut sut e
    if sutRead < 0 then
      .ok (s.corrupt ⟨"sut read failed (start=%lu stride=%lu nelems=%lu size=%u)",
        strideArgs str size⟩)
    else if refRead ≠ sutRead then
      .ok (s.corrupt
        ⟨"read count mismatch: ref=%lu sut=%lu (start=%lu stride=%lu nelems=%lu size=%u)",
          [refRead, sutRead] ++ strideArgs str size⟩)
    else do
      let same ← sameBytes str size sutRead sutBytes refBytes
      if same = false then
        .ok (s.corrupt ⟨"read data mismatch: ref/sut diverged (start=%lu stride=%lu nelems=%lu" ++
          " size=%u nread=%lu)", strideArgs str size ++ [sutRead]⟩)
      else .ok s

/-- The two buffers of `dvalidtr_read` and `dvalidtr_remove`, then `body`. -/
def withBuffers (str : Stride) (size : Nat) (s : Session ρ σ)
    (body : Session ρ σ → Outcome (Session ρ σ)) : Outcome (Int × Session ρ σ) := do
  let (ref, e) ← iMalloc true (u32 str.nelems) size s.e
  let s := s.setError e
  if ref = false then .ok (errorTrace s.e, s)
  else do
    let (dest, e) ← iMalloc true (u32 str.nelems) size s.e
    let s := s.setError e
    if dest = false then .ok (errorTrace s.e, s)
    else do
      let s ← body s
      .ok (errorTrace s.e, s)

def dvalidtrRead (d : Dvalidtr ρ σ) (str : Stride) (size : Nat) (s : Session ρ σ) :
    Outcome (Int × Session ρ σ) := withBuffers str size s (readChecks d str size)

/-- What follows the two insertions of `dvalidtr_insert`. -/
def insertChecks (d : Dvalidtr ρ σ) (ofst slen : Nat) (s : Session ρ σ) :
    Outcome (Session ρ σ) := do
  let (sutRead, s) ← dvalidtrRead d ⟨ofst, 1, slen⟩ 1 s
  if sutRead < 0 then
    .ok (s.corrupt ⟨"read-back after insert failed (byte offset=%u, slen=%u)", [ofst, slen]⟩)
  else do
    let (failed, s) ← dvalidtrLightValidate d s
    if failed ≠ 0 then
      .ok (s.corrupt ⟨"length check failed after insert at byte offset %u (slen=%u)",
        [ofst, slen]⟩)
    else checkValid d s

/-- What `dvalidtr_insert` does with its source before `theend`. -/
def insertBoth (d : Dvalidtr ρ σ) (ofst : Nat) (src : List UInt8) (s : Session ρ σ) :
    Outcome (Session ρ σ) := do
  let (refWritten, ref, e) ← d.ref.insert s.ref ofst src s.e
  let s := s.setRef ref e
  if refWritten < 0 then
    .ok (s.corrupt ⟨"insert into ref failed at byte offset %u (slen=%u)", [ofst, src.length]⟩)
  else do
    let (sutWritten, sut, e) ← d.sut.insert s.sut ofst src s.e
    let s := s.setSut sut e
    if sutWritten < 0 then
      .ok (s.corrupt ⟨"insert into sut failed at byte offset %u (slen=%u)", [ofst, src.length]⟩)
    else if refWritten ≠ sutWritten then
      .ok (s.corrupt ⟨"insert count mismatch: ref=%lu sut=%lu", [refWritten, sutWritten]⟩)
    else insertChecks d ofst src.length s

/-- Without a source buffer `theend` frees `NULL`. -/
def dvalidtrInsert (d : Dvalidtr ρ σ) (ofst slen : Nat) (s : Session ρ σ) :
    Outcome (Int × Session ρ σ) := do
  let (src, e) ← iMalloc true slen 1 s.e
  assert (src = true)
  let s ← insertBoth d ofst (ptrRange slen) (s.setError e)
  .ok (errorTrace s.e, s)

/-- What follows the two writes of `dvalidtr_write`. -/
def writeChecks (d : Dvalidtr ρ σ) (str : Stride) (size : Nat) (s : Session ρ σ) :
    Outcome (Session ρ σ) := do
  let (failed, s) ← dvalidtrRead d str size s
  if failed ≠ 0 then
    .ok (s.corrupt ⟨"read-back after write failed (start=%lu stride=%lu nelems=%lu size=%u)",
      strideArgs str size⟩)
  else checkValid d s

/-- What `dvalidtr_write` does with its source before `theend`. -/
def writeBoth (d : Dvalidtr ρ σ) (str : Stride) (size : Nat) (src : Nat → UInt8)
    (s : Session ρ σ) : Outcome (Session ρ σ) := do
  let (sutWritten, sut, e) ← d.sut.write s.sut str size src s.e
  let s := s.setSut sut e
  if sutWritten < 0 then
    .ok (s.corrupt ⟨"write into sut failed (start=%lu stride=%lu nelems=%lu size=%u)",
      strideArgs str size⟩)
  else do
    let (refWritten, ref, e) ← d.ref.write s.ref str size src s.e
    let s := s.setRef ref e
    if refWritten < 0 then
      .ok (s.corrupt ⟨"write into ref failed (start=%lu stride=%lu nelems=%lu size=%u)",
        strideArgs str size⟩)
    else if refWritten ≠ sutWritten then
      .ok (s.corrupt
        ⟨"write count mismatch: ref=%lu sut=%lu (start=%lu stride=%lu nelems=%lu size=%u)",
          [refWritten, sutWritten] ++ strideArgs str size⟩)
    else writeChecks d str size s

def dvalidtrWrite (d : Dvalidtr ρ σ) (str : Stride) (size : Nat) (s : Session ρ σ) :
    Outcome (Int × Session ρ σ) := do
  let (src, e) ← iMalloc true (u32 str.nelems) size s.e
  let s := s.setError e
  if src = false then .ok (errorTrace s.e, s)
  else do
    let s ← writeBoth d str size UInt8.ofNat s
    .ok (errorTrace s.e, s)

/-- What `dvalidtr_remove` does before `theend`. -/
def removeChecks (d : Dvalidtr ρ σ) (str : Stride) (size : Nat) (s : Session ρ σ) :
    Outcome (Session ρ σ) := do
  let (refRead, refBytes, ref, e) ← d.ref.remove s.ref str size s.e
  let s := s.setRef ref e
  if refRead < 0 then
    .ok (s.corrupt ⟨"remove from ref failed (start=%lu stride=%lu nelems=%lu size=%u)",
      strideArgs str size⟩)
  else do
    let (sutRead, sutBytes, sut, e) ← d.sut.remove s.sut str size s.e
    let s := s.setSut sut e
    if sutRead < 0 then
      .ok (s.corrupt ⟨"remove from sut failed (start=%lu stride=%lu nelems=%lu size=%u)",
        strideArgs str size⟩)
    else if refRead ≠ sutRead then
      .ok (s.corrupt
        ⟨"remove count mismatch: ref=%lu sut=%lu (start=%lu stride=%lu nelems=%lu size=%u)",
          [refRead, sutRead] ++ strideArgs str size⟩)
    else do
      let same ← sameBytes str size sutRead sutBytes refBytes
      if same = false then
        .ok (s.corrupt
          ⟨"remove data mismatch: ref/sut diverged (start=%lu stride=%lu nelems=%lu" ++
            " size=%u nremoved=%lu)", strideArgs str size ++ [sutRead]⟩)
      else do
        let (failed, s) ← dvalidtrLightValidate d s
        if failed ≠ 0 then
          .ok (s.corrupt
            ⟨"length check failed after remove (start=%lustride=%lu nelems=%lu size=%u)",
              strideArgs str size⟩)
        else checkValid d s

def dvalidtrRemove (d : Dvalidtr ρ σ) (str : Stride) (size : Nat) (s : Session ρ σ) :
    Outcome (Int × Session ρ σ) := withBuffers str size s (removeChecks d str size)

/-- The length cut to an `err_t`. -/
def dvalidtrGetlen (d : Dvalidtr ρ σ) (s : Session ρ σ) : Outcome (Int × Session ρ σ) := do
  let (len, ref, e) ← d.ref.getlen s.ref s.e
  .ok (errT len, s.setRef ref e)

def dvalidtrValidate (d : Dvalidtr ρ σ) (s : Session ρ σ) : Outcome (Int × Session ρ σ) := do
  let (failed, s) ← dvalidtrLightValidate d s
  if failed ≠ 0 then .ok (errorTrace s.e, s)
  else do
    let (len, ref, e) ← d.ref.getlen s.ref s.e
    let s := s.setRef ref e
    if len < 0 then .ok (errorTrace s.e, s)
    else do
      let (failed, s) ← dvalidtrRead d ⟨0, 1, len.toNat⟩ 1 s
      if failed ≠ 0 then
        let s := s.corrupt ⟨"full read validation failed (len=%lu)", [len]⟩
        .ok (errorTrace s.e, s)
      else .ok (success, s)

inductive Choice where
  | insert
  | read
  | remove
  | write
  deriving DecidableEq, Repr

def choiceOf : Nat → Choice
  | 0 => .insert
  | 1 => .read
  | 2 => .remove
  | _ => .write

/-- The operation of one iteration: the length it saw and its random values. -/
structure Drawn where
  choice : Choice
  len : Int
  str : Stride
  ninsert : Nat

/-- `len > 0 ? randu32r (0, (u32)len - 1) : 0`. -/
def drawStart (draws : Draws) (len : Int) (s : Session ρ σ) : Outcome (Nat × Session ρ σ) :=
  if 0 < len then randu32r draws 0 (sub32 (u32 len.toNat) 1) s else .ok (0, s)

/-- `max_n`, an unsigned 64-bit expression cut to 32 bits. -/
def maxElements (len : Int) (start stride : Nat) : Nat :=
  if 0 < len then
    u32 ((sub32 (u32 len.toNat) 1 + 2 ^ 64 - start) % 2 ^ 64 / stride + 1)
  else 0

/-- `max_n > 0 ? randu32r (1, MIN (max_n, max_insert)) : 0`. -/
def drawElements (draws : Draws) (maxN maxInsert : Nat) (s : Session ρ σ) :
    Outcome (Nat × Session ρ σ) :=
  if 0 < maxN then randu32r draws 1 (u32 (min maxN maxInsert)) s else .ok (0, s)

def drawOperation (draws : Draws) (maxInsert : Nat) (len : Int) (s : Session ρ σ) :
    Outcome (Drawn × Session ρ σ) := do
  let (choice, s) ← randu32r draws 0 3 s
  let (start, s) ← drawStart draws len s
  let (stride, s) ← randu32r draws 1 8 s
  let (nelems, s) ← drawElements draws (maxElements len start stride) maxInsert s
  let (ninsert, s) ← randu32r draws 1 (u32 maxInsert) s
  .ok (⟨if len = 0 then .insert else choiceOf choice, len, ⟨start, stride, nelems⟩, ninsert⟩, s)

/-- The call of the `switch`. -/
def perform (d : Dvalidtr ρ σ) (size : Nat) (op : Drawn) (s : Session ρ σ) :
    Outcome (Int × Session ρ σ) :=
  match op.choice with
  | .insert => dvalidtrInsert d (u32 (op.str.start * size)) (u32 (op.ninsert * size)) s
  | .read => dvalidtrRead d op.str size s
  | .remove => dvalidtrRemove d op.str size s
  | .write => dvalidtrWrite d op.str size s

/-- The message of a failed iteration `k`. -/
def failedMessage (k size : Nat) (op : Drawn) : Message :=
  match op.choice with
  | .insert =>
    ⟨"random test failed on iter %u: insert (len=%lu start=%lu ninsert=%u size=%u)",
      [k, op.len, op.str.start, op.ninsert, size]⟩
  | .read =>
    ⟨"random test failed on iter %u: read (len=%lu start=%lu stride=%lu nelems=%lu size=%u)",
      k :: op.len :: strideArgs op.str size⟩
  | .remove =>
    ⟨"random test failed on iter %u: remove (len=%lu start=%lu stride=%lu nelems=%lu size=%u)",
      k :: op.len :: strideArgs op.str size⟩
  | .write =>
    ⟨"random test failed on iter %u: write (len=%lu start=%lu stride=%lu nelems=%lu size=%u)",
      k :: op.len :: strideArgs op.str size⟩

/-- One iteration: the code the test returns with, if it returns. -/
def randomStep (d : Dvalidtr ρ σ) (draws : Draws) (size maxInsert k : Nat) (s : Session ρ σ) :
    Outcome (Option Int × Session ρ σ) := do
  let (len, s) ← dvalidtrGetlen d s
  if len < 0 then .ok (some (errorTrace s.e), s)
  else do
    access (0 < size)
    let (op, s) ← drawOperation draws maxInsert (len / size) s
    let (failed, s) ← perform d size op s
    if failed ≠ 0 then .ok (some errCorrupt, s.corrupt (failedMessage k size op))
    else .ok (none, s)

/-- The iterations from `k` on, `n` of them, and the final validation. -/
def randomLoop (d : Dvalidtr ρ σ) (draws : Draws) (size maxInsert : Nat) :
    Nat → Nat → Session ρ σ → Outcome (Int × Session ρ σ)
  | 0, _, s => do
    let (failed, s) ← dvalidtrValidate d s
    if failed ≠ 0 then
      .ok (errCorrupt, s.corrupt ⟨"random test failed to validate data at the end", []⟩)
    else .ok (success, s)
  | n + 1, k, s => do
    let (returned, s) ← randomStep d draws size maxInsert k s
    match returned with
    | some code => .ok (code, s)
    | none => randomLoop d draws size maxInsert n (k + 1) s

def dvalidtrRandomTest (d : Dvalidtr ρ σ) (draws : Draws) (size niters maxInsert : Nat)
    (s : Session ρ σ) : Outcome (Int × Session ρ σ) :=
  randomLoop d draws size maxInsert niters 0 s

section Reports

variable {d : Dvalidtr ρ σ} {s : Session ρ σ} {src : List UInt8} {ofst : Nat} {m n : Int}
  {ref : ρ} {sut : σ} {e e' : ErrorObject}

def countMismatch (m n : Int) : Message := ⟨"insert count mismatch: ref=%lu sut=%lu", [m, n]⟩

/-- Two writers that answer an insertion by different counts are told apart,
whatever they did. -/
theorem insertBoth_mismatch (href : d.ref.insert s.ref ofst src s.e = .ok (m, ref, e))
    (hsut : d.sut.insert s.sut ofst src e = .ok (n, sut, e')) (hm : 0 ≤ m) (hn : 0 ≤ n)
    (differ : m ≠ n) :
    insertBoth d ofst src s =
      .ok (((s.setRef ref e).setSut sut e').corrupt (countMismatch m n)) := by
  have hm' : ¬ m < 0 := by omega
  have hn' : ¬ n < 0 := by omega
  simp only [insertBoth, href, ok_bind, if_neg hm', Session.setRef, hsut, if_neg hn', if_pos differ,
    countMismatch]

theorem insert_mismatch {slen : Nat} (hpos : 0 < slen) (hsmall : slen < 2 ^ 32)
    (href : d.ref.insert s.ref ofst (ptrRange slen) s.e = .ok (m, ref, e))
    (hsut : d.sut.insert s.sut ofst (ptrRange slen) e = .ok (n, sut, e')) (hm : 0 ≤ m) (hn : 0 ≤ n)
    (differ : m ≠ n) :
    ∃ t, dvalidtrInsert d ofst slen s = .ok (t.e.causeCode, t) ∧
      t = ((s.setRef ref e).setSut sut e').corrupt (countMismatch m n) := by
  have hmalloc : iMalloc true slen 1 s.e = .ok (true, s.e) :=
    iMalloc_granted hpos Nat.one_pos (by omega)
  have hboth := insertBoth_mismatch href hsut hm hn differ
  refine ⟨_, ?_, rfl⟩
  simp only [dvalidtrInsert, hmalloc, ok_bind, assert_pos, errorTrace]
  exact bind_eq_ok.mpr ⟨_, hboth, rfl⟩

end Reports

end DataValidator
