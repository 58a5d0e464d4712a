import CSpecx.CheckedArithmetic
import CSpecx.HeapBuffers
import CSpecx.LinearAllocator

/-!
# Reallocations to the right and to the left

The wrappers of `realloc` in `memory.c`. To the right an array keeps its first
elements, to the left its last ones. The heap gives each block its bytes, and
`realloc` answers with nothing or with the address of the block it leaves. That
is the old address or one not in use, but nothing here depends on it.
-/

namespace Reallocs

open CExec Errors

abbrev Heap := Nat → Option (List UInt8)

/-- The address, and what the bytes hold that the old block did not have. -/
abbrev Answer := Option (Nat × (Nat → UInt8))

def block (h : Heap) (p : Nat) : Outcome (List UInt8) :=
  match h p with
  | some bytes => .ok bytes
  | none => .error .undefined

def resized (bytes : List UInt8) (n : Nat) (junk : Nat → UInt8) : List UInt8 :=
  bytes.take n ++ ((List.range n).map junk).drop bytes.length

/-- `realloc`; of `NULL` it is `malloc`. -/
def realloc (answer : Answer) (ptr : Option Nat) (n : Nat) (h : Heap) :
    Outcome (Option Nat × Heap) := do
  access (0 < n)
  match ptr with
  | none =>
    match answer with
    | none => .ok (none, h)
    | some (q, junk) => .ok (some q, Function.update h q (some (resized [] n junk)))
  | some p => do
    let bytes ← block h p
    match answer with
    | none => .ok (none, h)
    | some (q, junk) =>
      .ok (some q, Function.update (Function.update h p none) q (some (resized bytes n junk)))

def overwrite (bytes : List UInt8) (o : Nat) (xs : List UInt8) : List UInt8 :=
  bytes.take o ++ xs ++ bytes.drop (o + xs.length)

/-- `memmove (p + dst, p + src, n)`. -/
def memmove (p dst src n : Nat) (h : Heap) : Outcome Heap := do
  let bytes ← block h p
  access (dst + n ≤ bytes.length ∧ src + n ≤ bytes.length)
  .ok (Function.update h p (some (overwrite bytes dst ((bytes.drop src).take n))))

/-- `memset (p + o, 0, n)`. -/
def memset (p o n : Nat) (h : Heap) : Outcome Heap := do
  let bytes ← block h p
  access (o + n ≤ bytes.length)
  .ok (Function.update h p (some (overwrite bytes o (List.replicate n 0))))

/-- A statement under an `if` without `else`. -/
def runIf (c : Prop) [Decidable c] (f : Heap → Outcome Heap) (h : Heap) : Outcome Heap :=
  if c then f h else .ok h

/-- With `ASSERT` or without, and with the overflow builtins or without. -/
structure Build where
  asserts : LinearAllocator.Build
  overflow : CheckedArithmetic.Build

def Build.check (build : Build) (p : Prop) [Decidable p] : Outcome Unit := build.asserts.check p

def safeMulU32 (build : Build) (a b dest : Nat) : Outcome (Bool × Nat) := do
  let (ok, v) ← CheckedArithmetic.safeMulU build.overflow 32 a b dest
  .ok (ok, v.toNat)

def iRealloc (build : Build) (answer : Answer) (ptr : Option Nat) (nelem size : Nat) (h : Heap)
    (e : ErrorObject) : Outcome (Option Nat × Heap × ErrorObject) := do
  build.check (0 < nelem)
  build.check (0 < size)
  let (ok, bytes) ← safeMulU32 build nelem size 0
  build.check (ok = true)
  if ok = false then
    .ok (none, h, (errorCausef e errNomem ⟨"realloc %u*%u: overflow", [nelem, size]⟩).2)
  else do
    let (ret, h) ← realloc answer ptr bytes h
    match ret with
    | none => .ok (none, h, (errorCausef e errNomem ⟨"realloc %u bytes: %s", [bytes]⟩).2)
    | some q => .ok (some q, h, e)

def iReallocRight (build : Build) (answer : Answer) (ptr : Option Nat)
    (oldNelem newNelem size : Nat) (h : Heap) (e : ErrorObject) :
    Outcome (Option Nat × Heap × ErrorObject) := do
  build.check (0 < size)
  build.check (ptr = none → oldNelem = 0)
  build.check (0 < newNelem)
  iRealloc build answer ptr newNelem size h e

/-- The two sizes in bytes, none when one has more than 32 bits. -/
def byteCounts (build : Build) (oldNelem newNelem size : Nat) : Outcome (Option (Nat × Nat)) := do
  let (okOld, oldBytes) ← safeMulU32 build oldNelem size 0
  build.check (okOld = true)
  let (okNew, newBytes) ← safeMulU32 build newNelem size 0
  build.check (okNew = true)
  if okOld = false ∨ okNew = false then .ok none else .ok (some (oldBytes, newBytes))

/-- What the calls to the left do behind their checks; `zeroed` is `i_crealloc_left`. -/
def leftBlock (zeroed : Bool) (build : Build) (answer : Answer) (ptr : Option Nat)
    (newNelem size oldBytes newBytes : Nat) (h : Heap) (e : ErrorObject) :
    Outcome (Option Nat × Heap × ErrorObject) :=
  match ptr with
  | none => do
    let (ret, h, e) ← iRealloc build answer none newNelem size h e
    match ret with
    | none => .ok (none, h, e)
    | some q => do
      let h ← runIf (zeroed = true) (memset q 0 newBytes) h
      .ok (some q, h, e)
  | some p =>
    if newBytes < oldBytes then do
      -- the last bytes go to the start before `realloc` is asked
      let h ← memmove p 0 (oldBytes - newBytes) newBytes h
      iRealloc build answer (some p) newNelem size h e
    else do
      let (ret, h, e) ← iRealloc build answer (some p) newNelem size h e
      match ret with
      | none => .ok (none, h, e)
      | some q => do
        let h ← runIf (0 < oldBytes) (memmove q (newBytes - oldBytes) 0 oldBytes) h
        let h ← runIf (zeroed = true) (memset q 0 (newBytes - oldBytes)) h
        .ok (some q, h, e)

def reallocLeft (zeroed : Bool) (overflow : String) (build : Build) (answer : Answer)
    (ptr : Option Nat) (oldNelem newNelem size : Nat) (h : Heap) (e : ErrorObject) :
    Outcome (Option Nat × Heap × ErrorObject) := do
  build.check (0 < size)
  build.check (ptr = none → oldNelem = 0)
  build.check (0 < newNelem)
  if oldNelem = newNelem then .ok (ptr, h, e)
  else do
    match ← byteCounts build oldNelem newNelem size with
    | none => .ok (none, h, (errorCausef e errNomem ⟨overflow, []⟩).2)
    | some (oldBytes, newBytes) =>
      leftBlock zeroed build answer ptr newNelem size oldBytes newBytes h e

def iReallocLeft := reallocLeft false "realloc_left: overflow"

def iCreallocLeft := reallocLeft true "crealloc_left: overflow"

def iCreallocRight (build : Build) (answer : Answer) (ptr : Option Nat)
    (oldNelem newNelem size : Nat) (h : Heap) (e : ErrorObject) :
    Outcome (Option Nat × Heap × ErrorObject) := do
  build.check (0 < size)
  build.check (ptr = none → oldNelem = 0)
  build.check (0 < newNelem)
  match ← byteCounts build oldNelem newNelem size with
  | none => .ok (none, h, (errorCausef e errNomem ⟨"crealloc_right: overflow", []⟩).2)
  | some (oldBytes, newBytes) => do
    let (ret, h, e) ← iRealloc build answer ptr newNelem size h e
    match ret with
    | none => .ok (none, h, e)
    | some q => do
      let h ← runIf (oldBytes < newBytes) (memset q oldBytes (newBytes - oldBytes)) h
      .ok (some q, h, e)

/-! ## What the callers rely on -/

/-- The bytes behind a pointer. -/
def At (h : Heap) : Option Nat → List UInt8 → Prop
  | none, bytes => bytes = []
  | some p, bytes => h p = some bytes

/-- A call that returns `NULL` leaves the old block as it is. -/
def Kept (h : Heap) (ptr ret : Option Nat) (h' : Heap) : Prop :=
  ret = none → ∀ p, ptr = some p → h' p = h p

/-- The last bytes of the old array stand at the end of a larger or at the start of a
smaller one. One of the two differences is zero. -/
structure Placed (zeroed : Bool) (bytes : List UInt8) (oldBytes newBytes : Nat)
    (out : List UInt8) : Prop where
  room : newBytes ≤ out.length
  last : (out.take newBytes).drop (newBytes - oldBytes) =
    (bytes.take oldBytes).drop (oldBytes - newBytes)
  head : zeroed = true →
    out.take (newBytes - oldBytes) = List.replicate (newBytes - oldBytes) 0

structure LeftPromise (zeroed : Bool) (h : Heap) (ptr : Option Nat) (bytes : List UInt8)
    (oldBytes newBytes : Nat) (ret : Option Nat) (h' : Heap) : Prop where
  kept : Kept h ptr ret h'
  placed : ∀ q, ret = some q → ∃ out, h' q = some out ∧ Placed zeroed bytes oldBytes newBytes out

section Bytes

variable {bytes xs : List UInt8} {n o oldBytes newBytes : Nat} {junk : Nat → UInt8}

theorem length_resized (bytes : List UInt8) (n : Nat) (junk : Nat → UInt8) :
    (resized bytes n junk).length = n := by
  rw [resized, List.length_append, List.length_take, List.length_drop, List.length_map,
    List.length_range]
  omega

theorem take_resized {k : Nat} (hk : k ≤ n) (hle : k ≤ bytes.length) (junk : Nat → UInt8) :
    (resized bytes n junk).take k = bytes.take k := by
  rw [resized, List.take_append_of_le_length (by rw [List.length_take]; omega), List.take_take,
    Nat.min_eq_left hk]

theorem length_overwrite (h : o + xs.length ≤ bytes.length) :
    (overwrite bytes o xs).length = bytes.length := by
  rw [overwrite, List.length_append, List.length_append, List.length_take, List.length_drop]
  omega

theorem overwrite_nil : overwrite bytes o [] = bytes := by
  rw [overwrite, List.append_nil, List.length_nil, Nat.add_zero, List.take_append_drop]

theorem drop_overwrite (h : o ≤ bytes.length) :
    (overwrite bytes o xs).drop o = xs ++ bytes.drop (o + xs.length) := by
  rw [overwrite, List.append_assoc, List.drop_left' (by rw [List.length_take]; omega)]

theorem overwrite_zero : overwrite bytes 0 xs = xs ++ bytes.drop xs.length := by
  rw [overwrite, List.take_zero, List.nil_append, Nat.zero_add]

/-- What the growing move leaves of the new block. -/
def movedEnd (bytes : List UInt8) (oldBytes newBytes : Nat) (junk : Nat → UInt8) : List UInt8 :=
  overwrite (resized bytes newBytes junk) (newBytes - oldBytes)
    ((resized bytes newBytes junk).take oldBytes)

theorem length_movedEnd (hle : oldBytes ≤ newBytes) (bytes : List UInt8) (junk : Nat → UInt8) :
    (movedEnd bytes oldBytes newBytes junk).length = newBytes := by
  have hlength := length_resized bytes newBytes junk
  rw [movedEnd, length_overwrite (by rw [List.length_take]; omega), hlength]

/-- The old bytes are at the end. -/
theorem drop_movedEnd (hle : oldBytes ≤ newBytes) (hold : oldBytes ≤ bytes.length)
    (junk : Nat → UInt8) :
    (movedEnd bytes oldBytes newBytes junk).drop (newBytes - oldBytes) = bytes.take oldBytes := by
  have hlength := length_resized bytes newBytes junk
  have hcount : (bytes.take oldBytes).length = oldBytes := by
    rw [List.length_take]
    omega
  rw [movedEnd, take_resized hle hold, drop_overwrite (by omega),
    List.drop_eq_nil_of_le (by omega), List.append_nil]

theorem placed_grown (zeroed : Bool) (hle : oldBytes ≤ newBytes) (hold : oldBytes ≤ bytes.length) :
    Placed zeroed bytes oldBytes newBytes
      (if zeroed then overwrite (movedEnd bytes oldBytes newBytes junk) 0
        (List.replicate (newBytes - oldBytes) 0) else movedEnd bytes oldBytes newBytes junk) := by
  have hlength := length_movedEnd hle bytes junk
  have hdrop := drop_movedEnd hle hold junk
  have hcount : (bytes.take oldBytes).length = oldBytes := by
    rw [List.length_take]
    omega
  have hzero : oldBytes - newBytes = 0 := by omega
  cases zeroed with
  | false =>
    rw [if_neg Bool.false_ne_true]
    refine ⟨by omega, ?_, nofun⟩
    rw [List.take_of_length_le (by omega), hdrop, hzero, List.drop_zero]
  | true =>
    rw [if_pos rfl, overwrite_zero, List.length_replicate, hdrop]
    refine ⟨?_, ?_, fun _ => ?_⟩
    · rw [List.length_append, List.length_replicate, hcount]
      omega
    · rw [List.take_of_length_le (by rw [List.length_append, List.length_replicate]; omega),
        List.drop_left' List.length_replicate, hzero, List.drop_zero]
    · rw [List.take_left' List.length_replicate]

/-- What the shrinking move leaves of the block. -/
def shifted (bytes : List UInt8) (oldBytes newBytes : Nat) : List UInt8 :=
  overwrite bytes 0 ((bytes.drop (oldBytes - newBytes)).take newBytes)

theorem shifted_eq (hle : newBytes ≤ oldBytes) (hold : oldBytes ≤ bytes.length) :
    shifted bytes oldBytes newBytes =
      (bytes.take oldBytes).drop (oldBytes - newBytes) ++ bytes.drop newBytes := by
  have hlast : (bytes.drop (oldBytes - newBytes)).take newBytes =
      (bytes.take oldBytes).drop (oldBytes - newBytes) := by
    rw [List.drop_take, Nat.sub_sub_self hle]
  have hcount : ((bytes.drop (oldBytes - newBytes)).take newBytes).length = newBytes := by
    rw [List.length_take, List.length_drop]
    omega
  rw [shifted, overwrite_zero, hcount, hlast]

/-- The move changes nothing exactly when the last bytes are the first ones. -/
theorem shifted_eq_iff (hle : newBytes ≤ oldBytes) (hold : oldBytes ≤ bytes.length) :
    shifted bytes oldBytes newBytes = bytes ↔
      bytes.take newBytes = (bytes.take oldBytes).drop (oldBytes - newBytes) := by
  have hsplit : bytes = bytes.take newBytes ++ bytes.drop newBytes :=
    (List.take_append_drop newBytes bytes).symm
  rw [shifted_eq hle hold]
  constructor
  · intro heq
    exact (List.append_cancel_right (heq.trans hsplit)).symm
  · intro heq
    rw [← heq, List.take_append_drop]

theorem placed_shrunk (zeroed : Bool) (hle : newBytes ≤ oldBytes) (hold : oldBytes ≤ bytes.length) :
    Placed zeroed bytes oldBytes newBytes
      (resized (shifted bytes oldBytes newBytes) newBytes junk) := by
  have hcount : ((bytes.take oldBytes).drop (oldBytes - newBytes)).length = newBytes := by
    rw [List.length_drop, List.length_take]
    omega
  have hzero : newBytes - oldBytes = 0 := by omega
  refine ⟨(length_resized _ _ _).ge, ?_, fun _ => ?_⟩
  · rw [shifted_eq hle hold, take_resized le_rfl (by rw [List.length_append]; omega), hzero,
      List.drop_zero, List.take_left' hcount]
  · rw [hzero, List.take_zero, List.replicate_zero]

end Bytes

section Calls

variable {build : Build} {answer : Answer} {ptr : Option Nat} {h : Heap} {e : ErrorObject}
  {bytes : List UInt8} {oldNelem newNelem nelem size p q n : Nat} {junk : Nat → UInt8}

theorem check_pos {P : Prop} [Decidable P] (hp : P) : build.check P = .ok () :=
  LinearAllocator.check_pos fun _ => hp

/-- A product of 32 bits is stored, with the builtins and without. -/
theorem safeMulU32_eq {a b : Nat} (ha : a < 2 ^ 32) (hb : b < 2 ^ 32) (hprod : a * b < 2 ^ 32)
    (dest : Nat) : safeMulU32 build a b dest = .ok (true, a * b) := by
  have hmax : CheckedArithmetic.uintMax 32 = 2 ^ 32 - 1 := rfl
  have hprod' : ((a * b : Nat) : Int) < 2 ^ 32 := by exact_mod_cast hprod
  rw [safeMulU32, CheckedArithmetic.safeMulU, CheckedArithmetic.safeOpU_fits build.overflow
    (CheckedArithmetic.umulOk_eq ⟨by omega, by omega⟩ ⟨by omega, by omega⟩)
    ⟨by rw [← Nat.cast_mul]; omega, by rw [← Nat.cast_mul]; omega⟩, ok_bind, ← Nat.cast_mul]
  rfl

theorem byteCounts_eq (hsize : size < 2 ^ 32) (holdn : oldNelem < 2 ^ 32)
    (hnewn : newNelem < 2 ^ 32) (hold : oldNelem * size < 2 ^ 32)
    (hnew : newNelem * size < 2 ^ 32) :
    byteCounts build oldNelem newNelem size =
      .ok (some (oldNelem * size, newNelem * size)) := by
  rw [byteCounts, safeMulU32_eq holdn hsize hold, ok_bind]
  dsimp only
  rw [check_pos rfl, ok_bind, safeMulU32_eq hnewn hsize hnew, ok_bind]
  dsimp only
  rw [check_pos rfl, ok_bind, if_neg (by decide)]

theorem block_eq (hp : h p = some bytes) : block h p = .ok bytes := by
  rw [block, hp]

theorem realloc_refused (hn : 0 < n) (hat : At h ptr bytes) :
    realloc none ptr n h = .ok (none, h) := by
  unfold realloc
  rw [access_pos hn, ok_bind]
  cases ptr with
  | none => rfl
  | some p =>
    dsimp only
    rw [block_eq hat, ok_bind]

theorem realloc_granted (hn : 0 < n) (hat : At h ptr bytes) (q : Nat) (junk : Nat → UInt8) :
    ∃ h', realloc (some (q, junk)) ptr n h = .ok (some q, h') ∧
      h' q = some (resized bytes n junk) := by
  unfold realloc
  rw [access_pos hn, ok_bind]
  cases ptr with
  | none =>
    obtain rfl : bytes = [] := hat
    exact ⟨_, rfl, Function.update_self _ _ _⟩
  | some p =>
    dsimp only
    rw [block_eq hat, ok_bind]
    exact ⟨_, rfl, Function.update_self _ _ _⟩

section Sized

variable (hnelem : 0 < nelem) (hsize : 0 < size) (hcount : nelem * size < 2 ^ 32)

include hnelem hsize hcount

theorem iRealloc_eq : iRealloc build answer ptr nelem size h e = (do
    let (ret, h) ← realloc answer ptr (nelem * size) h
    match ret with
    | none => .ok (none, h,
        (errorCausef e errNomem ⟨"realloc %u bytes: %s", [(nelem * size : Nat)]⟩).2)
    | some q => .ok (some q, h, e)) := by
  have hn : nelem ≤ nelem * size := Nat.le_mul_of_pos_right nelem hsize
  have hs : size ≤ nelem * size := Nat.le_mul_of_pos_left size hnelem
  rw [iRealloc, check_pos hnelem, ok_bind, check_pos hsize, ok_bind,
    safeMulU32_eq (by omega) (by omega) hcount, ok_bind]
  dsimp only
  rw [check_pos rfl, ok_bind, if_neg (by decide)]

theorem iRealloc_refused (build : Build) (e : ErrorObject) (hat : At h ptr bytes) :
    ∃ e', iRealloc build none ptr nelem size h e = .ok (none, h, e') := by
  rw [iRealloc_eq hnelem hsize hcount,
    realloc_refused (Nat.mul_pos hnelem hsize) hat, ok_bind]
  exact ⟨_, rfl⟩

theorem iRealloc_granted (build : Build) (e : ErrorObject) (hat : At h ptr bytes) (q : Nat)
    (junk : Nat → UInt8) :
    ∃ h', iRealloc build (some (q, junk)) ptr nelem size h e = .ok (some q, h', e) ∧
      h' q = some (resized bytes (nelem * size) junk) := by
  obtain ⟨h', hrun, hq⟩ := realloc_granted (Nat.mul_pos hnelem hsize) hat q junk
  rw [iRealloc_eq hnelem hsize hcount, hrun, ok_bind]
  exact ⟨h', rfl, hq⟩

end Sized

theorem memmove_eq {dst src : Nat} (hp : h p = some bytes)
    (hbound : dst + n ≤ bytes.length ∧ src + n ≤ bytes.length) :
    memmove p dst src n h =
      .ok (Function.update h p (some (overwrite bytes dst ((bytes.drop src).take n)))) := by
  rw [memmove, block_eq hp, ok_bind, access_pos hbound, ok_bind]

theorem memset_eq {o : Nat} (hp : h p = some bytes) (hbound : o + n ≤ bytes.length) :
    memset p o n h =
      .ok (Function.update h p (some (overwrite bytes o (List.replicate n 0)))) := by
  rw [memset, block_eq hp, ok_bind, access_pos hbound, ok_bind]

theorem runIf_pos {c : Prop} [Decidable c] {f : Heap → Outcome Heap} (hc : c) :
    runIf c f h = f h := if_pos hc

theorem runIf_neg {c : Prop} [Decidable c] {f : Heap → Outcome Heap} (hc : ¬ c) :
    runIf c f h = .ok h := if_neg hc

section Grown

variable {oldBytes newBytes : Nat} {moved : List UInt8}

theorem moveEnd_spec (hle : oldBytes ≤ newBytes) (hq : h q = some (resized bytes newBytes junk)) :
    ∃ h', runIf (0 < oldBytes) (memmove q (newBytes - oldBytes) 0 oldBytes) h = .ok h' ∧
      h' q = some (movedEnd bytes oldBytes newBytes junk) := by
  have hlength := length_resized bytes newBytes junk
  by_cases hpos : 0 < oldBytes
  · rw [runIf_pos hpos, memmove_eq hq ⟨by omega, by omega⟩, List.drop_zero]
    exact ⟨_, rfl, Function.update_self _ _ _⟩
  · obtain rfl : oldBytes = 0 := by omega
    rw [runIf_neg hpos, movedEnd, List.take_zero, overwrite_nil]
    exact ⟨h, rfl, hq⟩

theorem zeroHead_spec (zeroed : Bool) (hq : h q = some moved) (hle : n ≤ moved.length) :
    ∃ h', runIf (zeroed = true) (memset q 0 n) h = .ok h' ∧
      h' q = some (if zeroed then overwrite moved 0 (List.replicate n 0) else moved) := by
  cases zeroed with
  | false => exact ⟨h, rfl, hq⟩
  | true =>
    rw [runIf_pos rfl, memset_eq hq (by omega)]
    exact ⟨_, rfl, Function.update_self _ _ _⟩

end Grown

end Calls

/-- The inputs of a call, as its callers promise them. -/
structure Request (h : Heap) (ptr : Option Nat) (bytes : List UInt8)
    (oldNelem newNelem size : Nat) : Prop where
  at_ptr : At h ptr bytes
  old_fits : oldNelem * size ≤ bytes.length
  new_pos : 0 < newNelem
  size_pos : 0 < size
  old_lt : oldNelem * size < 2 ^ 32
  new_lt : newNelem * size < 2 ^ 32

section Requests

variable {build : Build} {answer : Answer} {ptr : Option Nat} {h : Heap} {e : ErrorObject}
  {bytes : List UInt8} {oldNelem newNelem size p q : Nat} {junk : Nat → UInt8} {zeroed : Bool}
  {overflow : String} (req : Request h ptr bytes oldNelem newNelem size)

include req

theorem Request.null (hptr : ptr = none) : oldNelem = 0 := by
  subst hptr
  obtain rfl : bytes = [] := req.at_ptr
  have hfits := req.old_fits
  have hpos := req.size_pos
  rw [List.length_nil] at hfits
  exact (Nat.mul_eq_zero.mp (Nat.le_zero.mp hfits)).resolve_right (by omega)

theorem Request.byteCounts_eq : byteCounts build oldNelem newNelem size =
    .ok (some (oldNelem * size, newNelem * size)) := by
  have hold : oldNelem ≤ oldNelem * size := Nat.le_mul_of_pos_right oldNelem req.size_pos
  have hnew : newNelem ≤ newNelem * size := Nat.le_mul_of_pos_right newNelem req.size_pos
  have hsize : size ≤ newNelem * size := Nat.le_mul_of_pos_left size req.new_pos
  have holdlt := req.old_lt
  have hnewlt := req.new_lt
  exact Reallocs.byteCounts_eq (by omega) (by omega) (by omega) holdlt hnewlt

theorem reallocLeft_same (heq : oldNelem = newNelem) :
    reallocLeft zeroed overflow build answer ptr oldNelem newNelem size h e =
      .ok (ptr, h, e) := by
  rw [reallocLeft, check_pos req.size_pos, ok_bind, check_pos req.null, ok_bind,
    check_pos req.new_pos, ok_bind, if_pos heq]

theorem reallocLeft_eq (hne : oldNelem ≠ newNelem) :
    reallocLeft zeroed overflow build answer ptr oldNelem newNelem size h e =
      leftBlock zeroed build answer ptr newNelem size (oldNelem * size) (newNelem * size) h e := by
  rw [reallocLeft, check_pos req.size_pos, ok_bind, check_pos req.null, ok_bind,
    check_pos req.new_pos, ok_bind, if_neg hne, req.byteCounts_eq, ok_bind]

/-- When growing, `realloc` comes first. -/
theorem leftBlock_refused (zeroed : Bool) (build : Build) (e : ErrorObject)
    (hle : oldNelem ≤ newNelem) :
    ∃ e', leftBlock zeroed build none ptr newNelem size (oldNelem * size) (newNelem * size) h e =
      .ok (none, h, e') := by
  obtain ⟨e', hrefused⟩ := iRealloc_refused req.new_pos req.size_pos req.new_lt build e req.at_ptr
  have hbytes : ¬ newNelem * size < oldNelem * size := not_lt.mpr (Nat.mul_le_mul_right size hle)
  cases ptr with
  | none => rw [leftBlock, hrefused, ok_bind]; exact ⟨e', rfl⟩
  | some p => rw [leftBlock, if_neg hbytes, hrefused, ok_bind]; exact ⟨e', rfl⟩

theorem leftBlock_grown (zeroed : Bool) (build : Build) (e : ErrorObject) (q : Nat)
    (junk : Nat → UInt8) (hle : oldNelem ≤ newNelem) :
    ∃ h' out, leftBlock zeroed build (some (q, junk)) ptr newNelem size (oldNelem * size)
        (newNelem * size) h e = .ok (some q, h', e) ∧
      h' q = some out ∧ Placed zeroed bytes (oldNelem * size) (newNelem * size) out := by
  obtain ⟨h₁, hgranted, hq₁⟩ := iRealloc_granted req.new_pos req.size_pos req.new_lt build e
    req.at_ptr q junk
  have hbytes : oldNelem * size ≤ newNelem * size := Nat.mul_le_mul_right size hle
  have hlength := length_movedEnd hbytes bytes junk
  obtain ⟨h₂, hmove, hq₂⟩ := moveEnd_spec hbytes hq₁
  obtain ⟨h₃, hzero, hq₃⟩ := zeroHead_spec zeroed hq₂
    (show newNelem * size - oldNelem * size ≤ _ by omega)
  refine ⟨h₃, _, ?_, hq₃, placed_grown zeroed hbytes req.old_fits⟩
  cases ptr with
  | none =>
    have hnone : oldNelem * size = 0 := by rw [req.null rfl, Nat.zero_mul]
    rw [hnone, runIf_neg (Nat.lt_irrefl 0)] at hmove
    obtain rfl := Except.ok.inj hmove
    rw [hnone, Nat.sub_zero] at hzero
    rw [leftBlock, hgranted, ok_bind]
    dsimp only
    rw [hzero, ok_bind]
  | some p =>
    rw [leftBlock, if_neg (not_lt.mpr hbytes), hgranted, ok_bind]
    dsimp only
    rw [hmove, ok_bind, hzero, ok_bind]

/-- When shrinking, the move comes first. -/
theorem leftBlock_shrunk (hptr : ptr = some p) (hlt : newNelem < oldNelem) :
    leftBlock zeroed build answer ptr newNelem size (oldNelem * size) (newNelem * size) h e =
      iRealloc build answer ptr newNelem size
        (Function.update h p (some (shifted bytes (oldNelem * size) (newNelem * size)))) e := by
  subst hptr
  have hbytes : newNelem * size < oldNelem * size := Nat.mul_lt_mul_of_pos_right hlt req.size_pos
  have hold := req.old_fits
  rw [leftBlock, if_pos hbytes, memmove_eq req.at_ptr ⟨by omega, by omega⟩, ok_bind]
  rfl

/-- A call that does not shrink the array keeps its promise. -/
theorem reallocLeft_grown (zeroed : Bool) (overflow : String) (build : Build) (answer : Answer)
    (e : ErrorObject) (hle : oldNelem ≤ newNelem) :
    ∃ ret h' e', reallocLeft zeroed overflow build answer ptr oldNelem newNelem size h e =
        .ok (ret, h', e') ∧
      LeftPromise zeroed h ptr bytes (oldNelem * size) (newNelem * size) ret h' := by
  by_cases hsame : oldNelem = newNelem
  · subst hsame
    refine ⟨ptr, h, e, reallocLeft_same req rfl, fun _ _ _ => rfl, fun q hq => ?_⟩
    subst hq
    refine ⟨bytes, req.at_ptr, req.old_fits, rfl, fun _ => ?_⟩
    rw [Nat.sub_self, List.take_zero, List.replicate_zero]
  · rw [reallocLeft_eq req hsame]
    cases answer with
    | none =>
      obtain ⟨e', hrun⟩ := leftBlock_refused req zeroed build e hle
      exact ⟨none, h, e', hrun, fun _ _ _ => rfl, nofun⟩
    | some answer =>
      obtain ⟨q, junk⟩ := answer
      obtain ⟨h', out, hrun, hq, placed⟩ := leftBlock_grown req zeroed build e q junk hle
      refine ⟨some q, h', e, hrun, nofun, fun q' hq' => ?_⟩
      obtain rfl := Option.some.inj hq'
      exact ⟨out, hq, placed⟩

/-- A call that shrinks the array has moved its bytes when `realloc` refuses. -/
theorem reallocLeft_shrunk_iff (zeroed : Bool) (overflow : String) (build : Build)
    (answer : Answer) (e : ErrorObject) (hlt : newNelem < oldNelem) :
    (∃ ret h' e', reallocLeft zeroed overflow build answer ptr oldNelem newNelem size h e =
        .ok (ret, h', e') ∧
      LeftPromise zeroed h ptr bytes (oldNelem * size) (newNelem * size) ret h') ↔
    answer ≠ none ∨ shifted bytes (oldNelem * size) (newNelem * size) = bytes := by
  obtain ⟨p, hptr⟩ : ∃ p, ptr = some p := by
    refine Option.ne_none_iff_exists'.mp fun hnone => ?_
    have hzero := req.null hnone
    omega
  have hle : newNelem * size ≤ oldNelem * size := Nat.mul_le_mul_right size hlt.le
  have hmoved : At (Function.update h p
      (some (shifted bytes (oldNelem * size) (newNelem * size)))) ptr
      (shifted bytes (oldNelem * size) (newNelem * size)) := by
    rw [hptr]
    exact Function.update_self _ _ _
  rw [reallocLeft_eq req hlt.ne', leftBlock_shrunk req hptr hlt]
  cases answer with
  | none =>
    obtain ⟨e', hrun⟩ := iRealloc_refused req.new_pos req.size_pos req.new_lt build e hmoved
    have hp : h p = some bytes := by
      have hat := req.at_ptr
      rw [hptr] at hat
      exact hat
    rw [hrun, or_iff_right (not_not.mpr rfl)]
    constructor
    · rintro ⟨ret, h', e'', heq, promise⟩
      obtain ⟨rfl, rfl, -⟩ := ok_triple_inj heq
      have hkept := promise.kept rfl p hptr
      rw [Function.update_self, hp] at hkept
      exact Option.some.inj hkept
    · intro hsame
      refine ⟨none, _, e', rfl, fun _ p' hp' => ?_, nofun⟩
      obtain rfl : p = p' := Option.some.inj (hptr.symm.trans hp')
      rw [Function.update_self, hsame, hp]
  | some answer =>
    obtain ⟨q, junk⟩ := answer
    obtain ⟨h', hrun, hq⟩ := iRealloc_granted req.new_pos req.size_pos req.new_lt build e hmoved
      q junk
    refine iff_of_true ⟨some q, h', e, hrun, nofun, fun q' hq' => ?_⟩
      (.inl (Option.some_ne_none _))
    obtain rfl := Option.some.inj hq'
    exact ⟨_, hq, placed_shrunk zeroed hle req.old_fits⟩

theorem reallocLeft_iff (zeroed : Bool) (overflow : String) (build : Build) (answer : Answer)
    (e : ErrorObject) :
    (∃ ret h' e', reallocLeft zeroed overflow build answer ptr oldNelem newNelem size h e =
        .ok (ret, h', e') ∧
      LeftPromise zeroed h ptr bytes (oldNelem * size) (newNelem * size) ret h') ↔
    oldNelem ≤ newNelem ∨ answer ≠ none ∨ bytes.take (newNelem * size) =
      (bytes.take (oldNelem * size)).drop (oldNelem * size - newNelem * size) := by
  by_cases hle : oldNelem ≤ newNelem
  · exact iff_of_true (reallocLeft_grown req zeroed overflow build answer e hle) (.inl hle)
  · have hbytes : newNelem * size ≤ oldNelem * size :=
      Nat.mul_le_mul_right size (not_le.mp hle).le
    rw [reallocLeft_shrunk_iff req zeroed overflow build answer e (not_le.mp hle),
      or_iff_right hle, shifted_eq_iff hbytes req.old_fits]

/-- `realloc` returns `NULL` and leaves the heap, or gives a block of the new size. -/
theorem Request.realloc_cases (build : Build) (answer : Answer) (e : ErrorObject) :
    (∃ e', iRealloc build answer ptr newNelem size h e = .ok (none, h, e')) ∨
      ∃ q h' out, iRealloc build answer ptr newNelem size h e = .ok (some q, h', e) ∧
        h' q = some out ∧ out.length = newNelem * size := by
  cases answer with
  | none => exact .inl (iRealloc_refused req.new_pos req.size_pos req.new_lt build e req.at_ptr)
  | some answer =>
    obtain ⟨q, junk⟩ := answer
    obtain ⟨h', hrun, hq⟩ := iRealloc_granted req.new_pos req.size_pos req.new_lt build e req.at_ptr
      q junk
    exact .inr ⟨q, h', _, hrun, hq, length_resized _ _ _⟩

/-- The calls to the right do not touch the block before `realloc`. -/
theorem iReallocRight_kept (build : Build) (answer : Answer) (e : ErrorObject) :
    ∃ ret h' e', iReallocRight build answer ptr oldNelem newNelem size h e = .ok (ret, h', e') ∧
      Kept h ptr ret h' := by
  rw [iReallocRight, check_pos req.size_pos, ok_bind, check_pos req.null, ok_bind,
    check_pos req.new_pos, ok_bind]
  obtain ⟨e', hrun⟩ | ⟨q, h', out, hrun, -, -⟩ := req.realloc_cases build answer e
  · exact ⟨none, h, e', hrun, fun _ _ _ => rfl⟩
  · exact ⟨some q, h', e, hrun, nofun⟩

theorem iCreallocRight_kept (build : Build) (answer : Answer) (e : ErrorObject) :
    ∃ ret h' e', iCreallocRight build answer ptr oldNelem newNelem size h e = .ok (ret, h', e') ∧
      Kept h ptr ret h' := by
  rw [iCreallocRight, check_pos req.size_pos, ok_bind, check_pos req.null, ok_bind,
    check_pos req.new_pos, ok_bind, req.byteCounts_eq, ok_bind]
  dsimp only
  obtain ⟨e', hrun⟩ | ⟨q, h', out, hrun, hq, hlength⟩ := req.realloc_cases build answer e
  · rw [hrun, ok_bind]
    exact ⟨none, h, e', rfl, fun _ _ _ => rfl⟩
  · rw [hrun, ok_bind]
    dsimp only
    by_cases hgrow : oldNelem * size < newNelem * size
    · rw [runIf_pos hgrow, memset_eq hq (by omega), ok_bind]
      exact ⟨some q, _, e, rfl, nofun⟩
    · rw [runIf_neg hgrow, ok_bind]
      exact ⟨some q, h', e, rfl, nofun⟩

end Requests

/-- The buffers of bytes, whose pointers carry their block, are reallocated alike. -/
theorem iReallocRight_buffers (build : Build) (g : HeapBuffers.Grant) {H : HeapBuffers.Heap}
    {h : Heap} {id m n : Nat} {bytes : List UInt8} (hlive : id ∈ H.live) (hid : h id = some bytes)
    (hn : 0 < n) (hlt : n < 2 ^ 32) (e : ErrorObject) :
    ∃ ptr H' ret h' e', HeapBuffers.iReallocRight g (.block id bytes) m n H e =
        .ok (ptr, H', e') ∧
      iReallocRight build (if g.granted then some (H.next, g.junk) else none) (some id) m n 1 h e =
        .ok (ret, h', e') ∧ At h' ret ptr.bytes := by
  have hat : At h (some id) bytes := hid
  have hbytes : n * 1 < 2 ^ 32 := by omega
  have hptr : HeapBuffers.Ptr.block id bytes = .null → m = 0 := HeapBuffers.Ptr.noConfusion
  have hnull : some id = none → m = 0 := nofun
  rw [HeapBuffers.iReallocRight, assert_pos hptr, ok_bind,
    assert_pos hn, ok_bind, HeapBuffers.iRealloc, assert_pos hn, ok_bind, iReallocRight,
    check_pos Nat.one_pos, ok_bind, check_pos hnull, ok_bind, check_pos hn, ok_bind,
    iRealloc_eq hn Nat.one_pos hbytes, Nat.mul_one]
  dsimp only
  rw [access_pos hlive, ok_bind]
  cases g.granted with
  | false =>
    rw [if_neg Bool.false_ne_true, if_neg Bool.false_ne_true, realloc_refused hn hat, ok_bind]
    exact ⟨_, _, _, _, _, rfl, rfl, rfl⟩
  | true =>
    obtain ⟨h', hrun, hq⟩ := realloc_granted hn hat H.next g.junk
    rw [if_pos rfl, if_pos rfl, hrun, ok_bind]
    exact ⟨_, _, _, _, _, rfl, rfl, hq⟩

/-- The calls to the left keep their promises, as those to the right do, when they grow the
block or are granted, or when the last bytes of the old array are its first ones already. -/
theorem left_reallocs_iff {h : Heap} {ptr : Option Nat} {bytes : List UInt8}
    {oldNelem newNelem size : Nat} (req : Request h ptr bytes oldNelem newNelem size)
    (build : Build) (answer : Answer) (e : ErrorObject) :
    ((∃ ret h' e', iReallocLeft build answer ptr oldNelem newNelem size h e =
        .ok (ret, h', e') ∧
        LeftPromise false h ptr bytes (oldNelem * size) (newNelem * size) ret h') ∧
      (∃ ret h' e', iCreallocLeft build answer ptr oldNelem newNelem size h e =
        .ok (ret, h', e') ∧
        LeftPromise true h ptr bytes (oldNelem * size) (newNelem * size) ret h') ∧
      (∃ ret h' e', iReallocRight build answer ptr oldNelem newNelem size h e =
        .ok (ret, h', e') ∧ Kept h ptr ret h') ∧
      ∃ ret h' e', iCreallocRight build answer ptr oldNelem newNelem size h e =
        .ok (ret, h', e') ∧ Kept h ptr ret h') ↔
    oldNelem ≤ newNelem ∨ answer ≠ none ∨ bytes.take (newNelem * size) =
      (bytes.take (oldNelem * size)).drop (oldNelem * size - newNelem * size) := by
  have hleft := reallocLeft_iff req false "realloc_left: overflow" build answer e
  have hcleft := reallocLeft_iff req true "crealloc_left: overflow" build answer e
  constructor
  · exact fun promises => hleft.mp promises.1
  · exact fun hsafe => ⟨hleft.mpr hsafe, hcleft.mpr hsafe, iReallocRight_kept req build answer e,
      iCreallocRight_kept req build answer e⟩

/-- A block of the two bytes 1 and 2. -/
def twoBytes : Heap := fun p => if p = 0 then some [1, 2] else none

def plain : Build := ⟨.debug, .builtin⟩

theorem left_reallocs_grow :
    (∃ ret h' e', iReallocLeft plain none (some 0) 2 3 1 twoBytes errorCreate =
        .ok (ret, h', e') ∧ LeftPromise false twoBytes (some 0) [1, 2] (2 * 1) (3 * 1) ret h') ∧
      (∃ ret h' e', iCreallocLeft plain none (some 0) 2 3 1 twoBytes errorCreate =
        .ok (ret, h', e') ∧ LeftPromise true twoBytes (some 0) [1, 2] (2 * 1) (3 * 1) ret h') ∧
      (∃ ret h' e', iReallocRight plain none (some 0) 2 3 1 twoBytes errorCreate =
        .ok (ret, h', e') ∧ Kept twoBytes (some 0) ret h') ∧
      ∃ ret h' e', iCreallocRight plain none (some 0) 2 3 1 twoBytes errorCreate =
        .ok (ret, h', e') ∧ Kept twoBytes (some 0) ret h' := by
  have req : Request twoBytes (some 0) [1, 2] 2 3 1 :=
    ⟨rfl, by decide, by decide, by decide, by decide, by decide⟩
  exact (left_reallocs_iff req plain none errorCreate).mpr (.inl (by decide))

/-- A refused call for one byte returns `NULL` and leaves the bytes 2 and 2. -/
theorem left_realloc_disturbs :
    (iReallocLeft plain none (some 0) 2 1 1 twoBytes errorCreate).map
      (fun r => (r.1, r.2.1 0)) = .ok (none, some [2, 2]) ∧
    ¬ ∃ ret h' e', iReallocLeft plain none (some 0) 2 1 1 twoBytes errorCreate =
      .ok (ret, h', e') ∧ LeftPromise false twoBytes (some 0) [1, 2] (2 * 1) (1 * 1) ret h' := by
  have hrun : (iReallocLeft plain none (some 0) 2 1 1 twoBytes errorCreate).map
      (fun r => (r.1, r.2.1 0)) = .ok (none, some [2, 2]) := by decide
  refine ⟨hrun, ?_⟩
  rintro ⟨ret, h', e', hcall, promise⟩
  rw [hcall] at hrun
  obtain ⟨rfl, hbytes⟩ := ok_pair_inj hrun
  have hkept : some [2, 2] = twoBytes 0 := hbytes.symm.trans (promise.kept rfl 0 rfl)
  exact absurd hkept (by decide)

end Reallocs
