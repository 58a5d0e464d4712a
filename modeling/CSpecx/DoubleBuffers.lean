import CSpecx.CellMemory
import CSpecx.Component
import CSpecx.Errors

/-!
# Double buffers

`dbl_buffer.c` doubles an array of elements when an append would fill it. The
new length and twice of it are unsigned 32-bit numbers. Memory is the answer of
`malloc` or `realloc`: what a block holds behind the old contents, or `none`.
-/

namespace DoubleBuffers

open CExec CellMemory Component Errors

/-- `data` holds `nelemCap * size` bytes. -/
structure DblBuffer where
  data : Nat → UInt8
  size : Nat
  nelemCap : Nat
  nelem : Nat

/-- `DBG_ASSERT (dbl_buffer, d)`. -/
def DblBuffer.check (d : DblBuffer) : Outcome Unit := assert (d.nelem ≤ d.nelemCap)

def dblbCreate (memory : Option (Nat → UInt8)) (size initialCap : Nat) (e : ErrorObject) :
    Outcome (Int × Option DblBuffer × ErrorObject) := do
  assert (0 < initialCap)
  assert (0 < size)
  let (ok, e) ← iMalloc memory.isSome initialCap size e
  if ok then do
    let d : DblBuffer := ⟨memory.getD fun _ => 0, size, initialCap, 0⟩
    d.check
    .ok (success, some d, e)
  else .ok (errorTrace e, none, e)

/-- `i_realloc_right` of a block of `oldNelem * size` bytes. -/
def iReallocRight (memory : Option (Nat → UInt8)) (data : Nat → UInt8)
    (oldNelem newNelem size : Nat) (e : ErrorObject) :
    Outcome (Option (Nat → UInt8) × ErrorObject) := do
  assert (0 < size)
  assert (0 < newNelem)
  assert (newNelem * size < 2 ^ 32)
  match memory with
  | none =>
    .ok (none, (errorCausef e errNomem ⟨"realloc %u bytes: %s", [(newNelem * size : Nat)]⟩).2)
  | some m => .ok (some fun i => if i < oldNelem * size then data i else m i, e)

/-- Behind a reallocation that succeeds the result is the code of the error object, too. -/
def dblbEnsureSpace (memory : Option (Nat → UInt8)) (d : DblBuffer) (nelem : Nat)
    (e : ErrorObject) : Outcome (Int × DblBuffer × ErrorObject) :=
  if d.nelemCap ≤ nelem then do
    let (newdata, e) ← iReallocRight memory d.data d.nelemCap (u32 (2 * nelem)) d.size e
    match newdata with
    | none => .ok (errorTrace e, d, e)
    | some newdata =>
      .ok (errorTrace e, { d with data := newdata, nelemCap := u32 (2 * nelem) }, e)
  else .ok (errorTrace e, d, e)

/-- The pointer is the offset in the data, and `none` for `NULL`. -/
def dblbAppendAlloc (memory : Option (Nat → UInt8)) (d : DblBuffer) (nelem : Nat)
    (e : ErrorObject) : Outcome (Option Nat × DblBuffer × ErrorObject) := do
  d.check
  let (failed, d, e) ← dblbEnsureSpace memory d (u32 (d.nelem + nelem)) e
  if failed ≠ 0 then .ok (none, d, e)
  else .ok (some (u32 (d.nelem * d.size)), { d with nelem := u32 (d.nelem + nelem) }, e)

/-- `data` are the elements at the source. -/
def dblbAppend (memory : Option (Nat → UInt8)) (d : DblBuffer) (data : List UInt8) (nelem : Nat)
    (e : ErrorObject) : Outcome (Int × DblBuffer × ErrorObject) := do
  d.check
  let (head, d, e) ← dblbAppendAlloc memory d nelem e
  match head with
  | none => .ok (errorTrace e, d, e)
  | some head => do
    let bytes := data.take (u32 (d.size * nelem))
    access (head + bytes.length ≤ d.nelemCap * d.size)
    .ok (success, { d with data := store d.data head bytes }, e)

/-- The bytes of the elements in use. -/
def contents (d : DblBuffer) : List UInt8 := load d.data 0 (d.nelem * d.size)

/-! ## What an append keeps -/

/-- Nothing but the capacity has changed. -/
structure Unchanged (d d' : DblBuffer) : Prop where
  nelem_eq : d'.nelem = d.nelem
  nelem_le : d'.nelem ≤ d'.nelemCap
  contents_eq : contents d' = contents d

/-- There is room for the new elements, behind the old ones. -/
structure Grown (d : DblBuffer) (nelem : Nat) (d' : DblBuffer) : Prop where
  nelem_eq : d'.nelem = d.nelem + nelem
  nelem_le : d'.nelem ≤ d'.nelemCap
  kept : load d'.data 0 (d.nelem * d.size) = contents d

/-- What `dblb_append_alloc` may do. A failed assertion ends the program. -/
def AllocSafe (d : DblBuffer) (nelem : Nat) :
    Outcome (Option Nat × DblBuffer × ErrorObject) → Prop
  | .ok (some head, d', _) => head = d.nelem * d.size ∧ Grown d nelem d'
  | .ok (none, d', _) => Unchanged d d'
  | .error fault => fault = .assertion

/-- What `dblb_append` may do. -/
def AppendSafe (d : DblBuffer) (data : List UInt8) (nelem : Nat) :
    Outcome (Int × DblBuffer × ErrorObject) → Prop
  | .ok (code, d', _) =>
    if code = success then Grown d nelem d' ∧ contents d' = contents d ++ data
    else Unchanged d d'
  | .error fault => fault = .assertion

/-- The doubled length has 32 bits, or it is not allocated: the elements fit without it,
or an assertion refuses it. -/
def Room (d : DblBuffer) (nelem : Nat) : Prop :=
  nelem < d.nelemCap ∨ nelem ≤ 2 ^ 31 ∨ (nelem < 2 ^ 32 ∧ 2 ^ 32 ≤ (2 * nelem - 2 ^ 32) * d.size)

instance (d : DblBuffer) (nelem : Nat) : Decidable (Room d nelem) :=
  inferInstanceAs (Decidable (_ ∨ _ ∨ _ ∧ _))

/-- The block has 32 bits, and the elements are in it. -/
structure Sound (d : DblBuffer) : Prop where
  size_pos : 0 < d.size
  nelem_le : d.nelem ≤ d.nelemCap
  bytes_lt : d.nelemCap * d.size < 2 ^ 32

section Appending

variable {d : DblBuffer} {memory : Option (Nat → UInt8)} {nelem : Nat} {e : ErrorObject}
  {data : List UInt8}

theorem Sound.check_ok (sound : Sound d) : d.check = .ok () := assert_pos sound.nelem_le

theorem Sound.cap_lt (sound : Sound d) : d.nelemCap < 2 ^ 32 :=
  lt_of_le_of_lt (Nat.le_mul_of_pos_right _ sound.size_pos) sound.bytes_lt

theorem Sound.head_eq (sound : Sound d) : u32 (d.nelem * d.size) = d.nelem * d.size := by
  have hmul : d.nelem * d.size ≤ d.nelemCap * d.size :=
    Nat.mul_le_mul_right d.size sound.nelem_le
  have hlt := sound.bytes_lt
  exact u32_of_lt (by omega)

theorem Unchanged.refl (sound : Sound d) : Unchanged d d := ⟨rfl, sound.nelem_le, rfl⟩

/-- The buffer with a larger block. -/
def enlarged (d : DblBuffer) (m : Nat → UInt8) (nelem : Nat) : DblBuffer :=
  { d with data := fun i => if i < d.nelemCap * d.size then d.data i else m i, nelemCap := nelem }

theorem load_enlarged (sound : Sound d) (m : Nat → UInt8) (cap : Nat) :
    load (enlarged d m cap).data 0 (d.nelem * d.size) = contents d := by
  have hmul : d.nelem * d.size ≤ d.nelemCap * d.size :=
    Nat.mul_le_mul_right d.size sound.nelem_le
  exact load_congr fun i _ hi => if_pos (by omega)

theorem iReallocRight_granted (m : Nat → UInt8) {n : Nat} (hsize : 0 < d.size) (hpos : 0 < n)
    (hbytes : n * d.size < 2 ^ 32) :
    iReallocRight (some m) d.data d.nelemCap n d.size e = .ok (some (enlarged d m n).data, e) := by
  simp only [iReallocRight, assert_pos hsize, assert_pos hpos, assert_pos hbytes, ok_bind, enlarged]

theorem iReallocRight_denied {n : Nat} (hsize : 0 < d.size) (hpos : 0 < n)
    (hbytes : n * d.size < 2 ^ 32) :
    ∃ e', iReallocRight none d.data d.nelemCap n d.size e = .ok (none, e') ∧
      errorTrace e' ≠ success := by
  have hcode : errNomem ≠ success := by decide
  refine ⟨(errorCausef e errNomem ⟨"realloc %u bytes: %s", [(n * d.size : Nat)]⟩).2, ?_,
    errorCausef_failed hcode⟩
  simp only [iReallocRight, assert_pos hsize, assert_pos hpos, assert_pos hbytes, ok_bind]

theorem iReallocRight_refused {n : Nat} (hsize : 0 < d.size)
    (h : ¬ (0 < n ∧ n * d.size < 2 ^ 32)) :
    iReallocRight memory d.data d.nelemCap n d.size e = .error .assertion := by
  by_cases hpos : 0 < n
  · have hbytes : ¬ n * d.size < 2 ^ 32 := fun hlt => h ⟨hpos, hlt⟩
    simp only [iReallocRight, assert_pos hsize, assert_pos hpos, ok_bind, assert_neg hbytes,
      error_bind]
  · simp only [iReallocRight, assert_pos hsize, ok_bind, assert_neg hpos, error_bind]

/-- A request within 32 bits leaves the buffer, or doubles the length asked for, or
fails an assertion. -/
theorem dblbEnsureSpace_cases (memory : Option (Nat → UInt8)) (e : ErrorObject) (sound : Sound d)
    (room : Room d nelem) :
    (∃ e', dblbEnsureSpace memory d nelem e = .ok (errorTrace e', d, e') ∧
        (errorTrace e' = success → nelem < d.nelemCap)) ∨
      (∃ m, dblbEnsureSpace memory d nelem e = .ok (errorTrace e, enlarged d m (2 * nelem), e) ∧
        d.nelemCap ≤ nelem ∧ 2 * nelem * d.size < 2 ^ 32) ∨
      dblbEnsureSpace memory d nelem e = .error .assertion := by
  have hsize := sound.size_pos
  by_cases hfull : d.nelemCap ≤ nelem
  · by_cases hgrant : 0 < u32 (2 * nelem) ∧ u32 (2 * nelem) * d.size < 2 ^ 32
    · obtain ⟨hpos, hbytes⟩ := hgrant
      have hdouble : u32 (2 * nelem) = 2 * nelem := by
        refine u32_of_lt ?_
        by_contra hlarge
        unfold Room at room
        have hwrapped : u32 (2 * nelem) = 2 * nelem - 2 ^ 32 := by
          unfold u32 at hpos ⊢
          omega
        rw [hwrapped] at hpos hbytes
        omega
      rw [hdouble] at hpos hbytes
      cases memory with
      | none =>
        obtain ⟨e', hdenied, hcode⟩ := iReallocRight_denied (e := e) hsize hpos hbytes
        refine .inl ⟨e', ?_, fun h => absurd h hcode⟩
        rw [dblbEnsureSpace, if_pos hfull, hdouble, hdenied, ok_bind]
      | some m =>
        refine .inr (.inl ⟨m, ?_, hfull, hbytes⟩)
        rw [dblbEnsureSpace, if_pos hfull, hdouble, iReallocRight_granted m hsize hpos hbytes,
          ok_bind]
        rfl
    · refine .inr (.inr ?_)
      rw [dblbEnsureSpace, if_pos hfull, iReallocRight_refused hsize hgrant, error_bind]
  · refine .inl ⟨e, ?_, fun _ => Nat.lt_of_not_le hfull⟩
    rw [dblbEnsureSpace, if_neg hfull]

theorem Room.lt (room : Room d nelem) (sound : Sound d) : nelem < 2 ^ 32 := by
  have hcap := sound.cap_lt
  unfold Room at room
  omega

/-- With room for the new length the elements are kept, and the pointer is behind them. -/
theorem dblbAppendAlloc_cases (memory : Option (Nat → UInt8)) (e : ErrorObject) (sound : Sound d)
    (room : Room d (d.nelem + nelem)) :
    (∃ d' e', dblbAppendAlloc memory d nelem e = .ok (none, d', e') ∧ errorTrace e' ≠ success ∧
        Unchanged d d' ∧ Sound d' ∧ d'.size = d.size) ∨
      (∃ d' e', dblbAppendAlloc memory d nelem e = .ok (some (d.nelem * d.size), d', e') ∧
        Grown d nelem d' ∧ Sound d' ∧ d'.size = d.size) ∨
      dblbAppendAlloc memory d nelem e = .error .assertion := by
  have hsize := sound.size_pos
  have hle := sound.nelem_le
  have hsum : u32 (d.nelem + nelem) = d.nelem + nelem := u32_of_lt (room.lt sound)
  unfold dblbAppendAlloc
  rw [sound.check_ok, ok_bind, hsum]
  obtain ⟨e', hrun, hfits⟩ | ⟨m, hrun, hfull, hbytes⟩ | hrun :=
    dblbEnsureSpace_cases memory e sound room
  · rw [hrun, ok_bind]
    dsimp only
    by_cases hcode : errorTrace e' = success
    · have hlt := hfits hcode
      have hzero : ¬ errorTrace e' ≠ 0 := not_not.mpr hcode
      rw [if_neg hzero, sound.head_eq, hsum]
      exact .inr (.inl ⟨_, e', rfl, ⟨rfl, Nat.le_of_lt hlt, rfl⟩,
        ⟨hsize, Nat.le_of_lt hlt, sound.bytes_lt⟩, rfl⟩)
    · have hfailed : errorTrace e' ≠ 0 := hcode
      rw [if_pos hfailed]
      exact .inl ⟨d, e', rfl, hcode, .refl sound, sound, rfl⟩
  · have hkept := load_enlarged sound m (2 * (d.nelem + nelem))
    have hhead : u32 ((enlarged d m (2 * (d.nelem + nelem))).nelem *
        (enlarged d m (2 * (d.nelem + nelem))).size) = d.nelem * d.size := sound.head_eq
    have hnew : u32 ((enlarged d m (2 * (d.nelem + nelem))).nelem + nelem) = d.nelem + nelem := hsum
    rw [hrun, ok_bind]
    dsimp only
    by_cases hcode : errorTrace e = success
    · have hzero : ¬ errorTrace e ≠ 0 := not_not.mpr hcode
      rw [if_neg hzero, hhead, hnew]
      exact .inr (.inl ⟨_, e, rfl,
        ⟨rfl, show d.nelem + nelem ≤ 2 * (d.nelem + nelem) by omega, hkept⟩,
        ⟨hsize, show d.nelem + nelem ≤ 2 * (d.nelem + nelem) by omega, hbytes⟩, rfl⟩)
    · have hfailed : errorTrace e ≠ 0 := hcode
      rw [if_pos hfailed]
      exact .inl ⟨_, e, rfl, hcode, ⟨rfl, show d.nelem ≤ 2 * (d.nelem + nelem) by omega, hkept⟩,
        ⟨hsize, show d.nelem ≤ 2 * (d.nelem + nelem) by omega, hbytes⟩, rfl⟩
  · rw [hrun, error_bind]
    exact .inr (.inr rfl)

/-- Where the new length wraps around, or the doubled one, the call returns a buffer that
is too short. -/
theorem dblbAppendAlloc_escapes (sound : Sound d) (hnelem : nelem < 2 ^ 32)
    (full : ¬ Room d (d.nelem + nelem)) :
    ∃ head d', dblbAppendAlloc (some fun _ => 0) d nelem errorCreate =
        .ok (some head, d', errorCreate) ∧
      (d'.nelem ≠ d.nelem + nelem ∨ d'.nelemCap < d'.nelem) := by
  have hsize := sound.size_pos
  have hle := sound.nelem_le
  have hcap := sound.cap_lt
  have hcode : ¬ errorTrace errorCreate ≠ 0 := by decide
  obtain ⟨hmore, hlarge⟩ := not_or.mp full
  obtain ⟨hlarge, hgranted⟩ := not_or.mp hlarge
  unfold dblbAppendAlloc
  rw [sound.check_ok, ok_bind]
  by_cases hwraps : 2 ^ 32 ≤ d.nelem + nelem
  · have hsum : u32 (d.nelem + nelem) = d.nelem + nelem - 2 ^ 32 := by
      unfold u32
      omega
    rw [hsum, dblbEnsureSpace, if_neg (by omega), ok_bind]
    dsimp only
    rw [if_neg hcode, hsum]
    exact ⟨_, _, rfl, .inl (show d.nelem + nelem - 2 ^ 32 ≠ d.nelem + nelem by omega)⟩
  · have hsum : u32 (d.nelem + nelem) = d.nelem + nelem := u32_of_lt (by omega)
    have hdouble : u32 (2 * (d.nelem + nelem)) = 2 * (d.nelem + nelem) - 2 ^ 32 := by
      unfold u32
      omega
    have hbytes : (2 * (d.nelem + nelem) - 2 ^ 32) * d.size < 2 ^ 32 := by
      by_contra hmany
      exact hgranted ⟨by omega, by omega⟩
    rw [hsum, dblbEnsureSpace, if_pos (by omega), hdouble,
      iReallocRight_granted _ hsize (by omega) hbytes, ok_bind]
    dsimp only
    rw [ok_bind]
    dsimp only
    rw [if_neg hcode, hsum]
    refine ⟨_, _, rfl, .inr ?_⟩
    show 2 * (d.nelem + nelem) - 2 ^ 32 < d.nelem + nelem
    omega

/-- The appended bytes follow the contents. -/
theorem dblbAppend_cases (memory : Option (Nat → UInt8)) (e : ErrorObject) (sound : Sound d)
    (room : Room d (d.nelem + nelem)) (hdata : data.length = d.size * nelem) :
    (∃ d' e', dblbAppend memory d data nelem e = .ok (errorTrace e', d', e') ∧
        errorTrace e' ≠ success ∧ Unchanged d d' ∧ Sound d' ∧ d'.size = d.size) ∨
      (∃ d' e', dblbAppend memory d data nelem e = .ok (success, d', e') ∧ Grown d nelem d' ∧
        contents d' = contents d ++ data ∧ Sound d' ∧ d'.size = d.size) ∨
      dblbAppend memory d data nelem e = .error .assertion := by
  unfold dblbAppend
  rw [sound.check_ok, ok_bind]
  obtain ⟨d', e', hrun, hcode, same, sound', hsize'⟩ |
      ⟨d', e', hrun, grown, sound', hsize'⟩ | hrun :=
    dblbAppendAlloc_cases memory e sound room
  · rw [hrun, ok_bind]
    exact .inl ⟨d', e', rfl, hcode, same, sound', hsize'⟩
  · obtain ⟨hnelem, hle, hkept⟩ := grown
    have hmul : d'.nelem * d.size = d.nelem * d.size + data.length := by
      rw [hnelem, Nat.add_mul, hdata, Nat.mul_comm d.size]
    have hcap : d'.nelem * d.size ≤ d'.nelemCap * d.size := Nat.mul_le_mul_right _ hle
    have hbytes := sound'.bytes_lt
    rw [hsize'] at hbytes
    have htake : data.take (u32 (d'.size * nelem)) = data := by
      rw [hsize', u32_of_lt (by omega), ← hdata, List.take_length]
    have hinside : d.nelem * d.size + data.length ≤ d'.nelemCap * d'.size := by
      rw [hsize']
      omega
    rw [hrun, ok_bind]
    dsimp only
    rw [htake, access_pos hinside, ok_bind]
    refine .inr (.inl ⟨_, e', rfl, ⟨hnelem, hle, ?_⟩, ?_,
      ⟨sound'.size_pos, hle, sound'.bytes_lt⟩, hsize'⟩)
    · dsimp only
      rw [load_store_of_disjoint (.inl (by omega))]
      exact hkept
    · show load (store d'.data (d.nelem * d.size) data) 0 (d'.nelem * d'.size) = contents d ++ data
      rw [hsize', hmul, load_add, Nat.zero_add, load_store,
        load_store_of_disjoint (.inl (by omega)), hkept]
  · rw [hrun, error_bind]
    exact .inr (.inr rfl)

/-- Whatever the allocator answers, an allocation at the end is safe exactly when there
is room for it. -/
theorem allocSafe_iff (sound : Sound d) (hnelem : nelem < 2 ^ 32) :
    (∀ memory e, AllocSafe d nelem (dblbAppendAlloc memory d nelem e)) ↔
      Room d (d.nelem + nelem) := by
  constructor
  · intro safe
    by_contra full
    obtain ⟨head, d', hrun, hshort⟩ := dblbAppendAlloc_escapes sound hnelem full
    have hsafe := safe (some fun _ => 0) errorCreate
    rw [hrun] at hsafe
    obtain ⟨-, hnew, hle, -⟩ := hsafe
    omega
  · intro room memory e
    obtain ⟨d', e', hrun, -, same, -, -⟩ | ⟨d', e', hrun, grown, -, -⟩ | hrun :=
      dblbAppendAlloc_cases memory e sound room
    · rw [hrun]
      exact same
    · rw [hrun]
      exact ⟨rfl, grown⟩
    · rw [hrun]
      rfl

theorem appendSafe_iff (sound : Sound d) (hnelem : nelem < 2 ^ 32)
    (hdata : data.length = d.size * nelem) :
    (∀ memory e, AppendSafe d data nelem (dblbAppend memory d data nelem e)) ↔
      Room d (d.nelem + nelem) := by
  constructor
  · intro safe
    by_contra full
    obtain ⟨head, d', hrun, hshort⟩ := dblbAppendAlloc_escapes sound hnelem full
    have hsafe := safe (some fun _ => 0) errorCreate
    unfold dblbAppend at hsafe
    rw [sound.check_ok, ok_bind, hrun, ok_bind] at hsafe
    dsimp only at hsafe
    by_cases hinside : head + (data.take (u32 (d'.size * nelem))).length ≤ d'.nelemCap * d'.size
    · rw [access_pos hinside, ok_bind, AppendSafe, if_pos rfl] at hsafe
      obtain ⟨⟨hnew, hle, -⟩, -⟩ := hsafe
      dsimp only at hnew hle
      omega
    · rw [access_neg hinside, error_bind] at hsafe
      cases hsafe
  · intro room memory e
    obtain ⟨d', e', hrun, hcode, same, -, -⟩ | ⟨d', e', hrun, grown, hcontents, -, -⟩ | hrun :=
      dblbAppend_cases memory e sound room hdata
    · rw [hrun, AppendSafe, if_neg hcode]
      exact same
    · rw [hrun, AppendSafe, if_pos rfl]
      exact ⟨grown, hcontents⟩
    · rw [hrun]
      rfl

end Appending

/-! ## Runs of a double buffer -/

/-- A call and what the allocator answers to it. `fill` is what the client writes
through a pointer it was given. -/
inductive Call where
  | append (data : List UInt8) (nelem : Nat) (memory : Option (Nat → UInt8)) (e : ErrorObject)
  | appendAlloc (nelem : Nat) (memory : Option (Nat → UInt8)) (e : ErrorObject)
  | ensureSpace (nelem : Nat) (memory : Option (Nat → UInt8)) (e : ErrorObject)
  | fill (o : Nat) (bytes : List UInt8)

/-- Calls that have room. The client stays in the elements in use. -/
def Roomy (d : DblBuffer) : Call → Prop
  | .append data nelem _ _ => data.length = d.size * nelem ∧ Room d (d.nelem + nelem)
  | .appendAlloc nelem _ _ => Room d (d.nelem + nelem)
  | .ensureSpace nelem _ _ => Room d nelem
  | .fill o bytes => o + bytes.length ≤ d.nelem * d.size

/-- The reply says whether the call succeeded. -/
def callStep (d : DblBuffer) : Call → Outcome (Bool × DblBuffer)
  | .append data nelem memory e => do
    let (code, d, _) ← dblbAppend memory d data nelem e
    .ok (code = success, d)
  | .appendAlloc nelem memory e => do
    let (head, d, _) ← dblbAppendAlloc memory d nelem e
    .ok (head.isSome, d)
  | .ensureSpace nelem memory e => do
    let (code, d, _) ← dblbEnsureSpace memory d nelem e
    .ok (code = success, d)
  | .fill o bytes => .ok (true, { d with data := store d.data o bytes })

def roomyRuns : Interface DblBuffer Call Bool where
  pre := Roomy
  step := callStep

theorem roomyRuns_keep : Preserves roomyRuns Sound := by
  intro d call reply d' sound roomy hstep
  cases call with
  | append data nelem memory e =>
    obtain ⟨⟨code, d₁, e₁⟩, hrun, hstep⟩ := bind_eq_ok.mp hstep
    obtain ⟨-, rfl⟩ := ok_pair_inj hstep
    obtain ⟨d₂, e₂, hrun', -, -, sound', -⟩ | ⟨d₂, e₂, hrun', -, -, sound', -⟩ | hrun' :=
      dblbAppend_cases memory e sound roomy.2 roomy.1
    · obtain ⟨-, rfl, -⟩ := ok_triple_inj (hrun'.symm.trans hrun)
      exact sound'
    · obtain ⟨-, rfl, -⟩ := ok_triple_inj (hrun'.symm.trans hrun)
      exact sound'
    · cases hrun'.symm.trans hrun
  | appendAlloc nelem memory e =>
    obtain ⟨⟨head, d₁, e₁⟩, hrun, hstep⟩ := bind_eq_ok.mp hstep
    obtain ⟨-, rfl⟩ := ok_pair_inj hstep
    obtain ⟨d₂, e₂, hrun', -, -, sound', -⟩ | ⟨d₂, e₂, hrun', -, sound', -⟩ | hrun' :=
      dblbAppendAlloc_cases memory e sound roomy
    · obtain ⟨-, rfl, -⟩ := ok_triple_inj (hrun'.symm.trans hrun)
      exact sound'
    · obtain ⟨-, rfl, -⟩ := ok_triple_inj (hrun'.symm.trans hrun)
      exact sound'
    · cases hrun'.symm.trans hrun
  | ensureSpace nelem memory e =>
    obtain ⟨⟨code, d₁, e₁⟩, hrun, hstep⟩ := bind_eq_ok.mp hstep
    obtain ⟨-, rfl⟩ := ok_pair_inj hstep
    obtain ⟨e₂, hrun', -⟩ | ⟨m, hrun', hfull, hbytes⟩ | hrun' :=
      dblbEnsureSpace_cases memory e sound roomy
    · obtain ⟨-, rfl, -⟩ := ok_triple_inj (hrun'.symm.trans hrun)
      exact sound
    · obtain ⟨-, rfl, -⟩ := ok_triple_inj (hrun'.symm.trans hrun)
      have hle := sound.nelem_le
      exact ⟨sound.size_pos, show d.nelem ≤ 2 * nelem by omega, hbytes⟩
    · cases hrun'.symm.trans hrun
  | fill o bytes =>
    obtain ⟨-, rfl⟩ := ok_pair_inj hstep
    exact ⟨sound.size_pos, sound.nelem_le, sound.bytes_lt⟩

theorem dblbCreate_sound {memory : Option (Nat → UInt8)} {size initialCap : Nat}
    {e e' : ErrorObject} {code : Int} {d : DblBuffer}
    (hrun : dblbCreate memory size initialCap e = .ok (code, some d, e')) : Sound d := by
  obtain ⟨_, -, hrun⟩ := bind_eq_ok.mp hrun
  obtain ⟨_, hsize, hrun⟩ := bind_eq_ok.mp hrun
  obtain ⟨⟨ok, e₁⟩, hmalloc, hrun⟩ := bind_eq_ok.mp hrun
  have hsize := assert_eq_ok_iff.mp hsize
  cases ok with
  | false => cases hrun
  | true =>
    obtain ⟨_, -, hrun⟩ := bind_eq_ok.mp hrun
    obtain ⟨-, hd, -⟩ := ok_triple_inj hrun
    obtain rfl := Option.some.inj hd
    refine ⟨hsize, Nat.zero_le _, ?_⟩
    obtain ⟨_, -, hmalloc⟩ := bind_eq_ok.mp hmalloc
    obtain ⟨_, -, hmalloc⟩ := bind_eq_ok.mp hmalloc
    by_contra hlarge
    rw [if_neg hlarge] at hmalloc
    cases hmalloc

end DoubleBuffers
