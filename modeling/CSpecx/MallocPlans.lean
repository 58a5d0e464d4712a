import CSpecx.CellMemory
import CSpecx.Errors

/-!
# Planned allocation

A plan runs twice over the same pieces: the first pass adds up their lengths,
and the second copies them into one block of that size. A pointer into the
block is its offset.
-/

namespace MallocPlans

open CExec Errors CellMemory

inductive Mode where
  | planning
  | allocing
  deriving DecidableEq, Repr

/-- `buffer` is the block of `size` bytes, and `none` for `NULL`. -/
structure MallocPlan where
  size : Nat
  blen : Nat
  buffer : Option (Nat → UInt8)
  mode : Mode

def mallocPlanCreate : MallocPlan := ⟨0, 0, none, .planning⟩

def mallocPlanHead (plan : MallocPlan) : Option Nat :=
  match plan.mode with
  | .planning => none
  | .allocing => some plan.blen

/-- `memcpy` to `plan->buffer + o`. -/
def storeBuffer (plan : MallocPlan) (o : Nat) (data : List UInt8) : Outcome MallocPlan :=
  match plan.buffer with
  | none => .error .undefined
  | some m => do
    access (o + data.length ≤ plan.size)
    .ok { plan with buffer := some (store m o data) }

def mallocPlanMemcpy (plan : MallocPlan) (data : List UInt8) :
    Outcome (Option Nat × MallocPlan) :=
  match plan.mode with
  | .planning => .ok (none, { plan with size := u32 (plan.size + data.length) })
  | .allocing => do
    assert (u32 (plan.blen + data.length) ≤ plan.size)
    let ret := mallocPlanHead plan
    let plan ← storeBuffer plan plan.blen data
    .ok (ret, { plan with blen := u32 (plan.blen + data.length) })

/-- `granted` says whether `malloc` returns memory, which then holds `junk`. -/
def mallocPlanAlloc (granted : Bool) (junk : Nat → UInt8) (plan : MallocPlan) (e : ErrorObject) :
    Outcome (Int × MallocPlan × ErrorObject) := do
  assert (plan.mode = .planning)
  let (ok, e) ← iMalloc granted plan.size 1 e
  if ok then .ok (success, { plan with buffer := some junk, mode := .allocing }, e)
  else .ok (e.causeCode, { plan with buffer := none }, e)

/-- `malloc_plan_memcpy` over a list of pieces, with the pointers it returns. -/
def memcpyAll (plan : MallocPlan) : List (List UInt8) → Outcome (List (Option Nat) × MallocPlan)
  | [] => .ok ([], plan)
  | piece :: pieces => do
    let (ret, plan) ← mallocPlanMemcpy plan piece
    let (rets, plan) ← memcpyAll plan pieces
    .ok (ret :: rets, plan)

/-- The sums of the earlier lengths, from `o` on. -/
def addresses : Nat → List (List UInt8) → List (Option Nat)
  | _, [] => []
  | o, piece :: pieces => some o :: addresses (o + piece.length) pieces

/-- What `plan->buffer` holds. -/
def cells (plan : MallocPlan) : Nat → UInt8 := plan.buffer.getD fun _ => 0

/-- The bytes copied so far. -/
def contents (plan : MallocPlan) : List UInt8 := load (cells plan) 0 plan.blen

section Passes

variable {plan : MallocPlan} {pieces before after : List (List UInt8)} {piece done : List UInt8}
  {junk : Nat → UInt8} {e : ErrorObject}

/-- The first pass returns no pointer and adds the lengths. -/
theorem memcpyAll_planning (plan : MallocPlan) (pieces : List (List UInt8))
    (hmode : plan.mode = .planning) (hsum : plan.size + pieces.flatten.length < 2 ^ 32) :
    memcpyAll plan pieces = .ok (pieces.map fun _ => none,
      { plan with size := plan.size + pieces.flatten.length }) := by
  induction pieces generalizing plan with
  | nil => rfl
  | cons piece pieces ih =>
    rw [List.flatten_cons, List.length_append] at hsum ⊢
    have hstep : mallocPlanMemcpy plan piece =
        .ok (none, { plan with size := plan.size + piece.length }) := by
      rw [mallocPlanMemcpy, hmode, u32_of_lt (by omega)]
    have hrest := ih { plan with size := plan.size + piece.length } hmode
      (by dsimp only; omega)
    rw [memcpyAll, hstep, ok_bind]
    dsimp only
    rw [hrest, ok_bind, Nat.add_assoc]
    rfl

/-- The block holds what was copied so far. -/
structure Filled (plan : MallocPlan) (done : List UInt8) : Prop where
  mode_eq : plan.mode = .allocing
  allocated : plan.buffer.isSome
  small : plan.size < 2 ^ 32
  contents_eq : contents plan = done

theorem Filled.blen_eq (filled : Filled plan done) : plan.blen = done.length := by
  rw [← filled.contents_eq, contents, length_load]

/-- One piece is copied behind the others, which stay. -/
theorem mallocPlanMemcpy_filled (piece : List UInt8) (filled : Filled plan done)
    (fits : done.length + piece.length ≤ plan.size) :
    ∃ plan', mallocPlanMemcpy plan piece = .ok (some done.length, plan') ∧
      Filled plan' (done ++ piece) ∧ plan'.size = plan.size ∧
      load (cells plan') 0 done.length = done ∧
      load (cells plan') done.length piece.length = piece := by
  obtain ⟨m, hm⟩ := Option.isSome_iff_exists.mp filled.allocated
  have hsmall := filled.small
  have hblen := filled.blen_eq
  have hsum : u32 (plan.blen + piece.length) = done.length + piece.length := by
    rw [u32_of_lt (by omega), hblen]
  have hcells : cells plan = m := by rw [cells, hm, Option.getD_some]
  have hdone : load m 0 done.length = done := by
    rw [← hcells, ← hblen]
    exact filled.contents_eq
  have hkept : load (store m done.length piece) 0 done.length = done := by
    rw [load_store_of_disjoint (.inl (by omega)), hdone]
  refine ⟨{ plan with
    blen := done.length + piece.length, buffer := some (store m done.length piece) }, ?_, ?_, rfl,
    hkept, load_store⟩
  · have hstore : storeBuffer plan plan.blen piece =
        .ok { plan with buffer := some (store m done.length piece) } := by
      rw [storeBuffer, hm, hblen, access_pos fits]
      rfl
    have hhead : mallocPlanHead plan = some done.length := by
      rw [mallocPlanHead, filled.mode_eq, hblen]
    rw [mallocPlanMemcpy, filled.mode_eq, hsum, assert_pos fits]
    dsimp only
    rw [ok_bind, hstore, ok_bind, hhead]
    dsimp only
    rw [hsum, filled.mode_eq]
  · refine ⟨filled.mode_eq, rfl, hsmall, ?_⟩
    show load (store m done.length piece) 0 (done.length + piece.length) = done ++ piece
    rw [load_add, Nat.zero_add, hkept, load_store]

/-- The second pass over the rest of the pieces. -/
theorem memcpyAll_filled (pieces : List (List UInt8)) (filled : Filled plan done)
    (fits : done.length + pieces.flatten.length ≤ plan.size) :
    ∃ plan', memcpyAll plan pieces = .ok (addresses done.length pieces, plan') ∧
      Filled plan' (done ++ pieces.flatten) ∧ plan'.size = plan.size := by
  induction pieces generalizing plan done with
  | nil => exact ⟨plan, rfl, by simpa using filled, rfl⟩
  | cons piece pieces ih =>
    rw [List.flatten_cons, List.length_append] at fits
    obtain ⟨plan₁, hstep, filled₁, hsize₁, -, -⟩ :=
      mallocPlanMemcpy_filled piece filled (by omega)
    obtain ⟨plan', hrest, filled', hsize⟩ := ih filled₁ (by rw [List.length_append]; omega)
    refine ⟨plan', ?_, ?_, hsize.trans hsize₁⟩
    · rw [memcpyAll, hstep, ok_bind]
      dsimp only
      rw [hrest, ok_bind, List.length_append]
      rfl
    · rw [List.flatten_cons, ← List.append_assoc]
      exact filled'

/-- The plan behind the first pass becomes an empty block of the size it found. -/
theorem mallocPlanAlloc_granted (junk : Nat → UInt8) (plan : MallocPlan) (e : ErrorObject)
    (hmode : plan.mode = .planning) (hpos : 0 < plan.size) (hsmall : plan.size < 2 ^ 32)
    (hblen : plan.blen = 0) :
    ∃ plan', mallocPlanAlloc true junk plan e = .ok (success, plan', e) ∧ Filled plan' [] ∧
      plan'.size = plan.size := by
  have hmalloc : iMalloc true plan.size 1 e = .ok (true, e) :=
    iMalloc_granted hpos Nat.one_pos (by omega)
  refine ⟨{ plan with buffer := some junk, mode := .allocing }, ?_, ⟨rfl, rfl, hsmall, ?_⟩, rfl⟩
  · rw [mallocPlanAlloc, assert_pos hmode, ok_bind, hmalloc, ok_bind]
    rfl
  · show load junk 0 plan.blen = []
    rw [hblen, load_zero]

/-- Each piece of the second pass is copied to the sum of the earlier lengths, and
the pieces before it stay. -/
def CopiedInOrder (plan : MallocPlan) (pieces : List (List UInt8)) : Prop :=
  ∀ before piece after, pieces = before ++ piece :: after →
    ∃ plan₁ plan₂, memcpyAll plan before = .ok (addresses 0 before, plan₁) ∧
      mallocPlanMemcpy plan₁ piece = .ok (some before.flatten.length, plan₂) ∧
      load (cells plan₂) 0 before.flatten.length = before.flatten ∧
      load (cells plan₂) before.flatten.length piece.length = piece

theorem copiedInOrder (filled : Filled plan []) (fits : pieces.flatten.length ≤ plan.size) :
    CopiedInOrder plan pieces := by
  rintro before piece after rfl
  rw [List.flatten_append, List.flatten_cons, List.length_append, List.length_append] at fits
  obtain ⟨plan₁, hbefore, filled₁, hsize⟩ := memcpyAll_filled before filled
    (by rw [List.length_nil]; omega)
  obtain ⟨plan₂, hpiece, -, -, hkept, hcopied⟩ :=
    mallocPlanMemcpy_filled piece filled₁ (by rw [List.nil_append]; omega)
  exact ⟨plan₁, plan₂, hbefore, hpiece, hkept, hcopied⟩

/-- The pass that plans and the pass that copies agree on every list of pieces. -/
theorem malloc_plan_passes (pieces : List (List UInt8)) (junk : Nat → UInt8) (e : ErrorObject)
    (hpos : 1 ≤ pieces.flatten.length) (hsmall : pieces.flatten.length < 2 ^ 32) :
    ∃ plan₁ plan₂ plan₃,
      memcpyAll mallocPlanCreate pieces = .ok (pieces.map fun _ => none, plan₁) ∧
      mallocPlanAlloc true junk plan₁ e = .ok (success, plan₂, e) ∧
      memcpyAll plan₂ pieces = .ok (addresses 0 pieces, plan₃) ∧ CopiedInOrder plan₂ pieces ∧
      plan₃.blen = plan₃.size ∧ plan₃.size = pieces.flatten.length ∧
      load (cells plan₃) 0 plan₃.size = pieces.flatten := by
  have hplan := memcpyAll_planning mallocPlanCreate pieces rfl
    (by show 0 + _ < _; omega)
  have hsize : mallocPlanCreate.size + pieces.flatten.length = pieces.flatten.length :=
    Nat.zero_add _
  rw [hsize] at hplan
  obtain ⟨plan₂, halloc, filled, hsize₂⟩ := mallocPlanAlloc_granted junk
    { mallocPlanCreate with size := pieces.flatten.length } e rfl hpos hsmall rfl
  have hsize₂ : plan₂.size = pieces.flatten.length := hsize₂
  obtain ⟨plan₃, hcopy, filled₃, hsize₃⟩ := memcpyAll_filled pieces filled
    (by rw [List.length_nil, hsize₂]; omega)
  have hblen : plan₃.blen = plan₃.size := by
    rw [filled₃.blen_eq, List.nil_append, hsize₃, hsize₂]
  refine ⟨_, plan₂, plan₃, hplan, halloc, hcopy, copiedInOrder filled (Nat.le_of_eq hsize₂.symm),
    hblen, hsize₃.trans hsize₂, ?_⟩
  rw [← hblen]
  exact filled₃.contents_eq

end Passes

/-- An empty piece between two others. -/
theorem three_pieces_planned :
    ∃ plan₁ plan₂ plan₃,
      memcpyAll mallocPlanCreate [[1, 2], [], [3]] = .ok ([none, none, none], plan₁) ∧
      mallocPlanAlloc true (fun _ => 0) plan₁ errorCreate = .ok (success, plan₂, errorCreate) ∧
      memcpyAll plan₂ [[1, 2], [], [3]] = .ok ([some 0, some 2, some 2], plan₃) ∧
      load (cells plan₃) 0 3 = [1, 2, 3] := by
  obtain ⟨plan₁, plan₂, plan₃, hplan, halloc, hcopy, -, -, hsize, hbytes⟩ :=
    malloc_plan_passes [[1, 2], [], [3]] (fun _ => 0) errorCreate (by decide)
      (by decide)
  rw [hsize] at hbytes
  exact ⟨plan₁, plan₂, plan₃, hplan, halloc, hcopy, hbytes⟩

end MallocPlans
