import CSpecx.CExec

/-!
# The error object

`error.c` records the first failure: its code and its text. Later failures are
only logged, whatever their code, and the calls still return the code they were
given. The text is the format with its arguments.
-/

namespace Errors

open CExec

def success : Int := 0

def errIo : Int := -1

def errNomem : Int := -2

def errArith : Int := -3

def errCorrupt : Int := -4

def errInvalidArgument : Int := -5

structure Message where
  fmt : String
  args : List Int
  deriving DecidableEq, Repr

structure ErrorObject where
  causeCode : Int
  causeMsg : Message
  deriving DecidableEq, Repr

def errorCreate : ErrorObject := ⟨success, ⟨"", []⟩⟩

/-- The returned code and the object behind the call. -/
def errorCausef (e : ErrorObject) (c : Int) (msg : Message) : Int × ErrorObject :=
  (c, if e.causeCode = success then ⟨c, msg⟩ else e)

/-- The macro `error_trace`; its call of `error_causef` only logs. -/
def errorTrace (e : ErrorObject) : Int := e.causeCode

/-- `i_malloc`: `granted` says whether `malloc` returns memory. The first result
says whether the pointer is not `NULL`. -/
def iMalloc (granted : Bool) (nelem size : Nat) (e : ErrorObject) :
    Outcome (Bool × ErrorObject) := do
  assert (0 < nelem)
  assert (0 < size)
  if nelem * size < 2 ^ 32 then
    if granted then .ok (true, e)
    else .ok (false, (errorCausef e errNomem ⟨"malloc %d*%d: %s", [nelem, size]⟩).2)
  else .ok (false, (errorCausef e errNomem ⟨"malloc %d*%d: overflow", [nelem, size]⟩).2)

section Rules

variable {e : ErrorObject} {c : Int} {msg : Message}

@[simp] theorem errorCausef_fst : (errorCausef e c msg).1 = c := rfl

/-- The first failure stays. -/
theorem errorCausef_keeps (h : e.causeCode ≠ success) : (errorCausef e c msg).2 = e := if_neg h

theorem errorCausef_records (h : e.causeCode = success) :
    (errorCausef e c msg).2 = ⟨c, msg⟩ := if_pos h

theorem errorCausef_code :
    (errorCausef e c msg).2.causeCode = if e.causeCode = success then c else e.causeCode := by
  unfold errorCausef
  split <;> rfl

/-- The object never goes back to success on a failure code. -/
theorem errorCausef_failed (hc : c ≠ success) : (errorCausef e c msg).2.causeCode ≠ success := by
  rw [errorCausef_code]
  split
  · exact hc
  · next h => exact h

theorem iMalloc_granted {nelem size : Nat} (hn : 0 < nelem) (hs : 0 < size)
    (hbytes : nelem * size < 2 ^ 32) : iMalloc true nelem size e = .ok (true, e) := by
  simp only [iMalloc, assert_pos hn, assert_pos hs, ok_bind, if_pos hbytes, if_true]

end Rules

end Errors
