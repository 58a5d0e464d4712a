import CSpecx.CellMemory
import CSpecx.Errors
import CSpecx.TransferLoop

/-!
# Reading and writing whole buffers

`i_write_all`, `i_pwrite_all`, `i_read_all` and `i_pread_all` of the POSIX
`file.c`. The results of the system calls are given with the call. A stream is
the bytes behind its position, and the file of `pwrite` has zeros behind its end.
-/

namespace FileTransfers

open CExec CellMemory Errors TransferLoop

/-- `(i64)c`. -/
def i64 (c : Nat) : Int := Int.bmod c (2 ^ 64)

/-- `offset + c` in `u64`. -/
def position (offset c : Nat) : Nat := (offset + c) % 2 ^ 64

/-- `return error_causef (e, ERR_IO, ...)`. -/
def failIo {α : Type} (fmt : String) (s : α × ErrorObject) : Next (α × ErrorObject) :=
  .ret (errorCausef s.2 errIo ⟨fmt, []⟩).1 (s.1, (errorCausef s.2 errIo ⟨fmt, []⟩).2)

/-- A loop that returns unless `errno` is `EINTR`, and adds the result. -/
def retry {α : Type} (fmt : String) (s : α × ErrorObject) : Errno → Option (Next (α × ErrorObject))
  | .intr => some (.add s)
  | _ => some (failIo fmt s)

/-- `write` appends a part of what is left. -/
def writeBody (src : List UInt8) (c : Nat) (s : List UInt8 × ErrorObject) :
    Result → Option (Next (List UInt8 × ErrorObject))
  | .count k =>
    if 0 < k ∧ k ≤ src.length - c then some (.add (s.1 ++ (src.drop c).take k, s.2)) else none
  | .failed err => retry "write: %s" s err

def iWriteAll (src file : List UInt8) (e : ErrorObject) (rs : List Result) :
    Option (Outcome (Int × List UInt8 × ErrorObject)) :=
  transferAll src.length (writeBody src) (fun _ => success) (file, e) rs

/-- `pwrite` stores a part of what is left, below the largest `off_t`. -/
def pwriteBody (src : List UInt8) (offset c : Nat) (s : (Nat → UInt8) × ErrorObject) :
    Result → Option (Next ((Nat → UInt8) × ErrorObject))
  | .count k =>
    if 0 < k ∧ k ≤ src.length - c ∧ position offset c + k < 2 ^ 63 then
      some (.add (store s.1 (position offset c) ((src.drop c).take k), s.2))
    else none
  | .failed err => retry "pwrite: %s" s err

def iPwriteAll (src : List UInt8) (offset : Nat) (file : Nat → UInt8) (e : ErrorObject)
    (rs : List Result) : Option (Outcome (Int × (Nat → UInt8) × ErrorObject)) :=
  transferAll src.length (pwriteBody src offset) (fun _ => success) (file, e) rs

/-- The bytes are stored at `dest + c`. -/
def putBytes (dest : List UInt8) (c : Nat) (bytes : List UInt8) : List UInt8 :=
  dest.take c ++ bytes ++ dest.drop (c + bytes.length)

/-- `read` takes bytes off the stream; it returns zero only at the end. -/
def readBody (n c : Nat) (s : (List UInt8 × List UInt8) × ErrorObject) :
    Result → Option (Next ((List UInt8 × List UInt8) × ErrorObject))
  | .count k =>
    if k = 0 then if s.1.2 = [] then some (.ret (i64 c) s) else none
    else if k ≤ n - c ∧ k ≤ s.1.2.length then
      some (.add ((putBytes s.1.1 c (s.1.2.take k), s.1.2.drop k), s.2))
    else none
  | .failed .other => some (failIo "read: %s" s)
  | .failed _ => some (.ret 0 s)

def iReadAll (dest stream : List UInt8) (e : ErrorObject) (rs : List Result) :
    Option (Outcome (Int × (List UInt8 × List UInt8) × ErrorObject)) :=
  transferAll dest.length (readBody dest.length) i64 ((dest, stream), e) rs

/-- `pread` copies bytes at a position; it returns zero only at or behind the end. -/
def preadBody (file : List UInt8) (offset n c : Nat) (s : List UInt8 × ErrorObject) :
    Result → Option (Next (List UInt8 × ErrorObject))
  | .count k =>
    if k = 0 then if file.length ≤ position offset c then some (.ret (i64 c) s) else none
    else if k ≤ n - c ∧ position offset c + k ≤ file.length then
      some (.add (putBytes s.1 c ((file.drop (position offset c)).take k), s.2))
    else none
  | .failed err => retry "pread: %s" s err

def iPreadAll (dest : List UInt8) (offset : Nat) (file : List UInt8) (e : ErrorObject)
    (rs : List Result) : Option (Outcome (Int × List UInt8 × ErrorObject)) :=
  transferAll dest.length (preadBody file offset dest.length) i64 (dest, e) rs

section Rules

variable {α : Type} {fmt : String} {s s' : α × ErrorObject} {err : Errno} {code : Int}

theorem retry_add (h : retry fmt s err = some (.add s')) : err = .intr ∧ s' = s := by
  cases err with
  | intr => exact ⟨rfl, (Next.add.inj (Option.some.inj h)).symm⟩
  | wouldBlock => cases h
  | other => cases h

theorem retry_ret (h : retry fmt s err = some (.ret code s')) :
    code = errIo ∧ s'.1 = s.1 ∧ err ≠ .intr := by
  cases err with
  | intr => cases h
  | wouldBlock =>
    cases h
    exact ⟨rfl, rfl, Errno.noConfusion⟩
  | other =>
    cases h
    exact ⟨rfl, rfl, Errno.noConfusion⟩

end Rules

section Bytes

variable {c offset : Nat} {dest bytes : List UInt8}

theorem i64_of_lt (h : c < 2 ^ 63) : i64 c = c := by
  unfold i64
  rw [Int.bmod_eq_of_le] <;> omega

theorem position_of_lt (h : offset + c < 2 ^ 64) : position offset c = offset + c :=
  Nat.mod_eq_of_lt h

theorem length_putBytes (h : c + bytes.length ≤ dest.length) :
    (putBytes dest c bytes).length = dest.length := by
  simp only [putBytes, List.length_append, List.length_take, List.length_drop]
  omega

theorem take_putBytes (dest bytes : List UInt8) (h : c ≤ dest.length) :
    (putBytes dest c bytes).take (c + bytes.length) = dest.take c ++ bytes := by
  have hlen : (dest.take c ++ bytes).length = c + bytes.length := by
    rw [List.length_append, List.length_take, Nat.min_eq_left h]
  rw [putBytes, ← hlen, List.take_left]

end Bytes

end FileTransfers
