import CSpecx.FileTransfers
import CSpecx.VectorLoop

/-!
# Reading and writing vectors

`i_readv_all` and `i_writev_all` of the POSIX `file.c`. The vectors are ranges of
one memory; a stream is the bytes behind its position. An interruption is tried
again with nothing added.
-/

namespace FileTransfers

open CExec CellMemory Errors TransferLoop VectorLoop

/-- `error_causef (e, ERR_IO, ...)`: the object behind it. -/
def ioError (fmt : String) (e : ErrorObject) : ErrorObject := (errorCausef e errIo ⟨fmt, []⟩).2

/-- `readv` fills the first cells and returns zero only at the end of the stream. -/
def readvCall (iov : List IoVec) (s : ((Nat → UInt8) × List UInt8) × ErrorObject) :
    Result → Option (Turn (((Nat → UInt8) × List UInt8) × ErrorObject))
  | .count k =>
    if k = 0 then if s.1.2 = [] then some .stop else none
    else if k ≤ totalLen iov ∧ k ≤ s.1.2.length then
      some (.moved k ((storeAt s.1.1 (cells iov) (s.1.2.take k), s.1.2.drop k), s.2))
    else none
  | .failed .intr => some .again
  | .failed _ => some (.ret errIo (s.1, ioError "readv: %s" s.2))

def iReadvAll (size : Nat) (iov : List IoVec) (mem : Nat → UInt8) (stream : List UInt8)
    (e : ErrorObject) (rs : List Result) :
    Option (Outcome (Int × ((Nat → UInt8) × List UInt8) × ErrorObject)) :=
  transferVectors size readvCall (fun c => .ok (i64 c)) iov ((mem, stream), e) rs

/-- `writev` appends the first cells; the loop goes on when it returns zero. -/
def writevCall (mem : Nat → UInt8) (iov : List IoVec) (s : List UInt8 × ErrorObject) :
    Result → Option (Turn (List UInt8 × ErrorObject))
  | .count k =>
    if k = 0 then some .again
    else if k ≤ totalLen iov then some (.moved k (s.1 ++ (gather mem iov).take k, s.2))
    else none
  | .failed .intr => some .again
  | .failed _ => some (.ret errIo (s.1, ioError "writev: %s" s.2))

def iWritevAll (size : Nat) (iov : List IoVec) (mem : Nat → UInt8) (file : List UInt8)
    (e : ErrorObject) (rs : List Result) : Option (Outcome (Int × List UInt8 × ErrorObject)) :=
  transferVectors size (writevCall mem)
    (fun c => assert (c = totalLen iov) >>= fun _ => .ok success) iov (file, e) rs

section Reads

variable {size n c : Nat} {iov iov₀ : List IoVec} {mem : Nat → UInt8} {stream : List UInt8}
  {e : ErrorObject} {rs : List Result} {r : Result}
  {s : ((Nat → UInt8) × List UInt8) × ErrorObject}
  {o : Outcome (Int × ((Nat → UInt8) × List UInt8) × ErrorObject)}

theorem readvCall_cases {t : Turn (((Nat → UInt8) × List UInt8) × ErrorObject)}
    (hcall : readvCall iov s r = some t) :
    (r = .count 0 ∧ s.1.2 = [] ∧ t = .stop) ∨
      (∃ k, r = .count k ∧ k ≤ totalLen iov ∧ k ≤ s.1.2.length ∧
        t = .moved k ((storeAt s.1.1 (cells iov) (s.1.2.take k), s.1.2.drop k), s.2)) ∨
      (r = .failed .intr ∧ t = .again) ∨
      ∃ err, err ≠ .intr ∧ r = .failed err ∧ t = .ret errIo (s.1, ioError "readv: %s" s.2) := by
  cases r with
  | count k =>
    by_cases hzero : k = 0
    · by_cases hempty : s.1.2 = []
      · simp only [readvCall, if_pos hzero, if_pos hempty, Option.some.injEq] at hcall
        exact .inl ⟨by rw [hzero], hempty, hcall.symm⟩
      · simp only [readvCall, if_pos hzero, if_neg hempty, reduceCtorEq] at hcall
    · by_cases hk : k ≤ totalLen iov ∧ k ≤ s.1.2.length
      · simp only [readvCall, if_neg hzero, if_pos hk, Option.some.injEq] at hcall
        exact .inr (.inl ⟨k, rfl, hk.1, hk.2, hcall.symm⟩)
      · simp only [readvCall, if_neg hzero, if_neg hk, reduceCtorEq] at hcall
  | failed err =>
    cases err with
    | intr =>
      cases hcall
      exact .inr (.inr (.inl ⟨rfl, rfl⟩))
    | wouldBlock =>
      cases hcall
      exact .inr (.inr (.inr ⟨.wouldBlock, Errno.noConfusion, rfl, rfl⟩))
    | other =>
      cases hcall
      exact .inr (.inr (.inr ⟨.other, Errno.noConfusion, rfl, rfl⟩))

theorem readvCall_moved {k : Nat} {s' : ((Nat → UInt8) × List UInt8) × ErrorObject}
    (hcall : readvCall iov s r = some (.moved k s')) :
    r = .count k ∧ k ≤ totalLen iov ∧ k ≤ s.1.2.length ∧
      s' = ((storeAt s.1.1 (cells iov) (s.1.2.take k), s.1.2.drop k), s.2) := by
  have hcases := readvCall_cases hcall
  simp only [reduceCtorEq, and_false, exists_false, false_or, or_false, Turn.moved.injEq] at hcases
  obtain ⟨j, hr, hj, hfits, rfl, hs'⟩ := hcases
  exact ⟨hr, hj, hfits, hs'⟩

theorem readv_fits : Fits readvCall := fun _ _ _ _ _ hcall => (readvCall_moved hcall).2.1

/-- The stream has gone to the first cells up to the cursor, and no call has failed. -/
theorem readv_reached
    (reaches : Reaches (totalLen iov₀) readvCall iov₀ ((mem, stream), e) rs c iov s) :
    c ≤ stream.length ∧ s = ((storeAt mem (cells iov₀) (stream.take c), stream.drop c), e) ∧
      ¬ Fails rs := by
  induction reaches with
  | start =>
    refine ⟨Nat.zero_le _, ?_, not_fails_nil⟩
    rw [List.take_zero, storeAt_nil, List.drop_zero]
  | @again rs c iov s r _ _ hcall ih =>
    obtain ⟨hle, hs, hquiet⟩ := ih
    obtain rfl : r = .failed .intr := by simpa using readvCall_cases hcall
    refine ⟨hle, hs, not_fails_snoc hquiet ?_⟩
    rintro err hne heq
    exact hne (Result.failed.inj heq).symm
  | @moved rs c k iov s s' r reaches hlt hcall ih =>
    obtain ⟨hle, rfl, hquiet⟩ := ih
    obtain ⟨rfl, hk, hfits, rfl⟩ := readvCall_moved hcall
    obtain ⟨hcells, -⟩ := reaches.left readv_fits
    rw [List.length_drop] at hfits
    refine ⟨by omega, ?_, not_fails_snoc hquiet fun _ _ => Result.noConfusion⟩
    have htaken : (stream.take c).length = c := List.length_take_of_le hle
    rw [List.take_add, storeAt_append, htaken, hcells, List.drop_drop]

/-- A read of vectors: `c` bytes of the stream go to the first cells. It ends early
at the end of the stream or with an error. -/
theorem iReadvAll_spec (hcnt : 0 < iov.length) (htwo : iov.length ≤ 2) (hn : 0 < totalLen iov)
    (hbound : totalLen iov < 2 ^ 63) (inside : Inside size iov)
    (hrun : iReadvAll size iov mem stream e rs = some o) :
    ∃ c r e', c ≤ totalLen iov ∧ c ≤ stream.length ∧
      o = .ok (r, (storeAt mem (cells iov) (stream.take c), stream.drop c), e') ∧
      ((¬ Fails rs ∧ r = c ∧ e' = e ∧ (c < totalLen iov → stream.drop c = [])) ∨
        (Fails rs ∧ r = errIo ∧ e' = ioError "readv: %s" e)) := by
  cases transferVectors_ends hcnt htwo hn hrun with
  | @finished _ c iov' s reaches hend =>
    obtain ⟨hle, rfl, hquiet⟩ := readv_reached reaches
    obtain ⟨-, htotal⟩ := reaches.left readv_fits
    refine ⟨c, i64 c, e, htotal, hle, rfl, .inl ⟨hquiet, i64_of_lt (by omega), rfl, ?_⟩⟩
    intro hlt
    omega
  | @stopped rs c iov' s r reaches hlt hcall =>
    obtain ⟨hle, rfl, hquiet⟩ := readv_reached reaches
    obtain ⟨rfl, hempty⟩ : r = .count 0 ∧ stream.drop c = [] := by
      simpa using readvCall_cases hcall
    refine ⟨c, i64 c, e, hlt.le, hle, rfl, .inl ⟨?_, i64_of_lt (by omega), rfl, fun _ => hempty⟩⟩
    exact not_fails_snoc hquiet fun _ _ => Result.noConfusion
  | @returned rs c iov' s s' r code reaches hlt hcall =>
    obtain ⟨hle, rfl, -⟩ := readv_reached reaches
    obtain ⟨err, hne, rfl, rfl, rfl⟩ : ∃ err, err ≠ .intr ∧ r = .failed err ∧ code = errIo ∧ s' =
        ((storeAt mem (cells iov) (stream.take c), stream.drop c), ioError "readv: %s" e) := by
      simpa using readvCall_cases hcall
    exact ⟨c, errIo, _, hlt.le, hle, rfl, .inr ⟨fails_snoc hne, rfl, rfl⟩⟩
  | outside reaches houtside => exact absurd (reaches.inside inside) houtside

end Reads

section Writes

variable {size n c : Nat} {iov iov₀ : List IoVec} {mem : Nat → UInt8} {file : List UInt8}
  {e : ErrorObject} {rs : List Result} {r : Result} {s : List UInt8 × ErrorObject}
  {o : Outcome (Int × List UInt8 × ErrorObject)}

theorem writevCall_cases {t : Turn (List UInt8 × ErrorObject)}
    (hcall : writevCall mem iov s r = some t) :
    ((r = .count 0 ∨ r = .failed .intr) ∧ t = .again) ∨
      (∃ k, r = .count k ∧ k ≤ totalLen iov ∧
        t = .moved k (s.1 ++ (gather mem iov).take k, s.2)) ∨
      ∃ err, err ≠ .intr ∧ r = .failed err ∧ t = .ret errIo (s.1, ioError "writev: %s" s.2) := by
  cases r with
  | count k =>
    by_cases hzero : k = 0
    · simp only [writevCall, if_pos hzero, Option.some.injEq] at hcall
      exact .inl ⟨.inl (by rw [hzero]), hcall.symm⟩
    · by_cases hk : k ≤ totalLen iov
      · simp only [writevCall, if_neg hzero, if_pos hk, Option.some.injEq] at hcall
        exact .inr (.inl ⟨k, rfl, hk, hcall.symm⟩)
      · simp only [writevCall, if_neg hzero, if_neg hk, reduceCtorEq] at hcall
  | failed err =>
    cases err with
    | intr =>
      cases hcall
      exact .inl ⟨.inr rfl, rfl⟩
    | wouldBlock =>
      cases hcall
      exact .inr (.inr ⟨.wouldBlock, Errno.noConfusion, rfl, rfl⟩)
    | other =>
      cases hcall
      exact .inr (.inr ⟨.other, Errno.noConfusion, rfl, rfl⟩)

theorem writevCall_moved {k : Nat} {s' : List UInt8 × ErrorObject}
    (hcall : writevCall mem iov s r = some (.moved k s')) :
    r = .count k ∧ k ≤ totalLen iov ∧ s' = (s.1 ++ (gather mem iov).take k, s.2) := by
  have hcases := writevCall_cases hcall
  simp only [reduceCtorEq, and_false, exists_false, false_or, or_false, Turn.moved.injEq] at hcases
  obtain ⟨j, hr, hj, rfl, hs'⟩ := hcases
  exact ⟨hr, hj, hs'⟩

theorem writev_fits : Fits (writevCall mem) := fun _ _ _ _ _ hcall => (writevCall_moved hcall).2.1

/-- The file has got the cells up to the cursor, and no call has failed. -/
theorem writev_reached
    (reaches : Reaches (totalLen iov₀) (writevCall mem) iov₀ (file, e) rs c iov s) :
    s = (file ++ (gather mem iov₀).take c, e) ∧ ¬ Fails rs := by
  induction reaches with
  | start =>
    refine ⟨?_, not_fails_nil⟩
    rw [List.take_zero, List.append_nil]
  | @again rs c iov s r _ _ hcall ih =>
    have hr : r = .count 0 ∨ r = .failed .intr := by simpa using writevCall_cases hcall
    refine ⟨ih.1, not_fails_snoc ih.2 ?_⟩
    rintro err hne rfl
    rcases hr with h | h
    · exact Result.noConfusion h
    · exact hne (Result.failed.inj h)
  | @moved rs c k iov s s' r reaches hlt hcall ih =>
    obtain ⟨rfl, hquiet⟩ := ih
    obtain ⟨rfl, hk, rfl⟩ := writevCall_moved hcall
    obtain ⟨hcells, -⟩ := reaches.left writev_fits
    refine ⟨?_, not_fails_snoc hquiet fun _ _ => Result.noConfusion⟩
    have hpiece : gather mem iov = (gather mem iov₀).drop c := by
      rw [gather, hcells, List.map_drop, ← gather]
    rw [hpiece, List.take_add, List.append_assoc]

/-- A write of vectors: `c` cells are appended to the file, all of them on success. -/
theorem iWritevAll_spec (hcnt : 0 < iov.length) (htwo : iov.length ≤ 2) (hn : 0 < totalLen iov)
    (inside : Inside size iov) (hrun : iWritevAll size iov mem file e rs = some o) :
    ∃ c r e', c ≤ totalLen iov ∧ o = .ok (r, file ++ (gather mem iov).take c, e') ∧
      ((¬ Fails rs ∧ r = success ∧ e' = e ∧ c = totalLen iov) ∨
        (Fails rs ∧ r = errIo ∧ e' = ioError "writev: %s" e)) := by
  cases transferVectors_ends hcnt htwo hn hrun with
  | @finished _ c iov' s reaches hend =>
    obtain ⟨rfl, hquiet⟩ := writev_reached reaches
    obtain ⟨-, htotal⟩ := reaches.left writev_fits
    obtain rfl : c = totalLen iov := Nat.le_antisymm htotal hend
    refine ⟨totalLen iov, success, e, le_refl _, ?_, .inl ⟨hquiet, rfl, rfl, rfl⟩⟩
    rw [assert_pos rfl]
    rfl
  | stopped _ _ hcall => simpa using writevCall_cases hcall
  | @returned rs c iov' s s' r code reaches hlt hcall =>
    obtain ⟨rfl, -⟩ := writev_reached reaches
    obtain ⟨err, hne, rfl, rfl, rfl⟩ : ∃ err, err ≠ .intr ∧ r = .failed err ∧ code = errIo ∧
        s' = (file ++ (gather mem iov).take c, ioError "writev: %s" e) := by
      simpa using writevCall_cases hcall
    exact ⟨c, errIo, _, hlt.le, rfl, .inr ⟨fails_snoc hne, rfl, rfl⟩⟩
  | outside reaches houtside => exact absurd (reaches.inside inside) houtside

end Writes

end FileTransfers
