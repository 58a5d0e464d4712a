import CSpecx.FileTransfers

/-!
# Reads that report what they took

`i_read_all` returns zero on an interruption and when it would block, whatever
it has taken by then. `i_pread_all` steps back on an interruption and reads the
byte again; at the start its cursor wraps.
-/

namespace FileTransfers

open CExec Errors TransferLoop

/-- The last call has reported the end of the file. -/
def AtEnd (rs : List Result) : Prop := rs.getLast? = some (.count 0)

/-- The result is the number of bytes taken off the stream and `dest` holds them; it is
short only at the end of the stream or when the last call would have blocked. -/
def TakesExactly (n : Nat) (stream : List UInt8) (rs : List Result) :
    Outcome (Int × (List UInt8 × List UInt8) × ErrorObject) → Prop
  | .error _ => False
  | .ok (r, (dest, rest), _) =>
    (0 ≤ r → ∃ taken, (taken.length : Int) = r ∧ taken <+: dest ∧ stream = taken ++ rest ∧
      (r < n → AtEnd rs ∨ rs.getLast? = some (.failed .wouldBlock))) ∧
    (r < 0 → Fails rs)

/-- The result is the number of bytes read at the offset and `dest` holds them; it is
short only at the end of the file. -/
def ReadsExactly (n offset : Nat) (file : List UInt8) (rs : List Result) :
    Outcome (Int × List UInt8 × ErrorObject) → Prop
  | .error _ => False
  | .ok (r, dest, _) =>
    (0 ≤ r → ∃ bytes, (bytes.length : Int) = r ∧ bytes <+: dest ∧ bytes <+: file.drop offset ∧
      (r < n → AtEnd rs)) ∧
    (r < 0 → Fails rs)

section Streams

variable {n c : Nat} {dest stream : List UInt8} {e : ErrorObject} {rs : List Result} {r : Result}
  {s : (List UInt8 × List UInt8) × ErrorObject}
  {o : Outcome (Int × (List UInt8 × List UInt8) × ErrorObject)}

theorem readBody_count {k : Nat} {s' : (List UInt8 × List UInt8) × ErrorObject}
    (hbody : readBody n c s (.count k) = some (.add s')) :
    0 < k ∧ k ≤ n - c ∧ k ≤ s.1.2.length ∧
      s'.1 = (putBytes s.1.1 c (s.1.2.take k), s.1.2.drop k) := by
  by_cases hzero : k = 0
  · by_cases hempty : s.1.2 = [] <;> simp [readBody, hzero, hempty] at hbody
  · by_cases hk : k ≤ n - c ∧ k ≤ s.1.2.length
    · simp only [readBody, if_neg hzero, if_pos hk, Option.some.injEq, Next.add.injEq] at hbody
      exact ⟨Nat.pos_of_ne_zero hzero, hk.1, hk.2, hbody ▸ rfl⟩
    · simp only [readBody, if_neg hzero, if_neg hk, reduceCtorEq] at hbody

theorem readBody_failed {err : Errno} {s' : (List UInt8 × List UInt8) × ErrorObject} :
    readBody n c s (.failed err) ≠ some (.add s') := by
  intro h
  cases err <;> cases h

/-- An iteration returns at the end of the stream, with zero, or with an error. -/
theorem readBody_ret {code : Int} {s' : (List UInt8 × List UInt8) × ErrorObject}
    (hbody : readBody n c s r = some (.ret code s')) :
    s'.1 = s.1 ∧ ((r = .count 0 ∧ code = i64 c) ∨
      (∃ err, err ≠ .other ∧ r = .failed err ∧ code = 0) ∨
      (r = .failed .other ∧ code = errIo)) := by
  cases r with
  | count k =>
    by_cases hzero : k = 0
    · subst hzero
      by_cases hempty : s.1.2 = []
      · simp only [readBody, if_true, if_pos hempty, Option.some.injEq, Next.ret.injEq] at hbody
        exact ⟨hbody.2 ▸ rfl, .inl ⟨rfl, hbody.1.symm⟩⟩
      · simp [readBody, hempty] at hbody
    · by_cases hk : k ≤ n - c ∧ k ≤ s.1.2.length
      · simp only [readBody, if_neg hzero, if_pos hk, Option.some.injEq, reduceCtorEq] at hbody
      · simp only [readBody, if_neg hzero, if_neg hk, reduceCtorEq] at hbody
  | failed err =>
    cases err with
    | intr =>
      cases hbody
      exact ⟨rfl, .inr (.inl ⟨.intr, Errno.noConfusion, rfl, rfl⟩)⟩
    | wouldBlock =>
      cases hbody
      exact ⟨rfl, .inr (.inl ⟨.wouldBlock, Errno.noConfusion, rfl, rfl⟩)⟩
    | other =>
      cases hbody
      exact ⟨rfl, .inr (.inr ⟨rfl, rfl⟩)⟩

/-- The bytes below the cursor are those taken, no call has failed, and the cursor has
moved with every call. -/
theorem read_taken (hn : dest.length < 2 ^ 63)
    (reaches : Reaches dest.length (readBody dest.length) ((dest, stream), e) rs c s) :
    s.1.1.length = dest.length ∧ c ≤ dest.length ∧ stream = s.1.1.take c ++ s.1.2 ∧
      (∀ err, .failed err ∉ rs) ∧ rs.length ≤ c := by
  induction reaches with
  | start => exact ⟨rfl, Nat.zero_le _, rfl, fun _ => List.not_mem_nil, le_refl 0⟩
  | @next rs c s s' r reaches hlt hbody ih =>
    obtain ⟨hlen, -, hstream, hquiet, hcalls⟩ := ih
    cases r with
    | count k =>
      obtain ⟨hpos, hk, hfits, hs'⟩ := readBody_count hbody
      have hcursor : add64 c (Result.count k).value = c + k := add64_count (by omega)
      have hpiece : (s.1.2.take k).length = k := List.length_take_of_le hfits
      rw [hcursor, hs']
      refine ⟨?_, by omega, ?_, ?_, ?_⟩
      · rw [length_putBytes (by omega), hlen]
      · have htake := take_putBytes s.1.1 (s.1.2.take k) (c := c) (by omega)
        rw [hpiece] at htake
        rw [htake, List.append_assoc, List.take_append_drop]
        exact hstream
      · intro err hmem
        rcases List.mem_append.mp hmem with hmem | hmem
        · exact hquiet err hmem
        · exact Result.noConfusion (List.mem_singleton.mp hmem)
      · rw [List.length_append, List.length_singleton]
        omega
    | failed err => exact absurd hbody readBody_failed

theorem iReadAll_iff (hpos : dest ≠ []) (hn : dest.length < 2 ^ 63)
    (hrun : iReadAll dest stream e rs = some o) : TakesExactly dest.length stream rs o ↔
      .failed .intr ∉ rs ∧ (.failed .wouldBlock ∈ rs → rs = [.failed .wouldBlock]) := by
  rcases transferAll_cases (List.length_pos_iff.mpr hpos) hrun with
    ⟨c, s, reaches, hend, rfl⟩ | ⟨init, r, c, s, code, s', rfl, reaches, hlt, hbody, rfl⟩
  · obtain ⟨hlen, hle, hstream, hquiet, -⟩ := read_taken hn reaches
    obtain rfl : c = dest.length := Nat.le_antisymm hle hend
    rw [assert_pos rfl, ok_bind, i64_of_lt hn]
    refine iff_of_true ⟨fun _ => ?_, fun hneg => by omega⟩ ⟨hquiet _, fun h => absurd h (hquiet _)⟩
    refine ⟨s.1.1.take dest.length, ?_, List.take_prefix _ _, hstream, fun hshort => ?_⟩
    · rw [List.length_take, hlen, Nat.min_self]
    · exact absurd hshort (lt_irrefl _)
  · obtain ⟨hlen, hle, hstream, hquiet, hcalls⟩ := read_taken hn reaches
    obtain ⟨hs', hcase⟩ := readBody_ret hbody
    obtain ⟨⟨dest', rest⟩, e₁⟩ := s
    obtain ⟨_, e₂⟩ := s'
    subst hs'
    have hlen : dest'.length = dest.length := hlen
    have hstream : stream = dest'.take c ++ rest := hstream
    rcases hcase with ⟨rfl, hcode⟩ | ⟨err, hne, rfl, hcode⟩ | ⟨rfl, hcode⟩
    · rw [hcode, i64_of_lt (by omega)]
      have hnone : ∀ err, .failed err ∉ init ++ [.count 0] := by
        intro err hmem
        rcases List.mem_append.mp hmem with hmem | hmem
        · exact hquiet err hmem
        · exact Result.noConfusion (List.mem_singleton.mp hmem)
      refine iff_of_true ⟨fun _ => ?_, fun hneg => by omega⟩ ⟨hnone _, fun h => absurd h (hnone _)⟩
      refine ⟨dest'.take c, ?_, List.take_prefix _ _, hstream, fun _ => .inl List.getLast?_concat⟩
      rw [List.length_take, hlen, Nat.min_eq_left hle]
    · rw [hcode]
      constructor
      · intro hexact
        obtain ⟨taken, hzero, -, hsame, hshort⟩ := hexact.1 (le_refl 0)
        have hlast := hshort (by omega)
        have hnil : taken = [] := List.eq_nil_of_length_eq_zero (by omega)
        -- nothing was taken, so no call came before
        have hempty : init = [] := by
          rw [hnil, List.nil_append, hstream] at hsame
          have hlength := congrArg List.length hsame
          rw [List.length_append, List.length_take, hlen] at hlength
          exact List.eq_nil_of_length_eq_zero (by omega)
        rw [hempty, List.nil_append] at hlast ⊢
        have hblocks : err = .wouldBlock := by
          rcases hlast with hend | hblocks
          · exact Result.noConfusion (Option.some.inj hend)
          · exact Result.failed.inj (Option.some.inj hblocks)
        subst hblocks
        exact ⟨by decide, fun _ => rfl⟩
      · rintro ⟨hintr, hblocks⟩
        have herr : err = .wouldBlock := by
          cases err with
          | intr => exact absurd (List.mem_append_right _ (List.mem_singleton_self _)) hintr
          | wouldBlock => rfl
          | other => exact absurd rfl hne
        subst herr
        have hone := hblocks (List.mem_append_right _ (List.mem_singleton_self _))
        obtain rfl : init = [] := by
          have hlength := congrArg List.length hone
          rw [List.length_append] at hlength
          exact List.eq_nil_of_length_eq_zero (by simpa using hlength)
        obtain ⟨-, hstart⟩ := reaches.of_nil rfl
        obtain ⟨⟨-, rfl⟩, -⟩ := (by simpa using hstart : (dest' = dest ∧ rest = stream) ∧ e₁ = e)
        refine ⟨fun _ => ⟨[], rfl, List.nil_prefix, rfl, fun _ => .inr rfl⟩, fun h => ?_⟩
        exact absurd h (lt_irrefl 0)
    · rw [hcode]
      have hfails : Fails (init ++ [.failed .other]) := fails_snoc Errno.noConfusion
      have hmem : ∀ err, .failed err ∈ init ++ [.failed .other] → err = .other := by
        intro err hmem
        rcases List.mem_append.mp hmem with hmem | hmem
        · exact absurd hmem (hquiet err)
        · exact Result.failed.inj (List.mem_singleton.mp hmem)
      refine iff_of_true ⟨fun h => absurd h (by decide), fun _ => hfails⟩ ⟨fun h => ?_, fun h => ?_⟩
      · exact Errno.noConfusion (hmem _ h)
      · exact Errno.noConfusion (hmem _ h)

end Streams

section Files

variable {offset c : Nat} {dest file : List UInt8} {e : ErrorObject} {rs : List Result} {r : Result}
  {n : Nat} {s : List UInt8 × ErrorObject} {o : Outcome (Int × List UInt8 × ErrorObject)}

theorem preadBody_count {k : Nat} {s' : List UInt8 × ErrorObject}
    (hbody : preadBody file offset n c s (.count k) = some (.add s')) :
    0 < k ∧ k ≤ n - c ∧ position offset c + k ≤ file.length ∧
      s'.1 = putBytes s.1 c ((file.drop (position offset c)).take k) := by
  by_cases hzero : k = 0
  · by_cases hend : file.length ≤ position offset c <;> simp [preadBody, hzero, hend] at hbody
  · by_cases hk : k ≤ n - c ∧ position offset c + k ≤ file.length
    · simp only [preadBody, if_neg hzero, if_pos hk, Option.some.injEq, Next.add.injEq] at hbody
      exact ⟨Nat.pos_of_ne_zero hzero, hk.1, hk.2, hbody ▸ rfl⟩
    · simp only [preadBody, if_neg hzero, if_neg hk, reduceCtorEq] at hbody

theorem pread_resumes : Resumes n (preadBody file offset n) where
  count _ _ _ _ hbody := (preadBody_count hbody).2.1
  failed _ _ _ _ hbody := (retry_add hbody).1

/-- An iteration returns at the end of the file or with an error. -/
theorem preadBody_ret {code : Int} {s' : List UInt8 × ErrorObject}
    (hbody : preadBody file offset n c s r = some (.ret code s')) : s'.1 = s.1 ∧
      ((r = .count 0 ∧ code = i64 c) ∨ (code = errIo ∧ ∃ err, err ≠ .intr ∧ r = .failed err)) := by
  cases r with
  | count k =>
    by_cases hzero : k = 0
    · subst hzero
      by_cases hend : file.length ≤ position offset c
      · simp only [preadBody, if_true, if_pos hend, Option.some.injEq, Next.ret.injEq] at hbody
        exact ⟨hbody.2 ▸ rfl, .inl ⟨rfl, hbody.1.symm⟩⟩
      · simp [preadBody, hend] at hbody
    · by_cases hk : k ≤ n - c ∧ position offset c + k ≤ file.length
      · simp only [preadBody, if_neg hzero, if_pos hk, Option.some.injEq, reduceCtorEq] at hbody
      · simp only [preadBody, if_neg hzero, if_neg hk, reduceCtorEq] at hbody
  | failed err =>
    obtain ⟨hcode, hs', hne⟩ := retry_ret hbody
    exact ⟨hs', .inr ⟨hcode, err, hne, rfl⟩⟩

/-- Until the cursor wraps the bytes below it are those of the file at the offset. -/
theorem pread_read (hn : dest.length < 2 ^ 63) (hoffset : offset < 2 ^ 64)
    (hfile : file.length < 2 ^ 63)
    (reaches : Reaches dest.length (preadBody file offset dest.length) (dest, e) rs c s) :
    s.1.length = dest.length ∧ (c ≤ dest.length →
      (c = 0 ∨ offset + c ≤ file.length) ∧ s.1.take c = (file.drop offset).take c) := by
  induction reaches with
  | start => exact ⟨rfl, fun _ => ⟨.inl rfl, rfl⟩⟩
  | @next rs c s s' r reaches hlt hbody ih =>
    obtain ⟨hlen, hbelow⟩ := ih
    obtain ⟨hinside, hread⟩ := hbelow hlt.le
    have hposition : position offset c = offset + c := position_of_lt (by omega)
    cases r with
    | count k =>
      obtain ⟨hpos, hk, hfits, hs'⟩ := preadBody_count hbody
      have hcursor : add64 c (Result.count k).value = c + k := add64_count (by omega)
      rw [hposition] at hfits hs'
      have hpiece : ((file.drop (offset + c)).take k).length = k := by
        rw [List.length_take, List.length_drop]
        omega
      rw [hcursor, hs']
      constructor
      · rw [length_putBytes (by omega), hlen]
      · intro hle
        refine ⟨by omega, ?_⟩
        have htake := take_putBytes s.1 ((file.drop (offset + c)).take k) (c := c) (by omega)
        rw [hpiece] at htake
        rw [htake, hread, List.take_add, List.drop_drop]
    | failed err =>
      obtain ⟨rfl, rfl⟩ := retry_add hbody
      refine ⟨hlen, fun hle => ?_⟩
      rcases Nat.eq_zero_or_pos c with rfl | hpos
      · have hwrapped : add64 0 (Result.failed .intr).value = 2 ^ 64 - 1 := add64_wrapped
        omega
      · have hcursor : add64 c (Result.failed .intr).value = c - 1 := add64_back hpos (by omega)
        refine ⟨by omega, ?_⟩
        have hback := congrArg (List.take (c - 1)) hread
        rwa [List.take_take, List.take_take, Nat.min_eq_left (by omega), ← hcursor] at hback

theorem iPreadAll_iff (hpos : dest ≠ []) (hn : dest.length < 2 ^ 63) (hoffset : offset < 2 ^ 64)
    (hfile : file.length < 2 ^ 63) (hrun : iPreadAll dest offset file e rs = some o) :
    ReadsExactly dest.length offset file rs o ↔ Clear rs := by
  rcases transferAll_cases (List.length_pos_iff.mpr hpos) hrun with
    ⟨c, s, reaches, hend, rfl⟩ | ⟨init, r, c, s, code, s', rfl, reaches, hlt, hbody, rfl⟩
  · rcases reaches.cursor pread_resumes hn with ⟨-, hle, clear⟩ | ⟨hwrapped, hclear⟩
    · obtain rfl : c = dest.length := Nat.le_antisymm hle hend
      obtain ⟨hlen, hbelow⟩ := pread_read hn hoffset hfile reaches
      rw [assert_pos rfl, ok_bind, i64_of_lt hn]
      refine iff_of_true ⟨fun _ => ?_, fun hneg => by omega⟩ clear
      refine ⟨s.1.take dest.length, ?_, List.take_prefix _ _, ?_, fun hshort => ?_⟩
      · rw [List.length_take, hlen, Nat.min_self]
      · rw [(hbelow hle).2]
        exact List.take_prefix _ _
      · exact absurd hshort (lt_irrefl _)
    · rw [assert, if_neg (by omega)]
      exact iff_of_false id hclear
  · have hclear : Clear init := by
      rcases reaches.cursor pread_resumes hn with ⟨-, -, clear⟩ | ⟨hwrapped, -⟩
      · exact clear
      · omega
    obtain ⟨hlen, hbelow⟩ := pread_read hn hoffset hfile reaches
    obtain ⟨hs', hcase⟩ := preadBody_ret hbody
    obtain ⟨_, e₁⟩ := s
    obtain ⟨dest', e₂⟩ := s'
    subst hs'
    have hlen : dest'.length = dest.length := hlen
    rcases hcase with ⟨rfl, hcode⟩ | ⟨hcode, err, hne, rfl⟩
    · rw [hcode, i64_of_lt (by omega)]
      refine iff_of_true ⟨fun _ => ?_, fun hneg => by omega⟩
        (clear_snoc.mpr ⟨hclear, Result.noConfusion⟩)
      refine ⟨dest'.take c, ?_, List.take_prefix _ _, ?_, fun _ => List.getLast?_concat⟩
      · rw [List.length_take, hlen, Nat.min_eq_left hlt.le]
      · have hread : dest'.take c = (file.drop offset).take c := (hbelow hlt.le).2
        rw [hread]
        exact List.take_prefix _ _
    · rw [hcode]
      have hfails : Fails (init ++ [.failed err]) := fails_snoc hne
      refine iff_of_true ⟨fun h => absurd h (by decide), fun _ => hfails⟩ ?_
      exact clear_snoc.mpr ⟨hclear, fun heq => absurd (Result.failed.inj heq) hne⟩

end Files

/-- The bytes taken are reported if and only if no call of `read` is interrupted, none
blocks but the first one, and no call of `pread` is interrupted at the start. -/
theorem reads_exactly_iff {dest : List UInt8} (hpos : dest ≠ []) (hn : dest.length < 2 ^ 63)
    (rs : List Result) :
    (∀ stream e o, iReadAll dest stream e rs = some o →
        (TakesExactly dest.length stream rs o ↔
          .failed .intr ∉ rs ∧ (.failed .wouldBlock ∈ rs → rs = [.failed .wouldBlock]))) ∧
      ∀ offset file e o, offset < 2 ^ 64 → file.length < 2 ^ 63 →
        iPreadAll dest offset file e rs = some o →
        (ReadsExactly dest.length offset file rs o ↔ Clear rs) :=
  ⟨fun _ _ _ hrun => iReadAll_iff hpos hn hrun,
    fun _ _ _ _ hoffset hfile hrun => iPreadAll_iff hpos hn hoffset hfile hrun⟩

/-- Two short reads of two bytes. -/
theorem reads_exactly_short :
    TakesExactly 2 [97, 98, 99] [.count 1, .count 1] (.ok (2, ([97, 98], [99]), errorCreate)) ∧
      ReadsExactly 2 1 [97, 98, 99] [.count 1, .count 1] (.ok (2, [98, 99], errorCreate)) := by
  have hnone : ∀ err, Result.failed err ∉ [Result.count 1, .count 1] := by
    intro err
    simp
  have hread : iReadAll [0, 0] [97, 98, 99] errorCreate [.count 1, .count 1] =
      some (.ok (2, ([97, 98], [99]), errorCreate)) := rfl
  have hpread : iPreadAll [0, 0] 1 [97, 98, 99] errorCreate [.count 1, .count 1] =
      some (.ok (2, [98, 99], errorCreate)) := rfl
  obtain ⟨htakes, hreads⟩ :=
    reads_exactly_iff (List.cons_ne_nil 0 [0]) (by decide) [.count 1, .count 1]
  exact ⟨(htakes _ _ _ hread).mpr ⟨hnone _, fun h => absurd h (hnone _)⟩,
    (hreads _ _ _ _ (by decide) (by decide) hpread).mpr (clear_of_notMem (hnone _))⟩

/-- A byte that was read is not reported when the next call is interrupted, and an
interruption of the first `pread` fails the assertion. -/
theorem interrupted_reads :
    iReadAll [0, 0] [97, 98] errorCreate [.count 1, .failed .intr] =
        some (.ok (0, ([97, 0], [98]), errorCreate)) ∧
      ¬ TakesExactly 2 [97, 98] [.count 1, .failed .intr] (.ok (0, ([97, 0], [98]), errorCreate)) ∧
      iPreadAll [0] 0 [97] errorCreate [.failed .intr] = some (.error .assertion) ∧
      ¬ ReadsExactly 1 0 [97] [.failed .intr] (.error .assertion) := by
  refine ⟨rfl, fun h => ?_, rfl, id⟩
  obtain ⟨taken, hzero, -, hsame, -⟩ := h.1 (le_refl 0)
  obtain rfl : taken = [] := List.eq_nil_of_length_eq_zero (by omega)
  exact absurd hsame (by decide)

end FileTransfers
