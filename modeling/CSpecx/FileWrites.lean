import CSpecx.FileTransfers

/-!
# Writes of every byte once

An interruption subtracts one from the cursor. `i_write_all` then sends a byte
again, `i_pwrite_all` stores it again at its place; at the start the cursor
wraps and both loops end.
-/

namespace FileTransfers

open CExec CellMemory Errors TransferLoop

/-- On success the source is appended once, and an error has a reason other than
an interruption. -/
def AppendsOnce (src file : List UInt8) (rs : List Result) :
    Outcome (Int × List UInt8 × ErrorObject) → Prop
  | .error _ => False
  | .ok (code, file', _) => (code = success → file' = file ++ src) ∧ (code ≠ success → Fails rs)

/-- On success the source is at its place and the rest of the file is unchanged. -/
def PlacesOnce (src : List UInt8) (offset : Nat) (file : Nat → UInt8) (rs : List Result) :
    Outcome (Int × (Nat → UInt8) × ErrorObject) → Prop
  | .error _ => False
  | .ok (code, file', _) =>
    (code = success → load file' offset src.length = src ∧
      ∀ i, i < offset ∨ offset + src.length ≤ i → file' i = file i) ∧
    (code ≠ success → Fails rs)

section Writes

variable {src file : List UInt8} {e : ErrorObject} {rs : List Result} {r : Result} {c : Nat}
  {s : List UInt8 × ErrorObject} {offset : Nat} {mem : Nat → UInt8}
  {t : (Nat → UInt8) × ErrorObject} {o : Outcome (Int × List UInt8 × ErrorObject)}
  {p : Outcome (Int × (Nat → UInt8) × ErrorObject)}

theorem writeBody_count {k : Nat} {s' : List UInt8 × ErrorObject}
    (hbody : writeBody src c s (.count k) = some (.add s')) :
    k ≤ src.length - c ∧ s'.1 = s.1 ++ (src.drop c).take k := by
  by_cases hk : 0 < k ∧ k ≤ src.length - c
  · simp only [writeBody, if_pos hk, Option.some.injEq, Next.add.injEq] at hbody
    exact ⟨hk.2, hbody ▸ rfl⟩
  · simp [writeBody, hk] at hbody

theorem write_resumes : Resumes src.length (writeBody src) where
  count _ _ _ _ hbody := (writeBody_count hbody).1
  failed _ _ _ _ hbody := (retry_add hbody).1

/-- An iteration returns only with a failure that is not an interruption. -/
theorem writeBody_ret {code : Int} {s' : List UInt8 × ErrorObject}
    (hbody : writeBody src c s r = some (.ret code s')) :
    code = errIo ∧ ∃ err, err ≠ .intr ∧ r = .failed err := by
  cases r with
  | count k =>
    by_cases hk : 0 < k ∧ k ≤ src.length - c <;> simp [writeBody, hk] at hbody
  | failed err =>
    obtain ⟨hcode, -, hne⟩ := retry_ret hbody
    exact ⟨hcode, err, hne, rfl⟩

/-- Without interruptions the file ends with the bytes below the cursor. -/
theorem write_appended (hn : src.length < 2 ^ 63)
    (reaches : Reaches src.length (writeBody src) (file, e) rs c s) (h : .failed .intr ∉ rs) :
    s.1 = file ++ src.take c := by
  induction reaches with
  | start => exact (List.append_nil file).symm
  | @next rs c s s' r reaches hlt hbody ih =>
    rw [List.mem_append, not_or] at h
    cases r with
    | count k =>
      obtain ⟨hk, hfile⟩ := writeBody_count hbody
      have hcursor : add64 c (Result.count k).value = c + k := add64_count (by omega)
      rw [hfile, ih h.1, hcursor, List.take_add, List.append_assoc]
    | failed err =>
      obtain ⟨rfl, -⟩ := retry_add hbody
      exact absurd (List.mem_singleton_self _) h.2

/-- Every interruption makes the file one byte longer than the results tell. -/
theorem write_length (reaches : Reaches src.length (writeBody src) (file, e) rs c s) :
    (s.1.length : Int) = file.length + total rs + rs.count (.failed .intr) := by
  induction reaches with
  | start => simp
  | @next rs c s s' r reaches hlt hbody ih =>
    rw [total_snoc, List.count_append]
    cases r with
    | count k =>
      obtain ⟨hk, hfile⟩ := writeBody_count hbody
      have hpiece : ((src.drop c).take k).length = k := by
        rw [List.length_take, List.length_drop, Nat.min_eq_left hk]
      have hnone : [Result.count k].count (.failed .intr) = 0 := by simp
      rw [hfile, List.length_append, hpiece, hnone, Result.value]
      omega
    | failed err =>
      obtain ⟨rfl, rfl⟩ := retry_add hbody
      have hone : [Result.failed .intr].count (.failed .intr) = 1 := by simp
      rw [hone, Result.value]
      omega

theorem iWriteAll_iff (hpos : src ≠ []) (hn : src.length < 2 ^ 63)
    (hrun : iWriteAll src file e rs = some o) :
    AppendsOnce src file rs o ↔ .failed .intr ∉ rs ∨ Fails rs := by
  rcases transferAll_cases (List.length_pos_iff.mpr hpos) hrun with
    ⟨c, s, reaches, hend, rfl⟩ | ⟨init, r, c, s, code, s', rfl, reaches, hlt, hbody, rfl⟩
  · have hquiet : ¬ Fails rs := reaches.quiet write_resumes
    rcases reaches.cursor write_resumes hn with ⟨htotal, hle, -⟩ | ⟨hwrapped, hclear⟩
    · obtain rfl : c = src.length := Nat.le_antisymm hle hend
      rw [assert_pos rfl, ok_bind]
      constructor
      · intro honce
        left
        intro hmem
        have hfile := congrArg List.length (honce.1 rfl)
        have hlength := write_length reaches
        have hcount := List.count_pos_iff.mpr hmem
        rw [List.length_append] at hfile
        omega
      · rintro (hnone | hfails)
        · refine ⟨fun _ => ?_, fun hne => absurd rfl hne⟩
          rw [write_appended hn reaches hnone, List.take_length]
        · exact absurd hfails hquiet
    · rw [assert, if_neg (by omega)]
      constructor
      · exact False.elim
      · rintro (hnone | hfails)
        · exact hclear (clear_of_notMem hnone)
        · exact hquiet hfails
  · obtain ⟨rfl, err, hne, rfl⟩ := writeBody_ret hbody
    have hfails : Fails (init ++ [.failed err]) := fails_snoc hne
    exact iff_of_true ⟨fun hcode => absurd hcode (by decide), fun _ => hfails⟩ (.inr hfails)

theorem pwriteBody_count {k : Nat} {t' : (Nat → UInt8) × ErrorObject}
    (hbody : pwriteBody src offset c t (.count k) = some (.add t')) :
    0 < k ∧ k ≤ src.length - c ∧ position offset c + k < 2 ^ 63 ∧
      t'.1 = store t.1 (position offset c) ((src.drop c).take k) := by
  by_cases hk : 0 < k ∧ k ≤ src.length - c ∧ position offset c + k < 2 ^ 63
  · simp only [pwriteBody, if_pos hk, Option.some.injEq, Next.add.injEq] at hbody
    exact ⟨hk.1, hk.2.1, hk.2.2, hbody ▸ rfl⟩
  · simp only [pwriteBody, if_neg hk, reduceCtorEq] at hbody

theorem pwrite_resumes : Resumes src.length (pwriteBody src offset) where
  count _ _ _ _ hbody := (pwriteBody_count hbody).2.1
  failed _ _ _ _ hbody := (retry_add hbody).1

theorem pwriteBody_ret {code : Int} {t' : (Nat → UInt8) × ErrorObject}
    (hbody : pwriteBody src offset c t r = some (.ret code t')) :
    code = errIo ∧ ∃ err, err ≠ .intr ∧ r = .failed err := by
  cases r with
  | count k =>
    by_cases hk : 0 < k ∧ k ≤ src.length - c ∧ position offset c + k < 2 ^ 63
    · simp only [pwriteBody, if_pos hk, Option.some.injEq, reduceCtorEq] at hbody
    · simp only [pwriteBody, if_neg hk, reduceCtorEq] at hbody
  | failed err =>
    obtain ⟨hcode, -, hne⟩ := retry_ret hbody
    exact ⟨hcode, err, hne, rfl⟩

/-- Until the cursor wraps the file has the bytes below it at their place. -/
theorem pwrite_placed (hn : src.length < 2 ^ 63) (hoffset : offset < 2 ^ 64)
    (reaches : Reaches src.length (pwriteBody src offset) (mem, e) rs c t) :
    (c ≤ src.length → (c = 0 ∨ offset < 2 ^ 63) ∧ load t.1 offset c = src.take c) ∧
      ∀ i, i < offset ∨ offset + src.length ≤ i → t.1 i = mem i := by
  induction reaches with
  | start => exact ⟨fun _ => ⟨.inl rfl, rfl⟩, fun _ _ => rfl⟩
  | @next rs c t t' r reaches hlt hbody ih =>
    obtain ⟨hbelow, houtside⟩ := ih
    obtain ⟨hsmall, hload⟩ := hbelow hlt.le
    have hposition : position offset c = offset + c := position_of_lt (by omega)
    cases r with
    | count k =>
      obtain ⟨hpos, hk, hfits, hmem⟩ := pwriteBody_count hbody
      have hcursor : add64 c (Result.count k).value = c + k := add64_count (by omega)
      have hpiece : ((src.drop c).take k).length = k := by
        rw [List.length_take, List.length_drop, Nat.min_eq_left hk]
      rw [hposition] at hfits hmem
      rw [hmem, hcursor]
      constructor
      · intro hle
        refine ⟨by omega, ?_⟩
        have hinside : load (store t.1 (offset + c) ((src.drop c).take k)) (offset + c) k =
            (src.drop c).take k := load_store_of_length hpiece
        rw [load_add, load_store_of_disjoint (by omega), hload, hinside, List.take_add]
      · intro i hi
        rw [store_outside (by omega)]
        exact houtside i hi
    | failed err =>
      obtain ⟨rfl, rfl⟩ := retry_add hbody
      refine ⟨fun hle => ?_, houtside⟩
      rcases Nat.eq_zero_or_pos c with rfl | hpos
      · have hwrapped : add64 0 (Result.failed .intr).value = 2 ^ 64 - 1 := add64_wrapped
        omega
      · have hcursor : add64 c (Result.failed .intr).value = c - 1 := add64_back hpos (by omega)
        refine ⟨by omega, ?_⟩
        have hback := congrArg (List.take (c - 1)) hload
        rwa [take_load, List.take_take, Nat.min_eq_left (by omega), ← hcursor] at hback

theorem iPwriteAll_iff (hpos : src ≠ []) (hn : src.length < 2 ^ 63) (hoffset : offset < 2 ^ 64)
    (hrun : iPwriteAll src offset mem e rs = some p) :
    PlacesOnce src offset mem rs p ↔ Clear rs := by
  rcases transferAll_cases (List.length_pos_iff.mpr hpos) hrun with
    ⟨c, t, reaches, hend, rfl⟩ | ⟨init, r, c, t, code, t', rfl, reaches, hlt, hbody, rfl⟩
  · rcases reaches.cursor pwrite_resumes hn with ⟨-, hle, clear⟩ | ⟨hwrapped, hclear⟩
    · obtain rfl : c = src.length := Nat.le_antisymm hle hend
      obtain ⟨hbelow, houtside⟩ := pwrite_placed hn hoffset reaches
      rw [assert_pos rfl, ok_bind]
      refine iff_of_true ⟨fun _ => ⟨?_, houtside⟩, fun hne => absurd rfl hne⟩ clear
      rw [(hbelow hle).2, List.take_length]
    · rw [assert, if_neg (by omega)]
      exact iff_of_false id hclear
  · obtain ⟨rfl, err, hne, rfl⟩ := pwriteBody_ret hbody
    have hfails : Fails (init ++ [.failed err]) := fails_snoc hne
    have hclear : Clear init := by
      rcases reaches.cursor pwrite_resumes hn with ⟨-, -, clear⟩ | ⟨hwrapped, -⟩
      · exact clear
      · omega
    refine iff_of_true ⟨fun hcode => absurd hcode (by decide), fun _ => hfails⟩ ?_
    exact clear_snoc.mpr ⟨hclear, fun heq => absurd (Result.failed.inj heq) hne⟩

/-- Every byte is written exactly once if and only if no call of `write` is interrupted,
or one fails otherwise, and no call of `pwrite` is interrupted at the start. -/
theorem writes_once_iff (hpos : src ≠ []) (hn : src.length < 2 ^ 63) (rs : List Result) :
    (∀ file e o, iWriteAll src file e rs = some o →
        (AppendsOnce src file rs o ↔ .failed .intr ∉ rs ∨ Fails rs)) ∧
      ∀ offset mem e p, offset < 2 ^ 64 → iPwriteAll src offset mem e rs = some p →
        (PlacesOnce src offset mem rs p ↔ Clear rs) :=
  ⟨fun _ _ _ hrun => iWriteAll_iff hpos hn hrun,
    fun _ _ _ _ hoffset hrun => iPwriteAll_iff hpos hn hoffset hrun⟩

/-- Two short writes of two bytes. -/
theorem writes_once_short :
    AppendsOnce [97, 98] [] [.count 1, .count 1] (.ok (success, [97, 98], errorCreate)) ∧
      ∃ file, PlacesOnce [97, 98] 3 (fun _ => 0) [.count 1, .count 1]
        (.ok (success, file, errorCreate)) := by
  have hnone : Result.failed .intr ∉ [Result.count 1, .count 1] := by decide
  have hwrite : iWriteAll [97, 98] [] errorCreate [.count 1, .count 1] =
      some (.ok (success, [97, 98], errorCreate)) := rfl
  have hpwrite : iPwriteAll [97, 98] 3 (fun _ => 0) errorCreate [.count 1, .count 1] =
      some (.ok (success, store (store (fun _ => 0) 3 [97]) 4 [98], errorCreate)) := rfl
  obtain ⟨happends, hplaces⟩ :=
    writes_once_iff (List.cons_ne_nil 97 [98]) (by decide) [.count 1, .count 1]
  exact ⟨(happends _ _ _ hwrite).mpr (.inl hnone),
    _, (hplaces _ _ _ _ (by decide) hpwrite).mpr (clear_of_notMem hnone)⟩

/-- An interruption behind the first byte sends it twice, and one before it fails the
assertion. -/
theorem interrupted_writes :
    iWriteAll [97, 98] [] errorCreate [.count 1, .failed .intr, .count 2] =
        some (.ok (success, [97, 97, 98], errorCreate)) ∧
      ¬ AppendsOnce [97, 98] [] [.count 1, .failed .intr, .count 2]
        (.ok (success, [97, 97, 98], errorCreate)) ∧
      iPwriteAll [97] 0 (fun _ => 0) errorCreate [.failed .intr] = some (.error .assertion) ∧
      ¬ PlacesOnce [97] 0 (fun _ => 0) [.failed .intr] (.error .assertion) :=
  ⟨rfl, fun h => absurd (h.1 rfl) (by decide), rfl, id⟩

end Writes

end FileTransfers
