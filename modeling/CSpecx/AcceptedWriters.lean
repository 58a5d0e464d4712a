import CSpecx.BlockRandom
import CSpecx.DifferentialTests
import CSpecx.PartialElements

/-!
# Accepted writers

What the random test does on two writers that keep the same byte sequence: the
test draws operations in range only, and none of its checks fails. A test that
ends on an empty sequence stops at the assertion of `i_malloc`, since the full
read at its end asks for no byte.
-/

namespace AcceptedWriters

open CExec Errors ByteSequence DataValidator DifferentialTests BlockRandom

/-- A writer that keeps a byte sequence, `Rep` says which, and leaves the error object alone. -/
structure Implements {τ : Type} (w : DataWriter τ) (Rep : τ → List UInt8 → Prop) : Prop where
  insert : ∀ {c : τ} {xs src : List UInt8} {ofst : Nat} (e : ErrorObject), Rep c xs →
    ofst ≤ xs.length → src ≠ [] → xs.length + src.length < 2 ^ 31 →
    ∃ c', w.insert c ofst src e = .ok (src.length, c', e) ∧
      Rep c' (xs.take ofst ++ src ++ xs.drop ofst)
  read : ∀ {c : τ} {xs : List UInt8} {str : Stride} {size : Nat} (e : ErrorObject), Rep c xs →
    InRange str size xs.length →
    ∃ c', w.read c str size e = .ok (elements str size xs, selected str size xs, c', e) ∧ Rep c' xs
  write : ∀ {c : τ} {xs : List UInt8} {str : Stride} {size : Nat} (src : Nat → UInt8)
    (e : ErrorObject), Rep c xs → InRange str size xs.length →
    ∃ c', w.write c str size src e = .ok (elements str size xs, c', e) ∧
      Rep c' (overwritten str size src xs)
  remove : ∀ {c : τ} {xs : List UInt8} {str : Stride} {size : Nat} (e : ErrorObject), Rep c xs →
    InRange str size xs.length →
    ∃ c', w.remove c str size e = .ok (elements str size xs, selected str size xs, c', e) ∧
      Rep c' (remaining str size xs)
  getlen : ∀ {c : τ} {xs : List UInt8} (e : ErrorObject), Rep c xs →
    ∃ c', w.getlen c e = .ok (xs.length, c', e) ∧ Rep c' xs

variable {ρ σ : Type}

/-- Two writers of byte sequences, and a check that leaves the error object alone. -/
structure Correct (d : Dvalidtr ρ σ) (Ref : ρ → List UInt8 → Prop) (Sut : σ → List UInt8 → Prop) :
    Prop where
  ref : Implements d.ref Ref
  sut : Implements d.sut Sut
  isvalid : ∀ isvalid ∈ d.isvalid, ∀ {c : σ} {xs : List UInt8} (e : ErrorObject), Sut c xs →
    ∃ n, isvalid c e = .ok (n, e)

/-- Both contexts hold `xs`. -/
structure Holds (Ref : ρ → List UInt8 → Prop) (Sut : σ → List UInt8 → Prop) (e : ErrorObject)
    (s : Session ρ σ) (xs : List UInt8) : Prop where
  ref : Ref s.ref xs
  sut : Sut s.sut xs
  error : s.e = e

section Arrays

open ExtArrays

theorem ext_array_implements (grown : ExtArray → Nat → UInt8) :
    Implements (extArrayDataWriter grown) Represents where
  insert {c _ src _} e rep hofst hsrc hsmall := by
    obtain ⟨c', hrun, rep'⟩ := extArrayInsert_spec rep (grown c) hofst hsrc hsmall
    refine ⟨c', ?_, rep'⟩
    have hlen : errT src.length = src.length := errT_of_lt (by omega)
    simp only [extArrayDataWriter, extArrayInsertFunc, hrun, ok_bind, hlen]
  read {c _ _ _} e rep range := by
    refine ⟨c, ?_, rep⟩
    simp only [extArrayDataWriter, extArrayReadFunc, extArrayRead_spec rep (rep.length ▸ range),
      ok_bind]
  write src e rep range := by
    obtain ⟨c', hrun, rep'⟩ := extArrayWrite_spec rep (rep.length ▸ range) src
    refine ⟨c', ?_, rep'⟩
    simp only [extArrayDataWriter, extArrayWriteFunc, hrun, ok_bind]
  remove e rep range := by
    obtain ⟨c', hrun, rep'⟩ := extArrayRemove_spec rep (rep.length ▸ range) true
    refine ⟨c', ?_, rep'⟩
    simp only [extArrayDataWriter, extArrayRemoveFunc, hrun, ok_bind, if_true]
  getlen {c _} e rep := ⟨c, by rw [rep.length]; rfl, rep⟩

theorem ext_arrays_correct (grown grown' : ExtArray → Nat → UInt8) :
    Correct ⟨extArrayDataWriter grown, extArrayDataWriter grown', none⟩ Represents Represents :=
  ⟨ext_array_implements grown, ext_array_implements grown', fun _ h => nomatch h⟩

end Arrays

theorem elements_le {str : Stride} {size : Nat} (xs : List UInt8) :
    elements str size xs ≤ str.nelems :=
  (Strided.Selection.count_whole (str.selection size) xs.length).1

/-- The same bytes are found to be the same. -/
theorem sameBytes_self {str : Stride} {size : Nat} {xs bytes : List UInt8}
    (range : Bounded str size) :
    sameBytes str size (elements str size xs) bytes bytes = .ok true := by
  have hroom : ((elements str size xs : Nat) : Int).toNat * size % 2 ^ 64 ≤
      u32 str.nelems * size := by
    rw [Int.toNat_natCast, u32_of_lt range.nelems_lt]
    exact le_trans (Nat.mod_le _ _) (Nat.mul_le_mul_right size (elements_le xs))
  simp only [sameBytes, access_pos hroom, ok_bind, beq_self_eq_true]

section Checks

variable {d : Dvalidtr ρ σ} {Ref : ρ → List UInt8 → Prop} {Sut : σ → List UInt8 → Prop}
  {e : ErrorObject} {s : Session ρ σ} {xs ys : List UInt8} {str : Stride} {size : Nat}
  (correct : Correct d Ref Sut)

include correct

theorem readChecks_pass (holds : Holds Ref Sut e s xs) (range : InRange str size xs.length) :
    ∃ t, readChecks d str size s = .ok t ∧ Holds Ref Sut e t xs := by
  obtain ⟨ref, href, hRef⟩ := correct.ref.read s.e holds.ref range
  obtain ⟨sut, hsut, hSut⟩ := correct.sut.read s.e holds.sut range
  refine ⟨moved s ref sut, ?_, hRef, hSut, holds.error⟩
  have hcount : ¬ (elements str size xs : Int) < 0 := by omega
  simp only [readChecks, href, ok_bind, if_neg hcount, Session.setRef, hsut, Session.setSut,
    ne_eq, not_true_eq_false, if_false, sameBytes_self range.toBounded, Bool.true_eq_false, moved]

theorem lightValidate_pass (holds : Holds Ref Sut e s xs) :
    ∃ t, dvalidtrLightValidate d s = .ok (success, t) ∧ Holds Ref Sut e t xs := by
  obtain ⟨sut, hsut, hSut⟩ := correct.sut.getlen s.e holds.sut
  obtain ⟨ref, href, hRef⟩ := correct.ref.getlen s.e holds.ref
  refine ⟨moved s ref sut, ?_, hRef, hSut, holds.error⟩
  have hlen : ¬ (xs.length : Int) < 0 := by omega
  simp only [dvalidtrLightValidate, hsut, ok_bind, if_neg hlen, Session.setSut, href,
    Session.setRef, ne_eq, not_true_eq_false, if_false, moved]

theorem checkValid_pass (holds : Holds Ref Sut e s xs) :
    ∃ t, checkValid d s = .ok t ∧ Holds Ref Sut e t xs := by
  unfold checkValid
  cases hvalid : d.isvalid with
  | none => exact ⟨s, rfl, holds⟩
  | some isvalid =>
    obtain ⟨n, hn⟩ := correct.isvalid isvalid hvalid s.e holds.sut
    exact ⟨s.setError s.e, bind_eq_ok.mpr ⟨_, hn, rfl⟩, holds⟩

end Checks

section Operations

variable {d : Dvalidtr ρ σ} {Ref : ρ → List UInt8 → Prop} {Sut : σ → List UInt8 → Prop}
  {e : ErrorObject} {s : Session ρ σ} {xs ys : List UInt8} {str : Stride} {size ofst slen : Nat}

theorem Holds.trace (holds : Holds Ref Sut e s xs) (fresh : e.causeCode = success) :
    errorTrace s.e = success := by
  rw [errorTrace, holds.error]
  exact fresh

theorem setError_self : s.setError s.e = s := rfl

/-- The test of a code in C. -/
theorem success_passes : ¬ success ≠ 0 := not_not.mpr rfl

/-- The bytes of the elements a call asks for. -/
theorem room_lt (range : Bounded str size) : str.nelems * size < 2 ^ 32 := by
  refine lt_of_le_of_lt (Nat.mul_le_mul_right size ?_) range.bound
  exact le_trans (Nat.le_mul_of_pos_right str.nelems range.stride_pos) (Nat.le_add_left _ _)

theorem iMalloc_pass (range : Bounded str size) :
    iMalloc true (u32 str.nelems) size e = .ok (true, e) := by
  rw [u32_of_lt range.nelems_lt]
  exact iMalloc_granted range.nelems_pos range.size_pos (room_lt range)

theorem withBuffers_pass {body : Session ρ σ → Outcome (Session ρ σ)}
    (fresh : e.causeCode = success) (range : Bounded str size)
    (hbody : ∃ t, body s = .ok t ∧ Holds Ref Sut e t ys) :
    ∃ t, withBuffers str size s body = .ok (success, t) ∧ Holds Ref Sut e t ys := by
  obtain ⟨t, hrun, holds⟩ := hbody
  refine ⟨t, ?_, holds⟩
  simp only [withBuffers, iMalloc_pass range, ok_bind, setError_self, Bool.true_eq_false,
    if_false, hrun, holds.trace fresh]

variable (correct : Correct d Ref Sut) (fresh : e.causeCode = success)

include correct fresh

theorem dvalidtrRead_pass (holds : Holds Ref Sut e s xs) (range : InRange str size xs.length) :
    ∃ t, dvalidtrRead d str size s = .ok (success, t) ∧ Holds Ref Sut e t xs :=
  withBuffers_pass fresh range.toBounded (readChecks_pass correct holds range)

/-- The read behind an insertion. -/
theorem insertChecks_pass (holds : Holds Ref Sut e s xs) (hofst : ofst < 2 ^ 31) (hpos : 0 < slen)
    (hslen : slen < 2 ^ 31) : ∃ t, insertChecks d ofst slen s = .ok t ∧ Holds Ref Sut e t xs := by
  have range : InRange ⟨ofst, 1, slen⟩ 1 xs.length := by
    refine ⟨⟨Nat.one_pos, Nat.one_pos, hpos, ?_⟩, Nat.one_dvd _⟩
    rw [Nat.mul_one, Nat.mul_one]
    exact Nat.add_lt_add hofst hslen
  obtain ⟨t, hread, holds₁⟩ := dvalidtrRead_pass correct fresh holds range
  obtain ⟨u, hlight, holds₂⟩ := lightValidate_pass correct holds₁
  obtain ⟨v, hvalid, holds₃⟩ := checkValid_pass correct holds₂
  refine ⟨v, ?_, holds₃⟩
  have hcode : ¬ success < 0 := by decide
  simp only [insertChecks, hread, ok_bind, if_neg hcode, hlight, if_neg success_passes, hvalid]

theorem insertBoth_pass (holds : Holds Ref Sut e s xs) (hofst : ofst ≤ xs.length)
    (hpos : 0 < slen) (hsmall : xs.length + slen < 2 ^ 31) :
    ∃ t, insertBoth d ofst (ptrRange slen) s = .ok t ∧
      Holds Ref Sut e t (xs.take ofst ++ ptrRange slen ++ xs.drop ofst) := by
  have hlen := length_ptrRange slen
  have hsrc : ptrRange slen ≠ [] := List.ne_nil_of_length_pos (by omega)
  obtain ⟨ref, href, hRef⟩ :=
    correct.ref.insert s.e holds.ref hofst hsrc (by rw [hlen]; exact hsmall)
  obtain ⟨sut, hsut, hSut⟩ :=
    correct.sut.insert s.e holds.sut hofst hsrc (by rw [hlen]; exact hsmall)
  have holds₁ : Holds Ref Sut e (moved s ref sut) (xs.take ofst ++ ptrRange slen ++ xs.drop ofst) :=
    ⟨hRef, hSut, holds.error⟩
  obtain ⟨t, hchecks, holds₂⟩ := insertChecks_pass correct fresh holds₁
    (show ofst < 2 ^ 31 by omega) hpos (by omega)
  have hcount : ¬ (slen : Int) < 0 := by omega
  rw [hlen] at href hsut
  rw [moved] at hchecks
  refine ⟨t, ?_, holds₂⟩
  simp only [insertBoth, href, ok_bind, if_neg hcount, Session.setRef, hsut, Session.setSut, hlen,
    ne_eq, not_true_eq_false, if_false, hchecks]

theorem dvalidtrInsert_pass (holds : Holds Ref Sut e s xs) (hofst : ofst ≤ xs.length)
    (hpos : 0 < slen) (hsmall : xs.length + slen < 2 ^ 31) :
    ∃ t, dvalidtrInsert d ofst slen s = .ok (success, t) ∧
      Holds Ref Sut e t (xs.take ofst ++ ptrRange slen ++ xs.drop ofst) := by
  obtain ⟨t, hboth, holds'⟩ := insertBoth_pass correct fresh holds hofst hpos hsmall
  have hmalloc : iMalloc true slen 1 s.e = .ok (true, s.e) :=
    iMalloc_granted hpos Nat.one_pos (by omega)
  refine ⟨t, ?_, holds'⟩
  simp only [dvalidtrInsert, hmalloc, ok_bind, assert_pos, setError_self, hboth, holds'.trace fresh]

/-- Both writes, and the read behind them. -/
theorem writeBoth_pass (holds : Holds Ref Sut e s xs) (range : InRange str size xs.length) :
    ∃ t, writeBoth d str size UInt8.ofNat s = .ok t ∧
      Holds Ref Sut e t (overwritten str size UInt8.ofNat xs) := by
  obtain ⟨sut, hsut, hSut⟩ := correct.sut.write UInt8.ofNat s.e holds.sut range
  obtain ⟨ref, href, hRef⟩ := correct.ref.write UInt8.ofNat s.e holds.ref range
  have holds₁ : Holds Ref Sut e (moved s ref sut) (overwritten str size UInt8.ofNat xs) :=
    ⟨hRef, hSut, holds.error⟩
  have hlen : (overwritten str size UInt8.ofNat xs).length = xs.length := Strided.length_overlay
  obtain ⟨t, hread, holds₂⟩ := dvalidtrRead_pass correct fresh holds₁ (hlen ▸ range)
  obtain ⟨u, hvalid, holds₃⟩ := checkValid_pass correct holds₂
  have hcount : ¬ (elements str size xs : Int) < 0 := by omega
  rw [moved] at hread
  refine ⟨u, ?_, holds₃⟩
  simp only [writeBoth, hsut, ok_bind, if_neg hcount, Session.setSut, href, Session.setRef, ne_eq,
    not_true_eq_false, if_false, writeChecks, hread, if_neg success_passes, hvalid]

theorem dvalidtrWrite_pass (holds : Holds Ref Sut e s xs) (range : InRange str size xs.length) :
    ∃ t, dvalidtrWrite d str size s = .ok (success, t) ∧
      Holds Ref Sut e t (overwritten str size UInt8.ofNat xs) := by
  obtain ⟨t, hboth, holds'⟩ := writeBoth_pass correct fresh holds range
  refine ⟨t, ?_, holds'⟩
  simp only [dvalidtrWrite, iMalloc_pass range.toBounded, ok_bind, Bool.true_eq_false, if_false,
    setError_self, hboth, holds'.trace fresh]

omit fresh in
theorem removeChecks_pass (holds : Holds Ref Sut e s xs) (range : InRange str size xs.length) :
    ∃ t, removeChecks d str size s = .ok t ∧ Holds Ref Sut e t (remaining str size xs) := by
  obtain ⟨ref, href, hRef⟩ := correct.ref.remove s.e holds.ref range
  obtain ⟨sut, hsut, hSut⟩ := correct.sut.remove s.e holds.sut range
  have holds₁ : Holds Ref Sut e (moved s ref sut) (remaining str size xs) :=
    ⟨hRef, hSut, holds.error⟩
  obtain ⟨t, hlight, holds₂⟩ := lightValidate_pass correct holds₁
  obtain ⟨u, hvalid, holds₃⟩ := checkValid_pass correct holds₂
  have hcount : ¬ (elements str size xs : Int) < 0 := by omega
  rw [moved] at hlight
  refine ⟨u, ?_, holds₃⟩
  simp only [removeChecks, href, ok_bind, if_neg hcount, Session.setRef, hsut, Session.setSut,
    ne_eq, not_true_eq_false, if_false, sameBytes_self range.toBounded, Bool.true_eq_false, hlight,
    if_neg success_passes, hvalid]

theorem dvalidtrRemove_pass (holds : Holds Ref Sut e s xs) (range : InRange str size xs.length) :
    ∃ t, dvalidtrRemove d str size s = .ok (success, t) ∧
      Holds Ref Sut e t (remaining str size xs) :=
  withBuffers_pass fresh range.toBounded (removeChecks_pass correct holds range)

end Operations

/-! ## What is drawn -/

/-- An operation on `n` elements that the test may draw. -/
structure Drawable (maxInsert n : Nat) (op : Drawn) : Prop where
  insert_of_empty : n = 0 → op.choice = .insert
  start_le : op.str.start ≤ n
  stride_pos : 0 < op.str.stride
  ninsert_pos : 0 < op.ninsert
  ninsert_le : op.ninsert ≤ maxInsert
  reach : 0 < n → 0 < op.str.nelems ∧ op.str.start + op.str.nelems * op.str.stride ≤ n + 7

section Draws

variable (draws : Draws) (s : Session ρ σ) {lower upper n start stride maxInsert : Nat}

/-- The session behind `k` more draws. -/
def drew (s : Session ρ σ) (k : Nat) : Session ρ σ := { s with drawn := s.drawn + k }

theorem drew_drew (i j : Nat) : drew (drew s i) j = drew s (i + j) :=
  congrArg (fun k => { s with drawn := k }) (Nat.add_assoc s.drawn i j)

theorem randu32r_spec (h : lower ≤ upper) :
    ∃ k, randu32r draws lower upper s = .ok (k, drew s 1) ∧ lower ≤ k ∧ k ≤ upper :=
  ⟨draws.draw s.drawn lower upper, by simp only [randu32r, assert_pos h, ok_bind, drew],
    draws.lower_le s.drawn lower upper h, draws.le_upper s.drawn lower upper h⟩

theorem drawStart_spec (hn : n < 2 ^ 32) :
    ∃ start k, drawStart draws n s = .ok (start, drew s k) ∧ start ≤ n ∧ (0 < n → start < n) := by
  by_cases hpos : 0 < n
  · have hlast : sub32 (u32 n) 1 = n - 1 := by rw [u32_of_lt hn, sub32_of_le hpos hn]
    obtain ⟨start, hrun, -, hle⟩ := randu32r_spec draws s (Nat.zero_le (n - 1))
    refine ⟨start, 1, ?_, by omega, fun _ => by omega⟩
    rw [drawStart, if_pos (Int.natCast_pos.mpr hpos), Int.toNat_natCast, hlast]
    exact hrun
  · refine ⟨0, 0, ?_, Nat.zero_le n, fun h => absurd h hpos⟩
    rw [drawStart, if_neg (mt Int.natCast_pos.mp hpos)]
    rfl

theorem maxElements_eq (hn : n < 2 ^ 31) (hstart : start < n) :
    maxElements n start stride = (n - 1 - start) / stride + 1 := by
  have hlast : sub32 (u32 n) 1 = n - 1 := by
    rw [u32_of_lt (by omega), sub32_of_le (by omega) (by omega)]
  have hroom : (n - 1 + 2 ^ 64 - start) % 2 ^ 64 = n - 1 - start := by omega
  have hle : (n - 1 - start) / stride ≤ n - 1 - start := Nat.div_le_self _ _
  rw [maxElements, if_pos (Int.natCast_pos.mpr (by omega)), Int.toNat_natCast, hlast, hroom,
    u32_of_lt (by omega)]

/-- The elements drawn reach at most one stride behind the last element. -/
theorem drawElements_spec (hn : n < 2 ^ 31) (hstart : 0 < n → start < n) (hstride : 0 < stride)
    (hmax : 0 < maxInsert) :
    ∃ nelems k, drawElements draws (maxElements n start stride) maxInsert s =
      .ok (nelems, drew s k) ∧
      (0 < n → 0 < nelems ∧ start + nelems * stride ≤ n - 1 + stride) := by
  by_cases hpos : 0 < n
  · obtain ⟨q, hq⟩ : ∃ q, q = (n - 1 - start) / stride := ⟨_, rfl⟩
    have hquot : q * stride ≤ n - 1 - start := hq ▸ Nat.div_mul_le_self _ _
    have hmaxn : maxElements n start stride = q + 1 := by rw [hq, maxElements_eq hn (hstart hpos)]
    have hle : q ≤ n - 1 - start := le_trans (Nat.le_mul_of_pos_right q hstride) hquot
    have hcut : u32 (min (q + 1) maxInsert) = min (q + 1) maxInsert := u32_of_lt (by omega)
    obtain ⟨nelems, hrun, hlow, hhigh⟩ :=
      randu32r_spec draws s (show 1 ≤ min (q + 1) maxInsert by omega)
    refine ⟨nelems, 1, ?_, fun _ => ⟨hlow, ?_⟩⟩
    · rw [drawElements, hmaxn, if_pos (Nat.succ_pos q), hcut]
      exact hrun
    · have hmul : nelems * stride ≤ (q + 1) * stride := Nat.mul_le_mul_right stride (by omega)
      rw [Nat.succ_mul] at hmul
      have := hstart hpos
      omega
  · refine ⟨0, 0, ?_, fun h => absurd h hpos⟩
    rw [drawElements, maxElements, if_neg (mt Int.natCast_pos.mp hpos), if_neg (lt_irrefl 0)]
    rfl

theorem drawOperation_spec (hn : n < 2 ^ 31) (hmax : 0 < maxInsert) (hsmall : maxInsert < 2 ^ 32) :
    ∃ op k, drawOperation draws maxInsert n s = .ok (op, drew s k) ∧ Drawable maxInsert n op := by
  obtain ⟨choice, hchoice, -, -⟩ := randu32r_spec draws s (show 0 ≤ 3 by decide)
  obtain ⟨start, i, hstart, hle, hlt⟩ :=
    drawStart_spec draws (drew s 1) (show n < 2 ^ 32 by omega)
  obtain ⟨stride, hstride, hpos, hlast⟩ :=
    randu32r_spec draws (drew (drew s 1) i) (show 1 ≤ 8 by decide)
  obtain ⟨nelems, j, hnelems, hreach⟩ := drawElements_spec draws
    (drew (drew (drew s 1) i) 1) hn hlt hpos hmax
  obtain ⟨ninsert, hninsert, hone, hmost⟩ := randu32r_spec draws
    (drew (drew (drew (drew s 1) i) 1) j) (show 1 ≤ u32 maxInsert by rw [u32_of_lt hsmall]; omega)
  rw [u32_of_lt hsmall] at hmost
  refine ⟨⟨if (n : Int) = 0 then .insert else choiceOf choice, n, ⟨start, stride, nelems⟩, ninsert⟩,
    1 + (i + (1 + (j + 1))), ?_, ?_⟩
  · simp only [drawOperation, hchoice, ok_bind, hstart, hstride, hnelems, hninsert]
    rw [drew_drew, drew_drew, drew_drew, drew_drew]
  · refine ⟨fun hzero => if_pos (by omega), hle, hpos, hone, hmost, fun h => ?_⟩
    obtain ⟨hsome, hend⟩ := hreach h
    exact ⟨hsome, by show start + nelems * stride ≤ n + 7; omega⟩

theorem Drawable.inRange {op : Drawn} {size len : Nat} (drawable : Drawable maxInsert n op)
    (hpos : 0 < n) (hsize : 0 < size) (hlen : len = n * size) (room : len + 8 * size < 2 ^ 31) :
    InRange op.str size len := by
  obtain ⟨hsome, hend⟩ := drawable.reach hpos
  refine ⟨⟨hsize, drawable.stride_pos, hsome, ?_⟩, hlen ▸ Nat.dvd_mul_left size n⟩
  have hle : (op.str.start + op.str.nelems * op.str.stride) * size ≤ (n + 7) * size :=
    Nat.mul_le_mul_right size hend
  rw [Nat.add_mul n 7 size] at hle
  omega

end Draws

/-! ## The test -/

/-- `n` iterations, the first of them `k`, none of which returns. -/
inductive Iterated (d : Dvalidtr ρ σ) (draws : Draws) (size maxInsert : Nat) :
    Nat → Nat → Session ρ σ → Session ρ σ → Prop
  | none {k : Nat} {s : Session ρ σ} : Iterated d draws size maxInsert k 0 s s
  | step {k n : Nat} {s t u : Session ρ σ} :
    randomStep d draws size maxInsert k s = .ok (Option.none, t) →
    Iterated d draws size maxInsert (k + 1) n t u → Iterated d draws size maxInsert k (n + 1) s u

section Tests

variable {d : Dvalidtr ρ σ} {Ref : ρ → List UInt8 → Prop} {Sut : σ → List UInt8 → Prop}
  {e : ErrorObject} {s : Session ρ σ} {xs : List UInt8} {draws : Draws}
  {size maxInsert niters : Nat} (correct : Correct d Ref Sut) (fresh : e.causeCode = success)

/-- Whole elements are removed. -/
theorem length_remaining {str : Stride} (range : InRange str size xs.length) :
    (remaining str size xs).length + elements str size xs * size = xs.length := by
  have hsame : remaining (str.first (elements str size xs)) size xs = remaining str size xs :=
    Strided.select_congr fun p _ hp =>
      not_congr (picked_whole_iff range.stride_pos range.divides (by omega))
  rw [← hsame]
  exact ByteSequence.length_remaining_first range.toBounded

include correct fresh

theorem perform_pass {op : Drawn} (holds : Holds Ref Sut e s xs) (hsize : 0 < size)
    (divides : size ∣ xs.length) (room : xs.length + maxInsert * size + 8 * size < 2 ^ 31)
    (drawable : Drawable maxInsert (xs.length / size) op) :
    ∃ t ys, perform d size op s = .ok (success, t) ∧ Holds Ref Sut e t ys ∧ size ∣ ys.length ∧
      ys.length ≤ xs.length + maxInsert * size := by
  have hlen : xs.length = xs.length / size * size := (Nat.div_mul_cancel divides).symm
  have range : op.choice ≠ .insert → InRange op.str size xs.length := fun hchoice =>
    drawable.inRange (Nat.pos_of_ne_zero (mt drawable.insert_of_empty hchoice)) hsize
    hlen (by omega)
  unfold perform
  cases hchoice : op.choice with
  | insert =>
    have hofst : op.str.start * size ≤ xs.length := by
      rw [hlen]
      exact Nat.mul_le_mul_right size drawable.start_le
    have hslen : op.ninsert * size ≤ maxInsert * size :=
      Nat.mul_le_mul_right size drawable.ninsert_le
    have hpos : 0 < op.ninsert * size := Nat.mul_pos drawable.ninsert_pos hsize
    obtain ⟨t, hrun, holds'⟩ := dvalidtrInsert_pass correct fresh holds hofst hpos (by omega)
    have hsum : (xs.take (op.str.start * size) ++ ptrRange (op.ninsert * size) ++
        xs.drop (op.str.start * size)).length = xs.length + op.ninsert * size := by
      rw [List.length_append, List.length_append, List.length_take, List.length_drop,
        length_ptrRange]
      omega
    refine ⟨t, _, ?_, holds', ?_, by omega⟩
    · rw [u32_of_lt (by omega), u32_of_lt (by omega)]
      exact hrun
    · rw [hsum]
      exact Nat.dvd_add divides (Nat.dvd_mul_left size op.ninsert)
  | read =>
    obtain ⟨t, hrun, holds'⟩ := dvalidtrRead_pass correct fresh holds
      (range (by rw [hchoice]; decide))
    exact ⟨t, xs, hrun, holds', divides, Nat.le_add_right _ _⟩
  | remove =>
    have hrange := range (by rw [hchoice]; decide)
    obtain ⟨t, hrun, holds'⟩ := dvalidtrRemove_pass correct fresh holds hrange
    have hsplit := length_remaining hrange
    refine ⟨t, _, hrun, holds', ?_, by omega⟩
    exact (Nat.dvd_add_left (Nat.dvd_mul_left size (elements op.str size xs))).mp (hsplit ▸ divides)
  | write =>
    have hrange := range (by rw [hchoice]; decide)
    obtain ⟨t, hrun, holds'⟩ := dvalidtrWrite_pass correct fresh holds hrange
    have hsame : (overwritten op.str size UInt8.ofNat xs).length = xs.length :=
      Strided.length_overlay
    exact ⟨t, _, hrun, holds', hsame ▸ divides, by omega⟩

theorem randomStep_pass (draws : Draws) (k : Nat) (holds : Holds Ref Sut e s xs) (hsize : 0 < size)
    (hmax : 0 < maxInsert) (divides : size ∣ xs.length)
    (room : xs.length + maxInsert * size + 8 * size < 2 ^ 31) :
    ∃ t ys, randomStep d draws size maxInsert k s = .ok (none, t) ∧ Holds Ref Sut e t ys ∧
      size ∣ ys.length ∧ ys.length ≤ xs.length + maxInsert * size := by
  obtain ⟨ref, href, hRef⟩ := correct.ref.getlen s.e holds.ref
  have hsmall : maxInsert ≤ maxInsert * size := Nat.le_mul_of_pos_right maxInsert hsize
  have hcount : xs.length / size ≤ xs.length := Nat.div_le_self _ _
  obtain ⟨op, i, hdraw, drawable⟩ := drawOperation_spec draws
    (s.setRef ref s.e) (show xs.length / size < 2 ^ 31 by omega) hmax (by omega)
  have holds₁ : Holds Ref Sut e (drew (s.setRef ref s.e) i) xs := ⟨hRef, holds.sut, holds.error⟩
  obtain ⟨t, ys, hrun, holds', divides', hle⟩ :=
    perform_pass correct fresh holds₁ hsize divides room drawable
  refine ⟨t, ys, ?_, holds', divides', hle⟩
  have hlen : ¬ (xs.length : Int) < 0 := by omega
  have hcast : (xs.length : Int) / (size : Int) = ((xs.length / size : Nat) : Int) :=
    (Int.natCast_div _ _).symm
  simp only [randomStep, dvalidtrGetlen, href, ok_bind,
    errT_of_lt (show xs.length < 2 ^ 31 by omega),
    if_neg hlen, access_pos hsize, hcast, hdraw, hrun, if_neg success_passes]

/-- The full read at the end asks for a byte at least. -/
theorem validate_spec (holds : Holds Ref Sut e s xs) (hsmall : xs.length < 2 ^ 31) :
    (xs = [] → dvalidtrValidate d s = .error .assertion) ∧
      (xs ≠ [] → ∃ t, dvalidtrValidate d s = .ok (success, t) ∧ Holds Ref Sut e t xs) := by
  obtain ⟨t, hlight, holds₁⟩ := lightValidate_pass correct holds
  obtain ⟨ref, href, hRef⟩ := correct.ref.getlen t.e holds₁.ref
  have holds₂ : Holds Ref Sut e (t.setRef ref t.e) xs := ⟨hRef, holds₁.sut, holds₁.error⟩
  have hlen : ¬ (xs.length : Int) < 0 := by omega
  constructor
  · rintro rfl
    have hread : dvalidtrRead d ⟨0, 1, ([] : List UInt8).length⟩ 1 (t.setRef ref t.e) =
        .error .assertion := rfl
    simp only [dvalidtrValidate, hlight, ok_bind, if_neg success_passes, href, if_neg hlen,
      Int.toNat_natCast, hread, error_bind]
  · intro hsome
    have range : InRange ⟨0, 1, xs.length⟩ 1 xs.length := by
      refine ⟨⟨Nat.one_pos, Nat.one_pos, List.length_pos_iff.mpr hsome, ?_⟩, Nat.one_dvd _⟩
      rw [Nat.mul_one, Nat.mul_one, Nat.zero_add]
      exact lt_trans hsmall (by decide)
    obtain ⟨u, hread, holds₃⟩ := dvalidtrRead_pass correct fresh holds₂ range
    refine ⟨u, ?_, holds₃⟩
    simp only [dvalidtrValidate, hlight, ok_bind, if_neg success_passes, href, if_neg hlen,
      Int.toNat_natCast, hread]

/-- The induction is on the iterations left: both sequences grow by `maxInsert` elements at most. -/
theorem randomLoop_pass (k : Nat) (holds : Holds Ref Sut e s xs) (hsize : 0 < size)
    (hmax : 0 < maxInsert) (divides : size ∣ xs.length)
    (room : xs.length + niters * (maxInsert * size) + 8 * size < 2 ^ 31) :
    ∃ u ys, Iterated d draws size maxInsert k niters s u ∧ Holds Ref Sut e u ys ∧
      (ys = [] → randomLoop d draws size maxInsert niters k s = .error .assertion) ∧
      (ys ≠ [] → ∃ t, randomLoop d draws size maxInsert niters k s = .ok (success, t) ∧
        Holds Ref Sut e t ys) := by
  induction niters generalizing k s xs with
  | zero =>
    obtain ⟨hempty, hsome⟩ := validate_spec correct fresh holds (by omega)
    refine ⟨s, xs, .none, holds, fun h => ?_, fun h => ?_⟩
    · rw [randomLoop, hempty h, error_bind]
    · obtain ⟨t, hrun, holds'⟩ := hsome h
      refine ⟨t, ?_, holds'⟩
      simp only [randomLoop, hrun, ok_bind, if_neg success_passes]
  | succ n ih =>
    rw [Nat.succ_mul] at room
    obtain ⟨t, ys, hstep, holds', divides', hle⟩ := randomStep_pass correct fresh draws k
      holds hsize hmax divides (show xs.length + maxInsert * size + 8 * size < 2 ^ 31 by omega)
    obtain ⟨u, zs, iterated, hlast, hempty, hsome⟩ := ih (k + 1) holds' divides' (by omega)
    have hloop : randomLoop d draws size maxInsert (n + 1) k s =
        randomLoop d draws size maxInsert n (k + 1) t := by rw [randomLoop, hstep, ok_bind]
    rw [hloop]
    exact ⟨u, zs, .step hstep iterated, hlast, hempty, hsome⟩

/-- The test finds no fault with two writers that keep the same byte sequence: every iteration
passes, whatever is drawn, and so does the end, unless the sequence is empty there. -/
theorem writers_accepted (holds : Holds Ref Sut e s xs) (hsize : 0 < size) (hmax : 0 < maxInsert)
    (divides : size ∣ xs.length)
    (room : xs.length + niters * (maxInsert * size) + 8 * size < 2 ^ 31) :
    ∃ u ys, Iterated d draws size maxInsert 0 niters s u ∧ Holds Ref Sut e u ys ∧
      (ys = [] → dvalidtrRandomTest d draws size niters maxInsert s = .error .assertion) ∧
      (ys ≠ [] → ∃ t, dvalidtrRandomTest d draws size niters maxInsert s = .ok (success, t) ∧
        Holds Ref Sut e t ys) :=
  randomLoop_pass correct fresh 0 holds hsize hmax divides room

end Tests

/-- Two extendable arrays that find different bytes in the memory they grow into. -/
theorem writers_accepted_arrays :
    ∃ u ys, Iterated ⟨extArrayDataWriter fun _ _ => 1, extArrayDataWriter fun _ _ => 2, none⟩
        lowest 2 4 0 3 ⟨ExtArrays.extArrayCreate, ExtArrays.extArrayCreate, errorCreate, 0⟩ u ∧
      Holds ExtArrays.Represents ExtArrays.Represents errorCreate u ys ∧
      (ys = [] → dvalidtrRandomTest
        ⟨extArrayDataWriter fun _ _ => 1, extArrayDataWriter fun _ _ => 2, none⟩ lowest 2 3 4
        ⟨ExtArrays.extArrayCreate, ExtArrays.extArrayCreate, errorCreate, 0⟩ = .error .assertion) ∧
      (ys ≠ [] → ∃ t, dvalidtrRandomTest
        ⟨extArrayDataWriter fun _ _ => 1, extArrayDataWriter fun _ _ => 2, none⟩ lowest 2 3 4
        ⟨ExtArrays.extArrayCreate, ExtArrays.extArrayCreate, errorCreate, 0⟩ = .ok (success, t) ∧
        Holds ExtArrays.Represents ExtArrays.Represents errorCreate t ys) :=
  writers_accepted (ext_arrays_correct _ _) rfl
    ⟨ExtArrays.extArrayCreate_represents, ExtArrays.extArrayCreate_represents, rfl⟩ (by decide)
    (by decide) (Nat.dvd_zero 2) (by decide)

end AcceptedWriters
