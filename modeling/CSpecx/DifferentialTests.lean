import CSpecx.DataValidator

/-!
# Passed differential tests

A random test returns success at its end, or where it asks for a length and the
answer is negative while the error object is still fresh. Here a negative
answer is a failure, not a length. The lengths of two buffers to compare are
unsigned 64-bit numbers.
-/

namespace DifferentialTests

open CExec Errors ByteSequence DataValidator

/-- The five functions of a writer that never touch the error object. -/
structure LeavesError {τ : Type} (w : DataWriter τ) : Prop where
  insert : ∀ {c c' : τ} {ofst : Nat} {src : List UInt8} {e e' : ErrorObject} {n : Int},
    w.insert c ofst src e = .ok (n, c', e') → e' = e
  read : ∀ {c c' : τ} {str : Stride} {size : Nat} {e e' : ErrorObject} {n : Int}
    {bytes : List UInt8}, w.read c str size e = .ok (n, bytes, c', e') → e' = e
  write : ∀ {c c' : τ} {str : Stride} {size : Nat} {src : Nat → UInt8} {e e' : ErrorObject}
    {n : Int}, w.write c str size src e = .ok (n, c', e') → e' = e
  remove : ∀ {c c' : τ} {str : Stride} {size : Nat} {e e' : ErrorObject} {n : Int}
    {bytes : List UInt8}, w.remove c str size e = .ok (n, bytes, c', e') → e' = e
  getlen : ∀ {c c' : τ} {e e' : ErrorObject} {n : Int},
    w.getlen c e = .ok (n, c', e') → e' = e

variable {ρ σ : Type}

def moved (s : Session ρ σ) (ref : ρ) (sut : σ) : Session ρ σ := { s with ref := ref, sut := sut }

def Fresh (s : Session ρ σ) : Prop := s.e.causeCode = success

/-- Both calls return the same count, and lead to `t`. -/
def SameCount (s t : Session ρ σ) (refCall : Outcome (Int × ρ × ErrorObject))
    (sutCall : Outcome (Int × σ × ErrorObject)) : Prop :=
  ∃ (n : Nat) (ref : ρ) (sut : σ), refCall = .ok (n, ref, s.e) ∧ sutCall = .ok (n, sut, s.e) ∧
    t = moved s ref sut

/-- Both calls return the same count `n`, and the same first `bytes n` of `room` bytes. -/
def SameBytes (bytes : Nat → Nat) (room : Nat) (s t : Session ρ σ)
    (refCall : Outcome (Int × List UInt8 × ρ × ErrorObject))
    (sutCall : Outcome (Int × List UInt8 × σ × ErrorObject)) : Prop :=
  ∃ (n : Nat) (refBytes sutBytes : List UInt8) (ref : ρ) (sut : σ),
    refCall = .ok (n, refBytes, ref, s.e) ∧ sutCall = .ok (n, sutBytes, sut, s.e) ∧
    bytes n ≤ room ∧ sutBytes.take (bytes n) = refBytes.take (bytes n) ∧ t = moved s ref sut

def InsertsAgree (d : Dvalidtr ρ σ) (ofst slen : Nat) (s t : Session ρ σ) : Prop :=
  SameCount s t (d.ref.insert s.ref ofst (ptrRange slen) s.e)
    (d.sut.insert s.sut ofst (ptrRange slen) s.e)

def WritesAgree (d : Dvalidtr ρ σ) (str : Stride) (size : Nat) (s t : Session ρ σ) : Prop :=
  SameCount s t (d.ref.write s.ref str size UInt8.ofNat s.e)
    (d.sut.write s.sut str size UInt8.ofNat s.e)

def LengthsAgree (d : Dvalidtr ρ σ) (s t : Session ρ σ) : Prop :=
  SameCount s t (d.ref.getlen s.ref s.e) (d.sut.getlen s.sut s.e)

def ReadsAgree (d : Dvalidtr ρ σ) (str : Stride) (size : Nat) (s t : Session ρ σ) : Prop :=
  SameBytes (fun n => n * size) (u32 str.nelems * size) s t (d.ref.read s.ref str size s.e)
    (d.sut.read s.sut str size s.e)

def RemovesAgree (d : Dvalidtr ρ σ) (str : Stride) (size : Nat) (s t : Session ρ σ) : Prop :=
  SameBytes (fun n => n * size) (u32 str.nelems * size) s t (d.ref.remove s.ref str size s.e)
    (d.sut.remove s.sut str size s.e)

/-- The reference's length, where only it is asked. -/
def RefLength (d : Dvalidtr ρ σ) (s t : Session ρ σ) (len : Nat) : Prop :=
  ∃ ref, d.ref.getlen s.ref s.e = .ok (len, ref, s.e) ∧ t = moved s ref s.sut

def InsertAgrees (d : Dvalidtr ρ σ) (ofst slen : Nat) (s : Session ρ σ) : Prop :=
  ∃ t u v, InsertsAgree d ofst slen s t ∧ ReadsAgree d ⟨ofst, 1, slen⟩ 1 t u ∧ LengthsAgree d u v

/-- The calls of one operation agree, and behind an insertion or a removal the lengths, too. -/
def OpAgrees (d : Dvalidtr ρ σ) (size : Nat) (op : Drawn) (s : Session ρ σ) : Prop :=
  match op.choice with
  | .insert => InsertAgrees d (u32 (op.str.start * size)) (u32 (op.ninsert * size)) s
  | .read => ∃ t, ReadsAgree d op.str size s t
  | .remove => ∃ t u, RemovesAgree d op.str size s t ∧ LengthsAgree d t u
  | .write => ∃ t u, WritesAgree d op.str size s t ∧ ReadsAgree d op.str size t u

/-- The lengths agree at the end, and so do the two full reads. -/
def EndAgrees (d : Dvalidtr ρ σ) (s : Session ρ σ) : Prop :=
  ∃ t u v len, LengthsAgree d s t ∧ RefLength d t u len ∧ ReadsAgree d ⟨0, 1, len⟩ 1 u v

/-- An iteration from `s` draws `op`. -/
def Draw (d : Dvalidtr ρ σ) (draws : Draws) (size maxInsert : Nat) (s t : Session ρ σ)
    (op : Drawn) : Prop :=
  ∃ len s₁, dvalidtrGetlen d s = .ok (len, s₁) ∧ 0 ≤ len ∧
    drawOperation draws maxInsert (len / size) s₁ = .ok (op, t)

/-- Every operation of the test and its end agree. -/
def Agreed (d : Dvalidtr ρ σ) (draws : Draws) (size maxInsert : Nat) : Nat → Session ρ σ → Prop
  | 0, s => EndAgrees d s
  | n + 1, s => ∃ op t u, Draw d draws size maxInsert s t op ∧ OpAgrees d size op t ∧
    perform d size op t = .ok (success, u) ∧ Agreed d draws size maxInsert n u

/-- An answer that is a length. -/
def IsLength {τ : Type} (call : Outcome (Int × τ × ErrorObject)) : Prop :=
  ∀ n c e, call = .ok (n, c, e) → 0 ≤ n

def LengthsKnown (d : Dvalidtr ρ σ) (s : Session ρ σ) : Prop :=
  IsLength (d.ref.getlen s.ref s.e) ∧ IsLength (d.sut.getlen s.sut s.e)

/-- The bytes of an answer fit in 64 bits. -/
def Fits {τ : Type} (size : Nat) (call : Outcome (Int × List UInt8 × τ × ErrorObject)) : Prop :=
  ∀ n bytes c e, call = .ok (n, bytes, c, e) → n.toNat * size < 2 ^ 64

def ReadFits (d : Dvalidtr ρ σ) (str : Stride) (size : Nat) (s : Session ρ σ) : Prop :=
  Fits size (d.ref.read s.ref str size s.e)

def RemoveFits (d : Dvalidtr ρ σ) (str : Stride) (size : Nat) (s : Session ρ σ) : Prop :=
  Fits size (d.ref.remove s.ref str size s.e)

def InsertMeasured (d : Dvalidtr ρ σ) (ofst slen : Nat) (s : Session ρ σ) : Prop :=
  ∀ t, InsertsAgree d ofst slen s t → ReadFits d ⟨ofst, 1, slen⟩ 1 t ∧
    ∀ u, ReadsAgree d ⟨ofst, 1, slen⟩ 1 t u → LengthsKnown d u

/-- The lengths that one operation asks for are lengths, and the bytes it compares fit. -/
def OpMeasured (d : Dvalidtr ρ σ) (size : Nat) (op : Drawn) (s : Session ρ σ) : Prop :=
  match op.choice with
  | .insert => InsertMeasured d (u32 (op.str.start * size)) (u32 (op.ninsert * size)) s
  | .read => ReadFits d op.str size s
  | .remove => RemoveFits d op.str size s ∧ ∀ t, RemovesAgree d op.str size s t → LengthsKnown d t
  | .write => ∀ t, WritesAgree d op.str size s t → ReadFits d op.str size t

def EndMeasured (d : Dvalidtr ρ σ) (s : Session ρ σ) : Prop :=
  LengthsKnown d s ∧ ∀ t, LengthsAgree d s t → IsLength (d.ref.getlen t.ref t.e) ∧
    ∀ u len, RefLength d t u len → ReadFits d ⟨0, 1, len⟩ 1 u

/-- No length the test asks for is negative, the ones cut to an `err_t` included. -/
def Measured (d : Dvalidtr ρ σ) (draws : Draws) (size maxInsert : Nat) :
    Nat → Session ρ σ → Prop
  | 0, s => EndMeasured d s
  | n + 1, s => (∀ len t, dvalidtrGetlen d s = .ok (len, t) → 0 ≤ len) ∧
    ∀ op t, Draw d draws size maxInsert s t op → OpMeasured d size op t ∧
      ∀ u, perform d size op t = .ok (success, u) → Measured d draws size maxInsert n u

section Compared

variable {d : Dvalidtr ρ σ} {s t t' u : Session ρ σ} {str : Stride} {size : Nat}
  {refCount : Outcome (Int × ρ × ErrorObject)} {sutCount : Outcome (Int × σ × ErrorObject)}
  {refCall : Outcome (Int × List UInt8 × ρ × ErrorObject)}
  {sutCall : Outcome (Int × List UInt8 × σ × ErrorObject)}
  {bytes bytes' : Nat → Nat} {room room' : Nat}

theorem SameCount.unique (h : SameCount s t refCount sutCount)
    (h' : SameCount s t' refCount sutCount) : t' = t := by
  obtain ⟨n, ref, sut, href, hsut, rfl⟩ := h
  obtain ⟨n', ref', sut', href', hsut', rfl⟩ := h'
  rw [href] at href'
  rw [hsut] at hsut'
  obtain ⟨-, rfl, -⟩ := Except.ok.inj href'
  obtain ⟨-, rfl, -⟩ := Except.ok.inj hsut'
  rfl

theorem SameCount.error (h : SameCount s t refCount sutCount) : t.e = s.e := by
  obtain ⟨_, _, _, -, -, rfl⟩ := h
  rfl

theorem SameBytes.unique (h : SameBytes bytes room s t refCall sutCall)
    (h' : SameBytes bytes' room' s t' refCall sutCall) : t' = t := by
  obtain ⟨n, refBytes, sutBytes, ref, sut, href, hsut, -, -, rfl⟩ := h
  obtain ⟨n', refBytes', sutBytes', ref', sut', href', hsut', -, -, rfl⟩ := h'
  rw [href] at href'
  rw [hsut] at hsut'
  obtain ⟨-, -, rfl, -⟩ := Except.ok.inj href'
  obtain ⟨-, -, rfl, -⟩ := Except.ok.inj hsut'
  rfl

theorem RefLength.error {len : Nat} (h : RefLength d s t len) : t.e = s.e := by
  obtain ⟨_, -, rfl⟩ := h
  rfl

theorem RefLength.unique {m n : Nat} (h : RefLength d s t m) (h' : RefLength d s t' n) :
    n = m ∧ t' = t := by
  obtain ⟨ref, href, rfl⟩ := h
  obtain ⟨ref', href', rfl⟩ := h'
  rw [href] at href'
  obtain ⟨hcount, rfl, -⟩ := ok_triple_inj href'
  exact ⟨(Int.ofNat.inj hcount).symm, rfl⟩

theorem RefLength.isLength {len : Nat} (h : RefLength d s t len) :
    IsLength (d.ref.getlen s.ref s.e) := by
  obtain ⟨ref, href, -⟩ := h
  intro n c e href'
  rw [href] at href'
  obtain ⟨rfl, -⟩ := Except.ok.inj href'
  exact Int.natCast_nonneg len

theorem SameBytes.error (h : SameBytes bytes room s t refCall sutCall) : t.e = s.e := by
  obtain ⟨_, _, _, _, _, -, -, -, -, rfl⟩ := h
  rfl

/-- Bytes the test compares over a reduced length are all the bytes if they fit in 64 bits. -/
theorem SameBytes.widen (h : SameBytes (fun n => n * size % 2 ^ 64) room s t refCall sutCall)
    (fits : Fits size refCall) : SameBytes (fun n => n * size) room s t refCall sutCall := by
  obtain ⟨n, refBytes, sutBytes, ref, sut, href, hsut, hroom, same, ht⟩ := h
  have hfits := fits n refBytes ref s.e href
  rw [Int.toNat_natCast] at hfits
  simp only [Nat.mod_eq_of_lt hfits] at hroom same
  exact ⟨n, refBytes, sutBytes, ref, sut, href, hsut, hroom, same, ht⟩

theorem SameBytes.fits (h : SameBytes (fun n => n * size) room s t refCall sutCall)
    (hroom : room < 2 ^ 32) : Fits size refCall := by
  obtain ⟨n, refBytes, sutBytes, ref, sut, href, -, hle, -, -⟩ := h
  intro n' bytes' ref' e' href'
  rw [href] at href'
  obtain ⟨rfl, -, -, -⟩ := Except.ok.inj href'
  rw [Int.toNat_natCast]
  exact lt_of_le_of_lt hle (lt_trans hroom (by decide))

theorem SameBytes.agree_iff (h : SameBytes (fun n => n * size % 2 ^ 64) room s t refCall sutCall)
    (hroom : room < 2 ^ 32) :
    (∃ u, SameBytes (fun n => n * size) room s u refCall sutCall) ↔ Fits size refCall := by
  constructor
  · rintro ⟨u, agree⟩
    exact agree.fits hroom
  · exact fun fits => ⟨t, h.widen fits⟩

/-- What a read that passes has compared. -/
def ReadsCompared (d : Dvalidtr ρ σ) (str : Stride) (size : Nat) (s t : Session ρ σ) : Prop :=
  SameBytes (fun n => n * size % 2 ^ 64) (u32 str.nelems * size) s t
    (d.ref.read s.ref str size s.e) (d.sut.read s.sut str size s.e)

theorem corrupt_failed (msg : Message) : ¬ Fresh (s.corrupt msg) :=
  errorCausef_failed (by decide)

theorem corrupt_code {msg : Message} (fresh : Fresh s) :
    (s.corrupt msg).e.causeCode = errCorrupt :=
  congrArg ErrorObject.causeCode (errorCausef_records fresh)

theorem corrupt_not_fresh {msg : Message} (run : (.ok (s.corrupt msg) : Outcome _) = .ok t)
    (fresh : Fresh t) : False := by
  rw [← Except.ok.inj run] at fresh
  exact corrupt_failed msg fresh

theorem sameBytes_eq_ok {count : Int} {dest ref : List UInt8} {same : Bool}
    (run : sameBytes str size count dest ref = .ok same) :
    count.toNat * size % 2 ^ 64 ≤ u32 str.nelems * size ∧
      (dest.take (count.toNat * size % 2 ^ 64) == ref.take (count.toNat * size % 2 ^ 64)) =
        same := by
  obtain ⟨_, hroom, hsame⟩ := bind_eq_ok.mp run
  exact ⟨access_eq_ok_iff.mp hroom, Except.ok.inj hsame⟩

/-- Equal counts and equal bytes, as both functions below compare them. -/
theorem sameBytes_compared {m n : Int} {refBytes sutBytes : List UInt8} {ref : ρ} {sut : σ}
    (href : refCall = .ok (m, refBytes, ref, s.e)) (hsut : sutCall = .ok (n, sutBytes, sut, s.e))
    (hm : ¬ m < 0) (same : ¬ m ≠ n) (run : sameBytes str size n sutBytes refBytes = .ok true) :
    SameBytes (fun n => n * size % 2 ^ 64) (u32 str.nelems * size) s (moved s ref sut)
      refCall sutCall := by
  obtain ⟨k, rfl⟩ : ∃ k : Nat, m = k := Int.eq_ofNat_of_zero_le (not_lt.mp hm)
  rw [← not_not.mp same] at hsut run
  obtain ⟨hroom, hequal⟩ := sameBytes_eq_ok run
  rw [Int.toNat_natCast] at hroom hequal
  exact ⟨k, refBytes, sutBytes, ref, sut, href, hsut, hroom, beq_iff_eq.mp hequal, rfl⟩

theorem sameCount_counted {m n : Int} {ref : ρ} {sut : σ} (href : refCount = .ok (m, ref, s.e))
    (hsut : sutCount = .ok (n, sut, s.e)) (hm : ¬ m < 0) (same : ¬ m ≠ n) :
    SameCount s (moved s ref sut) refCount sutCount := by
  obtain ⟨k, rfl⟩ : ∃ k : Nat, m = k := Int.eq_ofNat_of_zero_le (not_lt.mp hm)
  rw [← not_not.mp same] at hsut
  exact ⟨k, ref, sut, href, hsut, rfl⟩

end Compared

section Buffers

variable {s t : Session ρ σ} {str : Stride} {size nelem : Nat} {e e' : ErrorObject} {b : Bool}
  {c : Int} {body : Session ρ σ → Outcome (Session ρ σ)}

theorem iMalloc_cases (fresh : e.causeCode = success)
    (run : iMalloc true nelem size e = .ok (b, e')) :
    (b = true ∧ e' = e ∧ nelem * size < 2 ^ 32) ∨ (b = false ∧ e'.causeCode = errNomem) := by
  unfold iMalloc at run
  obtain ⟨_, -, run⟩ := bind_eq_ok.mp run
  obtain ⟨_, -, run⟩ := bind_eq_ok.mp run
  rw [if_pos rfl] at run
  split_ifs at run with hbytes
  · obtain ⟨rfl, rfl⟩ := ok_pair_inj run
    exact .inl ⟨rfl, rfl, hbytes⟩
  · obtain ⟨rfl, rfl⟩ := ok_pair_inj run
    rw [errorCausef_records fresh]
    exact .inr ⟨rfl, rfl⟩

theorem withBuffers_cases (fresh : Fresh s) (run : withBuffers str size s body = .ok (c, t)) :
    (body s = .ok t ∧ c = t.e.causeCode ∧ u32 str.nelems * size < 2 ^ 32) ∨ c = errNomem := by
  unfold withBuffers at run
  obtain ⟨⟨ref, e⟩, hmalloc, run⟩ := bind_eq_ok.mp run
  dsimp only at run
  obtain ⟨rfl, rfl, hroom⟩ | ⟨rfl, hcode⟩ := iMalloc_cases fresh hmalloc
  · rw [if_neg (by decide)] at run
    obtain ⟨⟨dest, e⟩, hmalloc', run⟩ := bind_eq_ok.mp run
    dsimp only at run
    obtain ⟨rfl, rfl, -⟩ | ⟨rfl, hcode⟩ := iMalloc_cases fresh hmalloc'
    · rw [if_neg (by decide)] at run
      obtain ⟨u, hbody, run⟩ := bind_eq_ok.mp run
      obtain ⟨hcode, rfl⟩ := ok_pair_inj run
      exact .inl ⟨hbody, hcode.symm, hroom⟩
    · rw [if_pos rfl] at run
      exact .inr ((ok_pair_inj run).1.symm.trans hcode)
  · rw [if_pos rfl] at run
    exact .inr ((ok_pair_inj run).1.symm.trans hcode)

end Buffers

section Operations

variable {d : Dvalidtr ρ σ} {s t : Session ρ σ} {str : Stride} {size : Nat}
  (href : LeavesError d.ref) (hsut : LeavesError d.sut)

include href hsut

/-- The checks of a read compare the answers, or they record that a read failed. -/
theorem readChecks_cases (run : readChecks d str size s = .ok t) :
    ReadsCompared d str size s t ∨
      ∃ (u : Session ρ σ) (msg : Message), t = u.corrupt msg ∧ u.e = s.e := by
  unfold readChecks at run
  obtain ⟨⟨m, refBytes, ref, e⟩, hm, run⟩ := bind_eq_ok.mp run
  obtain rfl := href.read hm
  dsimp only at run
  split_ifs at run with hneg
  · exact .inr ⟨_, _, (Except.ok.inj run).symm, rfl⟩
  obtain ⟨⟨n, sutBytes, sut, e⟩, hn, run⟩ := bind_eq_ok.mp run
  obtain rfl := hsut.read hn
  dsimp only at run
  split_ifs at run with hneg' hcount
  · exact .inr ⟨_, _, (Except.ok.inj run).symm, rfl⟩
  · exact .inr ⟨_, _, (Except.ok.inj run).symm, rfl⟩
  obtain ⟨same, hsame, run⟩ := bind_eq_ok.mp run
  cases same with
  | false => exact .inr ⟨_, _, (Except.ok.inj run).symm, rfl⟩
  | true =>
    obtain rfl := Except.ok.inj run
    exact .inl (sameBytes_compared hm hn hneg hcount hsame)

/-- A read that starts fresh passes, or its code is negative. -/
theorem dvalidtrRead_cases {c : Int} (fresh : Fresh s)
    (run : dvalidtrRead d str size s = .ok (c, t)) :
    (c = success ∧ ReadsCompared d str size s t ∧ Fresh t ∧ u32 str.nelems * size < 2 ^ 32) ∨
      c < 0 := by
  obtain ⟨hbody, rfl, hroom⟩ | rfl := withBuffers_cases fresh run
  · obtain compared | ⟨u, msg, rfl, hu⟩ := readChecks_cases href hsut hbody
    · have freshT : Fresh t := by
        rw [Fresh, compared.error]
        exact fresh
      exact .inl ⟨freshT, compared, freshT, hroom⟩
    · rw [Fresh, ← hu] at fresh
      rw [corrupt_code fresh]
      exact .inr (by decide)
  · exact .inr (by decide)

theorem dvalidtrRead_passed (fresh : Fresh s) (run : dvalidtrRead d str size s = .ok (success, t)) :
    ReadsCompared d str size s t ∧ Fresh t ∧ u32 str.nelems * size < 2 ^ 32 := by
  obtain ⟨-, passed⟩ | hneg := dvalidtrRead_cases href hsut fresh run
  · exact passed
  · exact absurd hneg (by decide)

/-- Where a length is not known the check of the lengths passes, too. -/
theorem lightValidate_passed (run : dvalidtrLightValidate d s = .ok (success, t)) :
    t.e = s.e ∧ (LengthsKnown d s → LengthsAgree d s t) := by
  unfold dvalidtrLightValidate at run
  obtain ⟨⟨n, sut, e⟩, hn, run⟩ := bind_eq_ok.mp run
  obtain rfl := hsut.getlen hn
  dsimp only at run
  split_ifs at run with hneg
  · obtain ⟨-, rfl⟩ := ok_pair_inj run
    exact ⟨rfl, fun known => absurd hneg (not_lt.mpr (known.2 _ _ _ hn))⟩
  obtain ⟨⟨m, ref, e⟩, hm, run⟩ := bind_eq_ok.mp run
  obtain rfl := href.getlen hm
  dsimp only at run
  split_ifs at run with hneg' differ
  · obtain ⟨-, rfl⟩ := ok_pair_inj run
    exact ⟨rfl, fun known => absurd hneg' (not_lt.mpr (known.1 _ _ _ hm))⟩
  · exact absurd (ok_pair_inj run).1 (by decide)
  · obtain ⟨-, rfl⟩ := ok_pair_inj run
    exact ⟨rfl, fun _ => sameCount_counted hm hn hneg' (fun h => differ h.symm)⟩

theorem removeChecks_passed (run : removeChecks d str size s = .ok t) (fresh : Fresh t) :
    ∃ u v, SameBytes (fun n => n * size % 2 ^ 64) (u32 str.nelems * size) s u
      (d.ref.remove s.ref str size s.e) (d.sut.remove s.sut str size s.e) ∧
      dvalidtrLightValidate d u = .ok (success, v) := by
  unfold removeChecks at run
  obtain ⟨⟨m, refBytes, ref, e⟩, hm, run⟩ := bind_eq_ok.mp run
  obtain rfl := href.remove hm
  dsimp only at run
  split_ifs at run with hneg
  · exact (corrupt_not_fresh run fresh).elim
  obtain ⟨⟨n, sutBytes, sut, e⟩, hn, run⟩ := bind_eq_ok.mp run
  obtain rfl := hsut.remove hn
  dsimp only at run
  split_ifs at run with hneg' hcount
  · exact (corrupt_not_fresh run fresh).elim
  · exact (corrupt_not_fresh run fresh).elim
  obtain ⟨same, hsame, run⟩ := bind_eq_ok.mp run
  cases same with
  | false => exact (corrupt_not_fresh run fresh).elim
  | true =>
    rw [if_neg (by decide)] at run
    obtain ⟨⟨failed, v⟩, hlight, run⟩ := bind_eq_ok.mp run
    dsimp only at run
    split_ifs at run with hfailed
    · exact (corrupt_not_fresh run fresh).elim
    · obtain rfl := not_not.mp hfailed
      exact ⟨_, v, sameBytes_compared hm hn hneg hcount hsame, hlight⟩

theorem writeBoth_passed (run : writeBoth d str size UInt8.ofNat s = .ok t) (fresh : Fresh t) :
    ∃ u v, WritesAgree d str size s u ∧ dvalidtrRead d str size u = .ok (success, v) := by
  unfold writeBoth at run
  obtain ⟨⟨n, sut, e⟩, hn, run⟩ := bind_eq_ok.mp run
  obtain rfl := hsut.write hn
  dsimp only at run
  split_ifs at run with hneg
  · exact (corrupt_not_fresh run fresh).elim
  obtain ⟨⟨m, ref, e⟩, hm, run⟩ := bind_eq_ok.mp run
  obtain rfl := href.write hm
  dsimp only at run
  split_ifs at run with hneg' hcount
  · exact (corrupt_not_fresh run fresh).elim
  · exact (corrupt_not_fresh run fresh).elim
  unfold writeChecks at run
  obtain ⟨⟨failed, v⟩, hread, run⟩ := bind_eq_ok.mp run
  dsimp only at run
  split_ifs at run with hfailed
  · exact (corrupt_not_fresh run fresh).elim
  · obtain rfl := not_not.mp hfailed
    exact ⟨_, v, sameCount_counted hm hn hneg' hcount, hread⟩

theorem insertChecks_passed {ofst slen : Nat} (freshS : Fresh s)
    (run : insertChecks d ofst slen s = .ok t) (fresh : Fresh t) :
    ∃ u v, dvalidtrRead d ⟨ofst, 1, slen⟩ 1 s = .ok (success, u) ∧
      dvalidtrLightValidate d u = .ok (success, v) := by
  unfold insertChecks at run
  obtain ⟨⟨c, u⟩, hread, run⟩ := bind_eq_ok.mp run
  dsimp only at run
  split_ifs at run with hneg
  · exact (corrupt_not_fresh run fresh).elim
  obtain ⟨⟨failed, v⟩, hlight, run⟩ := bind_eq_ok.mp run
  dsimp only at run
  split_ifs at run with hfailed
  · exact (corrupt_not_fresh run fresh).elim
  obtain rfl := not_not.mp hfailed
  obtain ⟨rfl, -⟩ | hneg' := dvalidtrRead_cases href hsut freshS hread
  · exact ⟨u, v, hread, hlight⟩
  · exact absurd hneg' hneg

theorem insertBoth_passed {ofst : Nat} {src : List UInt8} (freshS : Fresh s)
    (run : insertBoth d ofst src s = .ok t) (fresh : Fresh t) :
    ∃ u v w, SameCount s u (d.ref.insert s.ref ofst src s.e) (d.sut.insert s.sut ofst src s.e) ∧
      dvalidtrRead d ⟨ofst, 1, src.length⟩ 1 u = .ok (success, v) ∧
      dvalidtrLightValidate d v = .ok (success, w) := by
  unfold insertBoth at run
  obtain ⟨⟨m, ref, e⟩, hm, run⟩ := bind_eq_ok.mp run
  obtain rfl := href.insert hm
  dsimp only at run
  split_ifs at run with hneg
  · exact (corrupt_not_fresh run fresh).elim
  obtain ⟨⟨n, sut, e⟩, hn, run⟩ := bind_eq_ok.mp run
  obtain rfl := hsut.insert hn
  dsimp only at run
  split_ifs at run with hneg' hcount
  · exact (corrupt_not_fresh run fresh).elim
  · exact (corrupt_not_fresh run fresh).elim
  have freshU : Fresh ((s.setRef ref s.e).setSut sut s.e) := freshS
  obtain ⟨v, w, hread, hlight⟩ := insertChecks_passed href hsut freshU run fresh
  exact ⟨_, v, w, sameCount_counted hm hn hneg hcount, hread, hlight⟩

theorem dvalidtrInsert_passed {ofst slen : Nat} (fresh : Fresh s)
    (run : dvalidtrInsert d ofst slen s = .ok (success, t)) :
    Fresh t ∧ ∃ u v w, InsertsAgree d ofst slen s u ∧
      dvalidtrRead d ⟨ofst, 1, slen⟩ 1 u = .ok (success, v) ∧
      dvalidtrLightValidate d v = .ok (success, w) := by
  unfold dvalidtrInsert at run
  obtain ⟨⟨src, e⟩, hmalloc, run⟩ := bind_eq_ok.mp run
  obtain ⟨_, hsrc, run⟩ := bind_eq_ok.mp run
  obtain ⟨x, hboth, run⟩ := bind_eq_ok.mp run
  obtain ⟨hcode, rfl⟩ := ok_pair_inj run
  obtain ⟨-, rfl, -⟩ | ⟨rfl, -⟩ := iMalloc_cases fresh hmalloc
  · have passed := insertBoth_passed href hsut fresh hboth hcode
    rw [ptrRange, List.length_map, List.length_range] at passed
    exact ⟨hcode, passed⟩
  · exact absurd (assert_eq_ok_iff.mp hsrc) (by decide)

theorem dvalidtrRemove_passed (fresh : Fresh s)
    (run : dvalidtrRemove d str size s = .ok (success, t)) :
    Fresh t ∧ u32 str.nelems * size < 2 ^ 32 ∧
      ∃ u v, SameBytes (fun n => n * size % 2 ^ 64) (u32 str.nelems * size) s u
        (d.ref.remove s.ref str size s.e) (d.sut.remove s.sut str size s.e) ∧
        dvalidtrLightValidate d u = .ok (success, v) := by
  obtain ⟨hbody, hcode, hroom⟩ | hcode := withBuffers_cases fresh run
  · exact ⟨hcode.symm, hroom, removeChecks_passed href hsut hbody hcode.symm⟩
  · exact absurd hcode (by decide)

theorem dvalidtrWrite_passed (fresh : Fresh s)
    (run : dvalidtrWrite d str size s = .ok (success, t)) :
    Fresh t ∧ ∃ u v, WritesAgree d str size s u ∧ dvalidtrRead d str size u = .ok (success, v) := by
  unfold dvalidtrWrite at run
  obtain ⟨⟨src, e⟩, hmalloc, run⟩ := bind_eq_ok.mp run
  dsimp only at run
  obtain ⟨rfl, rfl, -⟩ | ⟨rfl, hcode⟩ := iMalloc_cases fresh hmalloc
  · rw [if_neg (by decide)] at run
    obtain ⟨x, hboth, run⟩ := bind_eq_ok.mp run
    obtain ⟨hcode, rfl⟩ := ok_pair_inj run
    exact ⟨hcode, writeBoth_passed href hsut hboth hcode⟩
  · rw [if_pos rfl] at run
    exact absurd (hcode.symm.trans (ok_pair_inj run).1) (by decide)

theorem lengthsAgree_iff (run : dvalidtrLightValidate d s = .ok (success, t)) :
    (∃ u, LengthsAgree d s u) ↔ LengthsKnown d s := by
  constructor
  · rintro ⟨u, n, ref, sut, hm, hn, -⟩
    constructor
    · intro m c e h
      rw [hm] at h
      obtain ⟨rfl, -⟩ := Except.ok.inj h
      exact Int.natCast_nonneg n
    · intro m c e h
      rw [hn] at h
      obtain ⟨rfl, -⟩ := Except.ok.inj h
      exact Int.natCast_nonneg n
  · exact fun known => ⟨t, (lightValidate_passed href hsut run).2 known⟩

theorem insertAgrees_iff {ofst slen : Nat} (fresh : Fresh s)
    (run : dvalidtrInsert d ofst slen s = .ok (success, t)) :
    InsertAgrees d ofst slen s ↔ InsertMeasured d ofst slen s := by
  obtain ⟨-, u, v, w, inserted, hread, hlight⟩ := dvalidtrInsert_passed href hsut fresh run
  have freshU : Fresh u := by
    rw [Fresh, inserted.error]
    exact fresh
  obtain ⟨compared, -, hroom⟩ := dvalidtrRead_passed href hsut freshU hread
  have known := lengthsAgree_iff href hsut hlight
  constructor
  · rintro ⟨u', v', w', inserts, reads, lengths⟩
    obtain rfl := inserted.unique inserts
    intro u'' inserts'
    obtain rfl := inserted.unique inserts'
    refine ⟨reads.fits hroom, fun v'' reads' => ?_⟩
    obtain rfl := reads.unique reads'
    obtain rfl := compared.unique reads
    exact known.mp ⟨w', lengths⟩
  · intro measured
    obtain ⟨fits, lengths⟩ := measured u inserted
    have reads := compared.widen fits
    obtain ⟨w', agree⟩ := known.mpr (lengths v reads)
    exact ⟨u, v, w', inserted, reads, agree⟩

theorem removeAgrees_iff (fresh : Fresh s)
    (run : dvalidtrRemove d str size s = .ok (success, t)) :
    (∃ t u, RemovesAgree d str size s t ∧ LengthsAgree d t u) ↔
      RemoveFits d str size s ∧ ∀ t, RemovesAgree d str size s t → LengthsKnown d t := by
  obtain ⟨-, hroom, u, v, compared, hlight⟩ := dvalidtrRemove_passed href hsut fresh run
  have known := lengthsAgree_iff href hsut hlight
  constructor
  · rintro ⟨u', v', removes, lengths⟩
    refine ⟨removes.fits hroom, fun u'' removes' => ?_⟩
    obtain rfl := removes.unique removes'
    obtain rfl := compared.unique removes
    exact known.mp ⟨v', lengths⟩
  · rintro ⟨fits, lengths⟩
    have removes := compared.widen fits
    obtain ⟨v', agree⟩ := known.mpr (lengths u removes)
    exact ⟨u, v', removes, agree⟩

theorem writeAgrees_iff (fresh : Fresh s)
    (run : dvalidtrWrite d str size s = .ok (success, t)) :
    (∃ t u, WritesAgree d str size s t ∧ ReadsAgree d str size t u) ↔
      ∀ t, WritesAgree d str size s t → ReadFits d str size t := by
  obtain ⟨-, u, v, written, hread⟩ := dvalidtrWrite_passed href hsut fresh run
  have freshU : Fresh u := by
    rw [Fresh, written.error]
    exact fresh
  obtain ⟨compared, -, hroom⟩ := dvalidtrRead_passed href hsut freshU hread
  constructor
  · rintro ⟨u', v', writes, reads⟩ u'' writes'
    obtain rfl := writes.unique writes'
    exact reads.fits hroom
  · exact fun fits => ⟨u, v, written, compared.widen (fits u written)⟩

/-- An operation that passes leaves the error object fresh, and agrees where it measured. -/
theorem perform_passed {op : Drawn} (fresh : Fresh s)
    (run : perform d size op s = .ok (success, t)) :
    Fresh t ∧ (OpAgrees d size op s ↔ OpMeasured d size op s) := by
  unfold perform at run
  unfold OpAgrees OpMeasured
  cases hop : op.choice with
  | insert =>
    simp only [hop] at run
    exact ⟨(dvalidtrInsert_passed href hsut fresh run).1, insertAgrees_iff href hsut fresh run⟩
  | read =>
    simp only [hop] at run
    obtain ⟨compared, freshT, hroom⟩ := dvalidtrRead_passed href hsut fresh run
    exact ⟨freshT, compared.agree_iff hroom⟩
  | remove =>
    simp only [hop] at run
    exact ⟨(dvalidtrRemove_passed href hsut fresh run).1, removeAgrees_iff href hsut fresh run⟩
  | write =>
    simp only [hop] at run
    exact ⟨(dvalidtrWrite_passed href hsut fresh run).1, writeAgrees_iff href hsut fresh run⟩

/-- The check of the lengths fails only with a failure on record. -/
theorem lightValidate_failed {c : Int} (fresh : Fresh s)
    (run : dvalidtrLightValidate d s = .ok (c, t)) (failed : c ≠ success) : ¬ Fresh t := by
  unfold dvalidtrLightValidate at run
  obtain ⟨⟨n, sut, e⟩, hn, run⟩ := bind_eq_ok.mp run
  obtain rfl := hsut.getlen hn
  dsimp only at run
  split_ifs at run with hneg
  · exact absurd ((ok_pair_inj run).1.symm.trans fresh) failed
  obtain ⟨⟨m, ref, e⟩, hm, run⟩ := bind_eq_ok.mp run
  obtain rfl := href.getlen hm
  dsimp only at run
  split_ifs at run with hneg' differ
  · exact absurd ((ok_pair_inj run).1.symm.trans fresh) failed
  · obtain ⟨-, rfl⟩ := ok_pair_inj run
    exact corrupt_failed _
  · exact absurd (ok_pair_inj run).1.symm failed

/-- What the final check has done where it passes. -/
theorem dvalidtrValidate_passed (fresh : Fresh s)
    (run : dvalidtrValidate d s = .ok (success, t)) :
    ∃ u, dvalidtrLightValidate d s = .ok (success, u) ∧ Fresh u ∧
      (¬ IsLength (d.ref.getlen u.ref u.e) ∨
        ∃ v w len, RefLength d u v len ∧ dvalidtrRead d ⟨0, 1, len⟩ 1 v = .ok (success, w)) := by
  unfold dvalidtrValidate at run
  obtain ⟨⟨failed, u⟩, hlight, run⟩ := bind_eq_ok.mp run
  dsimp only at run
  by_cases hfailed : failed ≠ 0
  · rw [if_pos hfailed] at run
    exact absurd (ok_pair_inj run).1 (lightValidate_failed href hsut fresh hlight hfailed)
  rw [if_neg hfailed] at run
  obtain rfl := not_not.mp hfailed
  have freshU : Fresh u := by
    rw [Fresh, (lightValidate_passed href hsut hlight).1]
    exact fresh
  refine ⟨u, hlight, freshU, ?_⟩
  obtain ⟨⟨n, ref, e⟩, hn, run⟩ := bind_eq_ok.mp run
  obtain rfl := href.getlen hn
  dsimp only at run
  split_ifs at run with hneg
  · exact .inl fun isLength => absurd hneg (not_lt.mpr (isLength _ _ _ hn))
  obtain ⟨len, rfl⟩ : ∃ len : Nat, n = len := Int.eq_ofNat_of_zero_le (not_lt.mp hneg)
  obtain ⟨⟨failed, w⟩, hread, run⟩ := bind_eq_ok.mp run
  dsimp only at run
  split_ifs at run with hfailed
  · exact (corrupt_failed _ (ok_pair_inj run).1).elim
  · obtain rfl := not_not.mp hfailed
    exact .inr ⟨_, w, len, ⟨ref, hn, rfl⟩, hread⟩

theorem endAgrees_iff (fresh : Fresh s) (run : dvalidtrValidate d s = .ok (success, t)) :
    EndAgrees d s ↔ EndMeasured d s := by
  obtain ⟨u, hlight, freshU, hend⟩ := dvalidtrValidate_passed href hsut fresh run
  have agreed := (lightValidate_passed href hsut hlight).2
  constructor
  · rintro ⟨u', v', w', len', lengths, refLength, reads⟩
    have known : LengthsKnown d s := (lengthsAgree_iff href hsut hlight).mp ⟨u', lengths⟩
    obtain rfl := (agreed known).unique lengths
    obtain noLength | ⟨v, w, len, hlen, hread⟩ := hend
    · exact (noLength refLength.isLength).elim
    have freshV : Fresh v := by
      rw [Fresh, hlen.error]
      exact freshU
    obtain ⟨-, -, hroom⟩ := dvalidtrRead_passed href hsut freshV hread
    refine ⟨known, fun u'' lengths' => ?_⟩
    obtain rfl := lengths.unique lengths'
    refine ⟨refLength.isLength, fun v'' len'' refLength' => ?_⟩
    obtain ⟨rfl, rfl⟩ := refLength.unique refLength'
    obtain ⟨rfl, rfl⟩ := hlen.unique refLength
    exact reads.fits hroom
  · rintro ⟨known, measured⟩
    have lengths := agreed known
    obtain ⟨isLength, fits⟩ := measured u lengths
    obtain noLength | ⟨v, w, len, hlen, hread⟩ := hend
    · exact (noLength isLength).elim
    have freshV : Fresh v := by
      rw [Fresh, hlen.error]
      exact freshU
    obtain ⟨compared, -, -⟩ := dvalidtrRead_passed href hsut freshV hread
    exact ⟨u, v, w, len, lengths, hlen, compared.widen (fits v len hlen)⟩

end Operations

section Runs

variable {d : Dvalidtr ρ σ} {draws : Draws} {s t t' : Session ρ σ} {size maxInsert : Nat}

theorem randu32r_error {lower upper n : Nat} (run : randu32r draws lower upper s = .ok (n, t)) :
    t.e = s.e := by
  obtain ⟨_, -, run⟩ := bind_eq_ok.mp run
  rw [← (ok_pair_inj run).2]

theorem drawStart_error {len : Int} {n : Nat} (run : drawStart draws len s = .ok (n, t)) :
    t.e = s.e := by
  unfold drawStart at run
  split_ifs at run
  · exact randu32r_error run
  · rw [(ok_pair_inj run).2]

theorem drawElements_error {maxN n : Nat}
    (run : drawElements draws maxN maxInsert s = .ok (n, t)) : t.e = s.e := by
  unfold drawElements at run
  split_ifs at run
  · exact randu32r_error run
  · rw [(ok_pair_inj run).2]

theorem drawOperation_error {len : Int} {op : Drawn}
    (run : drawOperation draws maxInsert len s = .ok (op, t)) : t.e = s.e := by
  obtain ⟨⟨_, s₁⟩, h₁, run⟩ := bind_eq_ok.mp run
  obtain ⟨⟨_, s₂⟩, h₂, run⟩ := bind_eq_ok.mp run
  obtain ⟨⟨_, s₃⟩, h₃, run⟩ := bind_eq_ok.mp run
  obtain ⟨⟨_, s₄⟩, h₄, run⟩ := bind_eq_ok.mp run
  obtain ⟨⟨_, s₅⟩, h₅, run⟩ := bind_eq_ok.mp run
  rw [← (ok_pair_inj run).2, randu32r_error h₅, drawElements_error h₄, randu32r_error h₃,
    drawStart_error h₂, randu32r_error h₁]

theorem Draw.unique {op op' : Drawn} (h : Draw d draws size maxInsert s t op)
    (h' : Draw d draws size maxInsert s t' op') : op' = op ∧ t' = t := by
  obtain ⟨len, s₁, hlen, -, hdraw⟩ := h
  obtain ⟨len', s₁', hlen', -, hdraw'⟩ := h'
  rw [hlen] at hlen'
  obtain ⟨rfl, rfl⟩ := ok_pair_inj hlen'
  rw [hdraw] at hdraw'
  obtain ⟨rfl, rfl⟩ := ok_pair_inj hdraw'
  exact ⟨rfl, rfl⟩

/-- What an iteration can do. -/
theorem randomStep_cases {k : Nat} {returned : Option Int}
    (run : randomStep d draws size maxInsert k s = .ok (returned, t)) :
    (∃ len, dvalidtrGetlen d s = .ok (len, t) ∧ len < 0 ∧ returned = some (errorTrace t.e)) ∨
      returned = some errCorrupt ∨
      ∃ op u, Draw d draws size maxInsert s u op ∧ perform d size op u = .ok (success, t) ∧
        returned = none := by
  obtain ⟨⟨len, u⟩, hlen, run⟩ := bind_eq_ok.mp run
  dsimp only at run
  split_ifs at run with hneg
  · obtain ⟨rfl, rfl⟩ := ok_pair_inj run
    exact .inl ⟨len, hlen, hneg, rfl⟩
  obtain ⟨_, -, run⟩ := bind_eq_ok.mp run
  obtain ⟨⟨op, v⟩, hdraw, run⟩ := bind_eq_ok.mp run
  obtain ⟨⟨failed, w⟩, hperform, run⟩ := bind_eq_ok.mp run
  dsimp only at run
  split_ifs at run with hfailed
  · exact .inr (.inl (ok_pair_inj run).1.symm)
  · obtain ⟨rfl, rfl⟩ := ok_pair_inj run
    obtain rfl := not_not.mp hfailed
    exact .inr (.inr ⟨op, v, ⟨len, u, hlen, not_lt.mp hneg, hdraw⟩, hperform, rfl⟩)

variable (href : LeavesError d.ref) (hsut : LeavesError d.sut)

include href

theorem dvalidtrGetlen_error {len : Int} (run : dvalidtrGetlen d s = .ok (len, t)) :
    t.e = s.e := by
  obtain ⟨⟨n, ref, e⟩, hn, run⟩ := bind_eq_ok.mp run
  obtain rfl := href.getlen hn
  rw [← (ok_pair_inj run).2]
  rfl

theorem Draw.error {op : Drawn} (h : Draw d draws size maxInsert s t op) : t.e = s.e := by
  obtain ⟨len, s₁, hlen, -, hdraw⟩ := h
  rw [drawOperation_error hdraw, dvalidtrGetlen_error href hlen]

include hsut

theorem randomLoop_agrees (n : Nat) : ∀ {k : Nat} {s t : Session ρ σ}, Fresh s →
    randomLoop d draws size maxInsert n k s = .ok (success, t) →
      (Agreed d draws size maxInsert n s ↔ Measured d draws size maxInsert n s) := by
  induction n with
  | zero =>
    intro k s t fresh run
    obtain ⟨⟨failed, u⟩, hend, run⟩ := bind_eq_ok.mp run
    dsimp only at run
    split_ifs at run with hfailed
    · exact absurd (ok_pair_inj run).1 (by decide)
    · obtain rfl := not_not.mp hfailed
      exact endAgrees_iff href hsut fresh hend
  | succ n ih =>
    intro k s t fresh run
    obtain ⟨⟨returned, u⟩, hstep, run⟩ := bind_eq_ok.mp run
    obtain ⟨len, hlen, hneg, rfl⟩ | rfl | ⟨op, v, drawn, hperform, rfl⟩ := randomStep_cases hstep
    · constructor
      · rintro ⟨op, v, w, ⟨len', s₁, hlen', hpos, -⟩, -⟩
        rw [hlen] at hlen'
        rw [← (ok_pair_inj hlen').1] at hpos
        exact absurd hneg (not_lt.mpr hpos)
      · exact fun measured => absurd hneg (not_lt.mpr (measured.1 len u hlen))
    · exact absurd (ok_pair_inj run).1 (by decide)
    · have freshV : Fresh v := by
        rw [Fresh, drawn.error href]
        exact fresh
      obtain ⟨freshU, agree⟩ := perform_passed href hsut freshV hperform
      have rest := ih freshU run
      constructor
      · rintro ⟨op', v', w', drawn', agrees, hperform', agreed⟩
        obtain ⟨rfl, rfl⟩ := drawn.unique drawn'
        rw [hperform] at hperform'
        obtain ⟨-, rfl⟩ := ok_pair_inj hperform'
        refine ⟨fun len t hlen => ?_, fun op' v' drawn' => ?_⟩
        · obtain ⟨len', s₁, hlen', hpos, -⟩ := drawn
          rw [hlen] at hlen'
          rw [(ok_pair_inj hlen').1]
          exact hpos
        · obtain ⟨rfl, rfl⟩ := drawn.unique drawn'
          refine ⟨agree.mp agrees, fun w hw => ?_⟩
          rw [hperform] at hw
          obtain ⟨-, rfl⟩ := ok_pair_inj hw
          exact rest.mp agreed
      · rintro ⟨-, measured⟩
        obtain ⟨opMeasured, later⟩ := measured op v drawn
        exact ⟨op, v, u, drawn, agree.mpr opMeasured, hperform, rest.mpr (later u hperform)⟩

/-- A test that returns success has seen both writers agree throughout exactly where every
length it asked for was a length. -/
theorem random_test_agrees {niters : Nat} (fresh : s.e = errorCreate)
    (run : dvalidtrRandomTest d draws size niters maxInsert s = .ok (success, t)) :
    Agreed d draws size maxInsert niters s ↔ Measured d draws size maxInsert niters s := by
  have freshS : Fresh s := by
    rw [Fresh, fresh]
    rfl
  exact randomLoop_agrees href hsut niters freshS run

end Runs

section Samples

variable {d : Dvalidtr ρ σ} {draws : Draws} {size maxInsert : Nat}

/-- Two writers whose lengths and counts are small enough for every test. -/
structure Measurable (d : Dvalidtr ρ σ) : Prop where
  ref_length : ∀ {c c' : ρ} {e e' : ErrorObject} {n : Int},
    d.ref.getlen c e = .ok (n, c', e') → 0 ≤ n ∧ n < 2 ^ 31
  sut_length : ∀ {c c' : σ} {e e' : ErrorObject} {n : Int},
    d.sut.getlen c e = .ok (n, c', e') → 0 ≤ n
  read_count : ∀ {c c' : ρ} {str : Stride} {size : Nat} {e e' : ErrorObject} {n : Int}
    {bytes : List UInt8}, d.ref.read c str size e = .ok (n, bytes, c', e') → n.toNat < 2 ^ 32
  remove_count : ∀ {c c' : ρ} {str : Stride} {size : Nat} {e e' : ErrorObject} {n : Int}
    {bytes : List UInt8}, d.ref.remove c str size e = .ok (n, bytes, c', e') → n.toNat < 2 ^ 32

theorem count_fits {n : Int} {k : Nat} (hn : n.toNat < 2 ^ 32) (hk : k < 2 ^ 32) :
    n.toNat * k < 2 ^ 64 := by
  have h : n.toNat * k ≤ (2 ^ 32 - 1) * (2 ^ 32 - 1) := Nat.mul_le_mul (by omega) (by omega)
  omega

namespace Measurable

variable (small : Measurable d)

include small

theorem lengthsKnown (s : Session ρ σ) : LengthsKnown d s :=
  ⟨fun _ _ _ h => (small.ref_length h).1, fun _ _ _ h => small.sut_length h⟩

theorem readFits {str : Stride} (hsize : size < 2 ^ 32) (s : Session ρ σ) :
    ReadFits d str size s := fun _ _ _ _ h => count_fits (small.read_count h) hsize

theorem opMeasured (hsize : size < 2 ^ 32) (op : Drawn) (s : Session ρ σ) :
    OpMeasured d size op s := by
  unfold OpMeasured
  cases op.choice with
  | insert => exact fun t _ => ⟨small.readFits (by decide) t, fun u _ => small.lengthsKnown u⟩
  | read => exact small.readFits hsize s
  | remove =>
    exact ⟨fun _ _ _ _ h => count_fits (small.remove_count h) hsize,
      fun t _ => small.lengthsKnown t⟩
  | write => exact fun t _ => small.readFits hsize t

theorem measured (hsize : size < 2 ^ 32) (n : Nat) :
    ∀ s, Measured d draws size maxInsert n s := by
  induction n with
  | zero =>
    intro s
    exact ⟨small.lengthsKnown s, fun t _ => ⟨(small.lengthsKnown t).1,
      fun u _ _ => small.readFits (by decide) u⟩⟩
  | succ n ih =>
    intro s
    refine ⟨fun len t h => ?_, fun op t _ => ⟨small.opMeasured hsize op t, fun u _ => ih u⟩⟩
    obtain ⟨⟨m, ref, e⟩, hm, h⟩ := bind_eq_ok.mp h
    obtain ⟨hpos, hlt⟩ := small.ref_length hm
    have hlen : errT m = m := Int.bmod_eq_of_le (by omega) (by omega)
    rw [← (ok_pair_inj h).1, hlen]
    exact hpos

end Measurable

/-- A writer of one zero byte, whatever it is asked, that reports `len` bytes. -/
def reports (len : Int) : DataWriter Unit where
  insert _ _ src e := .ok (src.length, (), e)
  read _ _ _ e := .ok (1, [0], (), e)
  write _ _ _ _ e := .ok (1, (), e)
  remove _ _ _ e := .ok (1, [0], (), e)
  getlen _ e := .ok (len, (), e)

theorem reports_leavesError (len : Int) : LeavesError (reports len) where
  insert h := (ok_triple_inj h).2.2.symm
  read h := (Prod.mk.inj (ok_triple_inj h).2.2).2.symm
  write h := (ok_triple_inj h).2.2.symm
  remove h := (Prod.mk.inj (ok_triple_inj h).2.2).2.symm
  getlen h := (ok_triple_inj h).2.2.symm

/-- Every draw is the lowest number of its range. -/
def lowest : Draws where
  draw _ lower _ := lower
  lower_le _ _ _ _ := le_refl _
  le_upper _ _ _ h := h

def start : Session Unit Unit := ⟨(), (), errorCreate, 0⟩

theorem reports_measurable {len : Int} (hpos : 0 ≤ len) (hlt : len < 2 ^ 31) :
    Measurable (⟨reports len, reports len, none⟩ : Dvalidtr Unit Unit) where
  ref_length h := (ok_pair_inj h).1 ▸ ⟨hpos, hlt⟩
  sut_length h := (ok_pair_inj h).1 ▸ hpos
  read_count h := (ok_pair_inj h).1 ▸ by decide
  remove_count h := (ok_pair_inj h).1 ▸ by decide

theorem seven_bytes_agree : Agreed ⟨reports 7, reports 7, none⟩ lowest 1 1 1 start := by
  have run : dvalidtrRandomTest ⟨reports 7, reports 7, none⟩ lowest 1 1 1 start =
      .ok (success, ⟨(), (), errorCreate, 5⟩) := rfl
  have small := reports_measurable (show (0 : Int) ≤ 7 by decide) (by decide)
  exact (random_test_agrees (reports_leavesError 7) (reports_leavesError 7) rfl run).mpr
    (small.measured (by decide) 1 start)

/-- A length that fails counts as an agreement, and a reference of 2 ^ 31 bytes ends the
test at once. -/
theorem length_failures_pass :
    dvalidtrRandomTest ⟨reports 7, reports (-1), none⟩ lowest 1 1 1 start =
        .ok (success, ⟨(), (), errorCreate, 5⟩) ∧
      ¬ Agreed ⟨reports 7, reports (-1), none⟩ lowest 1 1 1 start ∧
      dvalidtrRandomTest ⟨reports (2 ^ 31), reports 7, none⟩ lowest 1 1 1 start =
        .ok (success, start) ∧
      ¬ Agreed ⟨reports (2 ^ 31), reports 7, none⟩ lowest 1 1 1 start := by
  refine ⟨rfl, ?_, rfl, ?_⟩
  · rintro ⟨op, t, u, -, -, -, v, w, x, len, ⟨n, ref, sut, -, hn, -⟩, -⟩
    have hlen : (-1 : Int) = n := (ok_pair_inj hn).1
    omega
  · rintro ⟨op, t, u, ⟨len, s₁, hlen, hpos, -⟩, -⟩
    rw [← (ok_pair_inj hlen).1] at hpos
    exact absurd hpos (by decide)

end Samples

end DifferentialTests
