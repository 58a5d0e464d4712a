import CSpecx.Latch
import CSpecx.Serializers
import CSpecx.SharedCalls

/-!
# Serializers between threads

`srlizr_write` and `dsrlizr_read` with their latches, one access to the shared
struct or its buffer a step; the assertions look at the struct in one step.
Threads write records into one buffer and threads read it out.
-/

namespace Serializers

open CExec CellMemory Component GuardedSections Latch SharedCalls

/-- `memcpy` to `dest->data + o`. -/
def copyIn : Nat → List UInt8 → Code Serializer Nat Bool → Code Serializer Nat Bool
  | _, [], next => next
  | o, b :: src, next =>
    .write (fun s => do
      access (o < s.dcap)
      .ok { s with data := store s.data o [b] }) (copyIn (o + 1) src next)

def writeCode (src : List UInt8) : Code Serializer Nat Bool :=
  .check Serializer.check <|
  .read Serializer.dlen fun dlen =>
  .read Serializer.dcap fun dcap =>
  if dcap < u32 (dlen + src.length) then .done false
  else
    .read Serializer.dlen fun dlen =>
    copyIn dlen src <|
    .read Serializer.dlen fun dlen =>
    .write (fun s => .ok { s with dlen := u32 (dlen + src.length) }) <|
    .check Serializer.check <|
    .done true

/-- `memcpy` of `n` bytes from `src->data + o` to `dest + i`. -/
def copyOut (dest : Nat → UInt8) (o i : Nat)
    (next : (Nat → UInt8) → Code Deserializer Nat (Bool × (Nat → UInt8))) :
    Nat → Code Deserializer Nat (Bool × (Nat → UInt8))
  | 0 => next dest
  | n + 1 =>
    .access (fun d => do
      access (o < d.dlen)
      .ok ((d.data o).toNat, d)) fun b =>
        copyOut (store dest i [UInt8.ofNat b]) (o + 1) (i + 1) next n

def readCode (op : (Nat → UInt8) × Nat) : Code Deserializer Nat (Bool × (Nat → UInt8)) :=
  .check Deserializer.check <|
  .read Deserializer.head fun head =>
  .read Deserializer.dlen fun dlen =>
  if dlen < u32 (head + op.2) then .done (false, op.1)
  else
    .read Deserializer.head fun head =>
    copyOut op.1 head 0 (fun dest =>
      .read Deserializer.head fun head =>
      .write (fun d => .ok { d with head := u32 (head + op.2) }) <|
      .check Deserializer.check <|
      .done (true, dest)) op.2

section Runs

variable {s : Serializer} {d : Deserializer} {o i n : Nat} {src : List UInt8} {dest : Nat → UInt8}

theorem run_copyIn (next : Code Serializer Nat Bool) (ho : o ≤ s.dcap) :
    (copyIn o src next).run s = access (o + src.length ≤ s.dcap) >>= fun _ =>
      next.run { s with data := store s.data o src } := by
  induction src generalizing o s with
  | nil => rw [copyIn, store_nil, List.length_nil, Nat.add_zero, access_pos ho, ok_bind]
  | cons b src ih =>
    rw [copyIn, Code.run_write, List.length_cons]
    by_cases hin : o < s.dcap
    · have hrest := ih (s := { s with data := store s.data o [b] }) (o := o + 1) hin
      have hstore : store (store s.data o [b]) (o + 1) src = store s.data o (b :: src) :=
        store_append_of_length rfl
      rw [access_pos hin, ok_bind, ok_bind, hrest, hstore, Nat.add_assoc, Nat.add_comm 1]
    · rw [access_neg hin, access_neg (show ¬ o + (src.length + 1) ≤ s.dcap by omega), error_bind,
        error_bind, error_bind]

/-- Without a break the accesses are the call. -/
theorem run_writeCode : (writeCode src).run s = srlizrWrite s src := by
  rw [writeCode, Code.run_check, srlizrWrite]
  cases hcheck : s.check with
  | error e => rfl
  | ok u =>
    obtain ⟨_, -, hle⟩ := bind_eq_ok.mp hcheck
    have hle : s.dlen ≤ s.dcap := assert_eq_ok_iff.mp hle
    rw [ok_bind, ok_bind, Code.run_read, Code.run_read]
    split_ifs with hfull
    · rfl
    · rw [Code.run_read, run_copyIn _ hle]
      congr 1
      funext _
      rw [Code.run_read, Code.run_write, ok_bind, Code.run_check]
      rfl

theorem run_copyOut (next : (Nat → UInt8) → Code Deserializer Nat (Bool × (Nat → UInt8)))
    (ho : o ≤ d.dlen) : (copyOut dest o i next n).run d = access (o + n ≤ d.dlen) >>= fun _ =>
      (next (store dest i (load d.data o n))).run d := by
  induction n generalizing o i dest with
  | zero => rw [copyOut, load_zero, store_nil, Nat.add_zero, access_pos ho, ok_bind]
  | succ n ih =>
    rw [copyOut, Code.run]
    by_cases hin : o < d.dlen
    · have hload : load d.data o (n + 1) = d.data o :: load d.data (o + 1) n := by
        rw [Nat.add_comm, load_add]
        rfl
      have hstore : store (store dest i [d.data o]) (i + 1) (load d.data (o + 1) n) =
          store dest i (d.data o :: load d.data (o + 1) n) := store_append_of_length rfl
      rw [access_pos hin, ok_bind, ok_bind]
      dsimp only
      rw [UInt8.ofNat_toNat, ih (show o + 1 ≤ d.dlen from hin), hload, hstore, Nat.add_assoc,
        Nat.add_comm 1]
    · rw [access_neg hin, access_neg (show ¬ o + (n + 1) ≤ d.dlen by omega), error_bind,
        error_bind, error_bind]

theorem run_readCode (op : (Nat → UInt8) × Nat) : (readCode op).run d = reading.step d op := by
  show _ = (dsrlizrRead op.1 op.2 d >>= fun r => .ok ((r.1, r.2.1), r.2.2))
  rw [readCode, Code.run_check, dsrlizrRead]
  cases hcheck : d.check with
  | error e => rfl
  | ok u =>
    obtain ⟨_, -, hle⟩ := bind_eq_ok.mp hcheck
    have hle : d.head ≤ d.dlen := assert_eq_ok_iff.mp hle
    rw [ok_bind, ok_bind, Code.run_read, Code.run_read]
    split_ifs with hshort
    · rfl
    · rw [Code.run_read, run_copyOut _ hle]
      cases access (d.head + op.2 ≤ d.dlen) with
      | error e => rfl
      | ok u =>
        rw [ok_bind, ok_bind, Code.run_read, Code.run_write, ok_bind, Code.run_check]
        dsimp only
        cases Deserializer.check { d with head := u32 (d.head + op.2) } with
        | error e => rfl
        | ok u => rfl

end Runs

/-- The states of threads that write the records given to them into a new serializer. -/
def Writers {T : Type} [DecidableEq T] (given : T → List (List UInt8)) (data : Nat → UInt8)
    (dcap : Nat) :
    State T (Work (List UInt8) Bool) (List UInt8) (Code Serializer Nat Bool) Serializer
      (Memory T) → Prop :=
  Steps (workers writeCode) latch
    (.initial latchInit (fun q => ⟨given q, []⟩) (srlizrCreate data dcap))

/-- Those of threads that read from a new deserializer. -/
def Readers {U : Type} [DecidableEq U] (asked : U → List ((Nat → UInt8) × Nat)) (data : Nat → UInt8)
    (dlen : Nat) : State U (Work ((Nat → UInt8) × Nat) (Bool × (Nat → UInt8))) ((Nat → UInt8) × Nat)
      (Code Deserializer Nat (Bool × (Nat → UInt8))) Deserializer (Memory U) → Prop :=
  Steps (workers readCode) latch
    (.initial latchInit (fun q => ⟨asked q, []⟩) (dsrlizrCreate data dlen))

/-- What the reads that succeeded have put at their destinations. -/
def taken (tr : List (((Nat → UInt8) × Nat) × (Bool × (Nat → UInt8)))) : List (List UInt8) :=
  (tr.filter fun entry => entry.2.1).map fun entry => load entry.2.2 0 entry.1.2

section Threads

variable {T U : Type} [DecidableEq T] [DecidableEq U] {given : T → List (List UInt8)}
  {asked : U → List ((Nat → UInt8) × Nat)} {data : Nat → UInt8} {dcap dlen : Nat}
  {σ : State T (Work (List UInt8) Bool) (List UInt8) (Code Serializer Nat Bool) Serializer
    (Memory T)}
  {τ : State U (Work ((Nat → UInt8) × Nat) (Bool × (Nat → UInt8))) ((Nat → UInt8) × Nat)
    (Code Deserializer Nat (Bool × (Nat → UInt8))) Deserializer (Memory U)}
  {d d' : Deserializer} {dtr : List (((Nat → UInt8) × Nat) × (Bool × (Nat → UInt8)))}

omit [DecidableEq T] in
theorem writers_served (hpos : 0 < dcap) (hcap : dcap < 2 ^ 32)
    (hgiven : ∀ q, ∀ src ∈ given q, dcap + src.length < 2 ^ 32) :
    Served given writeCode writing.pre (fun s => s.Sound ∧ s.dcap = dcap)
      (srlizrCreate data dcap) := by
  refine ⟨⟨srlizrCreate_sound hpos hcap, rfl⟩, fun {s q src} ⟨sound, hdcap⟩ hsrc => ?_⟩
  have hle := sound.len_le
  have hsum : s.dlen + src.length < 2 ^ 32 := by
    have := hgiven q src hsrc
    omega
  refine ⟨hsum, ?_⟩
  rw [run_writeCode]
  by_cases fits : s.dlen + src.length ≤ s.dcap
  · exact ⟨true, _, srlizrWrite_fits sound fits, sound.append fits, hdcap⟩
  · exact ⟨false, s, srlizrWrite_full sound hsum (Nat.lt_of_not_le fits), sound, hdcap⟩

omit [DecidableEq U] in
theorem readers_served (hpos : 0 < dlen) (hlen : dlen < 2 ^ 32)
    (hasked : ∀ q, ∀ op ∈ asked q, dlen + op.2 < 2 ^ 32) :
    Served asked readCode reading.pre (fun d => d.Sound ∧ d.dlen = dlen)
      (dsrlizrCreate data dlen) := by
  refine ⟨⟨dsrlizrCreate_sound hpos hlen, rfl⟩, fun {d q op} ⟨sound, hdlen⟩ hop => ?_⟩
  have hle := sound.head_le
  have hsum : d.head + op.2 < 2 ^ 32 := by
    have := hasked q op hop
    omega
  refine ⟨hsum, ?_⟩
  rw [run_readCode]
  by_cases fits : d.head + op.2 ≤ d.dlen
  · exact ⟨_, _, bind_eq_ok.mpr ⟨_, dsrlizrRead_fits sound fits, rfl⟩, sound.advance fits, hdlen⟩
  · exact ⟨_, _, bind_eq_ok.mpr ⟨_, dsrlizrRead_short sound hsum (Nat.lt_of_not_le fits), rfl⟩,
      sound, hdlen⟩

theorem load_advance {len : Nat} :
    load d.data 0 (d.advance len).head = load d.data 0 d.head ++ load d.data d.head len := by
  have hhead : (d.advance len).head = d.head + len := rfl
  rw [hhead, load_add, Nat.zero_add]

/-- A read that succeeds takes the bytes it has copied. -/
theorem taken_cons {op : (Nat → UInt8) × Nat} {xs : List UInt8} (h : xs.length = op.2) :
    (taken ((op, true, store op.1 0 xs) :: dtr)).flatten = xs ++ (taken dtr).flatten := by
  have hfirst : taken ((op, true, store op.1 0 xs) :: dtr) =
      load (store op.1 0 xs) 0 op.2 :: taken dtr := rfl
  rw [hfirst, List.flatten_cons, load_store_of_length h]

/-- What a run of reads has taken lies between the cursors. -/
theorem reading_run (sound : d.Sound) (run : Trace reading d dtr d') :
    d'.Sound ∧ d'.dlen = d.dlen ∧
      load d.data 0 d'.head = load d.data 0 d.head ++ (taken dtr).flatten := by
  induction run with
  | nil d => exact ⟨sound, rfl, (List.append_nil _).symm⟩
  | @cons d d₁ d₂ op reply tr hsum hrun _ ih =>
    obtain ⟨⟨ok, dest, d₃⟩, hread, hreply⟩ := bind_eq_ok.mp hrun
    obtain ⟨rfl, rfl⟩ := ok_pair_inj hreply
    by_cases fits : d.head + op.2 ≤ d.dlen
    · rw [dsrlizrRead_fits sound fits] at hread
      obtain ⟨rfl, rfl, rfl⟩ := ok_triple_inj hread
      obtain ⟨sound', hdlen, hload⟩ := ih (sound.advance fits)
      refine ⟨sound', hdlen, hload.trans ?_⟩
      rw [taken_cons length_load, ← List.append_assoc, ← load_advance]
      rfl
    · rw [dsrlizrRead_short sound hsum (Nat.lt_of_not_le fits)] at hread
      obtain ⟨rfl, rfl, rfl⟩ := ok_triple_inj hread
      exact ih sound

variable [Fintype T] [Fintype U]

theorem writers_linearize (hpos : 0 < dcap) (hcap : dcap < 2 ^ 32)
    (hgiven : ∀ q, ∀ src ∈ given q, dcap + src.length < 2 ^ 32)
    (writes : Writers given data dcap σ) :
    (∃ log s, Logged given (fun q => (σ.places q).locals) log ∧
      Trace writing (srlizrCreate data dcap) (log.map Prod.snd) s ∧
      ((∀ q, σ.stages q ≠ .inside) → σ.data = s)) ∧ CanEnd writeCode latch σ :=
  workers_linearize exclusive obliging (fun _ _ => run_writeCode)
    (writers_served hpos hcap hgiven) writes

theorem readers_linearize (hpos : 0 < dlen) (hlen : dlen < 2 ^ 32)
    (hasked : ∀ q, ∀ op ∈ asked q, dlen + op.2 < 2 ^ 32) (reads : Readers asked data dlen τ) :
    (∃ log d, Logged asked (fun q => (τ.places q).locals) log ∧
      Trace reading (dsrlizrCreate data dlen) (log.map Prod.snd) d ∧
      ((∀ q, τ.stages q ≠ .inside) → τ.data = d)) ∧ CanEnd readCode latch τ :=
  workers_linearize exclusive obliging (fun _ => run_readCode)
    (readers_served hpos hlen hasked) reads

/-- Threads write records into one buffer and threads read it out, in any order of their accesses.
Each record is written as a whole or not at all, those of a thread in its order, and the reads
take the bytes of all records one after the other, each byte once. -/
theorem records_pass (hpos : 0 < dcap) (hcap : dcap < 2 ^ 32)
    (hgiven : ∀ q, ∀ src ∈ given q, dcap + src.length < 2 ^ 32)
    (hasked : ∀ q, ∀ op ∈ asked q, dcap + op.2 < 2 ^ 32) (writes : Writers given data dcap σ)
    (closed : ∀ q, σ.stages q ≠ .inside) (hsome : 0 < σ.data.dlen)
    (reads : Readers asked σ.data.data σ.data.dlen τ) :
    (∃ log dlog d, Logged given (fun q => (σ.places q).locals) log ∧
      Logged asked (fun q => (τ.places q).locals) dlog ∧
      Trace writing (srlizrCreate data dcap) (log.map Prod.snd) σ.data ∧
      Trace reading (dsrlizrCreate σ.data.data σ.data.dlen) (dlog.map Prod.snd) d ∧
      (taken (dlog.map Prod.snd)).flatten = (written (log.map Prod.snd)).flatten.take d.head) ∧
    CanEnd writeCode latch σ ∧ CanEnd readCode latch τ := by
  obtain ⟨⟨log, s, logged, trace, hdata⟩, hends⟩ := writers_linearize hpos hcap hgiven writes
  obtain rfl := hdata closed
  obtain ⟨sound, hdcap, hcontents⟩ := writing_run (srlizrCreate_sound hpos hcap) trace
  have hle : σ.data.dlen ≤ dcap := by
    have := sound.len_le
    rwa [hdcap] at this
  have hlen : σ.data.dlen < 2 ^ 32 := lt_of_le_of_lt hle hcap
  obtain ⟨⟨dlog, d, dlogged, dtrace, -⟩, dends⟩ := readers_linearize hsome hlen
    (fun q op hop => lt_of_le_of_lt (Nat.add_le_add_right hle op.2) (hasked q op hop)) reads
  refine ⟨⟨log, dlog, d, logged, dlogged, trace, dtrace, ?_⟩, hends, dends⟩
  have created : (dsrlizrCreate σ.data.data σ.data.dlen).Sound := dsrlizrCreate_sound hsome hlen
  obtain ⟨dsound, hdlen, hload⟩ := reading_run created dtrace
  have hhead : d.head ≤ σ.data.dlen := by
    have := dsound.head_le
    rwa [hdlen] at this
  have hbytes : (written (log.map Prod.snd)).flatten = load σ.data.data 0 σ.data.dlen :=
    hcontents.symm
  rw [hbytes, take_load, Nat.min_eq_left hhead]
  exact hload.symm

end Threads

/-- A thread that is alone writes its byte. -/
theorem one_byte_written {s : Serializer} {log : List (Unit × List UInt8 × Bool)}
    {locals : Unit → Work (List UInt8) Bool} (logged : Logged (fun _ => [[7]]) locals log)
    (hdone : (locals ()).todo = [])
    (trace : Trace writing (srlizrCreate zeros 4) (log.map Prod.snd) s) :
    s.dlen = 1 := by
  have hlog := logged.given ()
  have hall : ofThread () log = log.map Prod.snd :=
    congrArg (List.map Prod.snd) (List.filter_eq_self.mpr fun _ _ => rfl)
  rw [logged.log, hall, hdone, List.append_nil] at hlog
  generalize log.map Prod.snd = tr at hlog trace
  cases trace with
  | nil => cases hlog
  | @cons _ _ _ src ok tr _ hrun rest =>
    obtain ⟨rfl, hnil⟩ := List.cons.inj hlog
    obtain rfl : tr = [] := List.map_eq_nil_iff.mp hnil.symm
    cases rest
    obtain ⟨-, rfl⟩ := ok_pair_inj ((srlizrWrite_fits (srlizrCreate_sound (by decide) (by decide))
      (by decide)).symm.trans hrun)
    rfl

/-- One thread has written a byte, and two have asked for one each. -/
theorem records_pass_byte : ∃ σ τ log dlog d, Writers (fun _ : Unit => [[7]]) zeros 4 σ ∧
    Readers (fun _ : Fin 2 => [(zeros, 1)]) σ.data.data σ.data.dlen τ ∧
    Logged (fun _ : Unit => [[7]]) (fun q => (σ.places q).locals) log ∧
    Logged (fun _ : Fin 2 => [(zeros, 1)]) (fun q => (τ.places q).locals) dlog ∧
    Trace writing (srlizrCreate zeros 4) (log.map Prod.snd) σ.data ∧
    Trace reading (dsrlizrCreate σ.data.data σ.data.dlen) (dlog.map Prod.snd) d ∧
    (taken (dlog.map Prod.snd)).flatten = (written (log.map Prod.snd)).flatten.take d.head := by
  have hgiven : ∀ q : Unit, ∀ src ∈ (fun _ : Unit => [[(7 : UInt8)]]) q,
      4 + src.length < 2 ^ 32 := by
    simp
  have hasked : ∀ q : Fin 2, ∀ op ∈ (fun _ : Fin 2 => [(zeros, 1)]) q, 4 + op.2 < 2 ^ 32 := by
    simp
  have begun : Writers (fun _ : Unit => [[7]]) zeros 4
      (.initial latchInit (fun _ => ⟨[[7]], []⟩) (srlizrCreate zeros 4)) := .refl
  obtain ⟨-, σ, writes, hends⟩ := writers_linearize (by decide) (by decide) hgiven begun
  have closed : ∀ q, σ.stages q ≠ .inside := by
    intro q
    obtain ⟨_, hplace⟩ := hends q
    rw [State.stages, hplace]
    exact Stage.noConfusion
  have hone : σ.data.dlen = 1 := by
    obtain ⟨⟨log, s, logged, trace, hdata⟩, -⟩ :=
      writers_linearize (by decide) (by decide) hgiven writes
    obtain ⟨_, hplace⟩ := hends ()
    rw [hdata closed]
    exact one_byte_written logged (by rw [hplace]; rfl) trace
  have hsome : 0 < σ.data.dlen := by
    rw [hone]
    decide
  have reading : Readers (fun _ : Fin 2 => [(zeros, 1)]) σ.data.data σ.data.dlen
      (.initial latchInit (fun _ => ⟨[(zeros, 1)], []⟩)
        (dsrlizrCreate σ.data.data σ.data.dlen)) := .refl
  obtain ⟨-, τ, reads, -⟩ := readers_linearize hsome (by rw [hone]; decide)
    (fun q op hop => by rw [hone]; exact lt_of_le_of_lt (by omega) (hasked q op hop)) reading
  obtain ⟨⟨log, dlog, d, h⟩, -⟩ :=
    records_pass (by decide) (by decide) hgiven hasked writes closed hsome reads
  exact ⟨σ, τ, log, dlog, d, writes, reads, h⟩

end Serializers
