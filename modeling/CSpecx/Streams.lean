import CSpecx.CellMemory
import CSpecx.Component
import CSpecx.Errors

/-!
# Streams

A stream is a table of functions on a context and its `done` flag. A pull
stores bytes from a pointer on that has room for some, and a push reads from
the bytes behind its pointer. The endpoints clamp a transfer in bytes and
report it in elements.
-/

namespace Streams

open CExec Errors CellMemory Component

/-- `struct stream_ops` on streams `σ`. The arguments of a pull are the room
behind `dest`, the size of an element and their number; it returns the bytes
stored, too. -/
structure StreamOps (σ : Type) where
  pull : Option (σ → Nat → Nat → Nat → ErrorObject → Outcome (Int × List UInt8 × σ × ErrorObject))
  push : Option (σ → List UInt8 → Nat → Nat → ErrorObject → Outcome (Int × σ × ErrorObject))

/-- Conversion to a signed 32-bit integer. -/
def asI32 (n : Int) : Int := n.bmod (2 ^ 32)

/-- `MIN (avail, want)`. -/
def nextBytes (total pos size n : Nat) : Nat := min (sub32 total pos) (u32 (size * n))

/-- `next / size` as it is returned. -/
def countOf (next size : Nat) : Outcome Int := do
  access (0 < size)
  .ok (asI32 (next / size : Nat))

/-- `struct stream_ibuf_ctx`; `buf` holds `size` bytes. -/
structure IBuf where
  buf : Nat → UInt8
  size : Nat
  pos : Nat
  finished : Bool

def streamIbufPull (s : IBuf) (room size n : Nat) (e : ErrorObject) :
    Outcome (Int × List UInt8 × IBuf × ErrorObject) :=
  let next := nextBytes s.size s.pos size n
  if next = 0 then
    .ok (0, [], if sub32 s.size s.pos = 0 then { s with finished := true } else s, e)
  else do
    access (next ≤ room)
    access (s.pos + next ≤ s.size)
    let r ← countOf next size
    .ok (r, load s.buf s.pos next, { s with pos := u32 (s.pos + next) }, e)

def streamIbufInit (buf : Nat → UInt8) (size : Nat) : IBuf := ⟨buf, size, 0, false⟩

def streamIbufOps : StreamOps IBuf := ⟨some streamIbufPull, none⟩

/-- `struct stream_obuf_ctx`; `buf` holds `cap` bytes. -/
structure OBuf where
  buf : Nat → UInt8
  cap : Nat
  pos : Nat
  finished : Bool

def streamObufPush (s : OBuf) (src : List UInt8) (size n : Nat) (e : ErrorObject) :
    Outcome (Int × OBuf × ErrorObject) :=
  let next := nextBytes s.cap s.pos size n
  if next = 0 then .ok (0, if sub32 s.cap s.pos = 0 then { s with finished := true } else s, e)
  else do
    access (next ≤ src.length)
    access (s.pos + next ≤ s.cap)
    let r ← countOf next size
    .ok (r, { s with buf := store s.buf s.pos (src.take next), pos := u32 (s.pos + next) }, e)

def streamObufInit (buf : Nat → UInt8) (cap : Nat) : OBuf := ⟨buf, cap, 0, false⟩

def streamObufOps : StreamOps OBuf := ⟨none, some streamObufPush⟩

/-- `struct stream_opsink_ctx`. `op` is what the callback leaves in the buffer,
and `calls` lists what the buffer held when it was called. -/
structure OpSink where
  op : (Nat → UInt8) → Nat → UInt8
  buf : Nat → UInt8
  size : Nat
  pos : Nat
  calls : List (List UInt8)

/-- The call of `op` once the buffer is full. -/
def callOp (s : OpSink) : OpSink :=
  if s.pos = s.size then
    { s with buf := s.op s.buf, pos := 0, calls := s.calls ++ [load s.buf 0 s.size] }
  else s

def streamOpsinkPush (s : OpSink) (src : List UInt8) (size n : Nat) (e : ErrorObject) :
    Outcome (Int × OpSink × ErrorObject) :=
  let next := nextBytes s.size s.pos size n
  if next = 0 then .ok (0, s, e)
  else do
    access (next ≤ src.length)
    access (s.pos + next ≤ s.size)
    let s := callOp
      { s with buf := store s.buf s.pos (src.take next), pos := u32 (s.pos + next) }
    let r ← countOf next size
    .ok (r, s, e)

def streamOpsinkInit (op : (Nat → UInt8) → Nat → UInt8) (buf : Nat → UInt8) (size : Nat) : OpSink :=
  ⟨op, buf, size, 0, []⟩

def streamOpsinkOps : StreamOps OpSink := ⟨none, some streamOpsinkPush⟩

/-! ## Whole transfers -/

/-- The bytes are a number of elements that a signed 32-bit integer can report. -/
def Whole (next size : Nat) : Prop := size ∣ next ∧ next / size < 2 ^ 31

instance (next size : Nat) : Decidable (Whole next size) := inferInstanceAs (Decidable (_ ∧ _))

section Counting

variable {next size total pos n : Nat}

theorem asI32_of_lt {k : Nat} (h : k < 2 ^ 31) : asI32 k = k :=
  Int.bmod_eq_of_le (by omega) (by omega)

theorem asI32_le (k : Nat) : asI32 k ≤ k := by
  unfold asI32 Int.bmod
  dsimp only
  omega

theorem asI32_zero_div : asI32 (0 / size : Nat) = 0 := by
  rw [Nat.zero_div]
  decide

/-- From 2 ^ 31 on a count is reported as a negative number. -/
theorem asI32_neg {k : Nat} (hlow : 2 ^ 31 ≤ k) (hhigh : k < 2 ^ 32) : asI32 k < 0 := by
  unfold asI32 Int.bmod
  dsimp only
  omega

/-- The count reported is that of the bytes exactly when the transfer is whole. -/
theorem count_exact_iff (hnext : next < 2 ^ 32) :
    asI32 (next / size : Nat) * size = next ↔ Whole next size := by
  have hle := Nat.div_le_self next size
  constructor
  · intro heq
    by_cases hsmall : next / size < 2 ^ 31
    · rw [asI32_of_lt hsmall] at heq
      have hmul : next / size * size = next := by exact_mod_cast heq
      exact ⟨⟨next / size, by rw [Nat.mul_comm]; exact hmul.symm⟩, hsmall⟩
    · have hneg := asI32_neg (Nat.le_of_not_lt hsmall) (by omega)
      have hprod : asI32 (next / size : Nat) * size ≤ 0 :=
        Int.mul_nonpos_of_nonpos_of_nonneg (by omega) (by omega)
      have hzero : next = 0 := by omega
      rw [hzero, Nat.zero_div] at hsmall
      exact absurd (by decide) hsmall
  · rintro ⟨hdvd, hsmall⟩
    rw [asI32_of_lt hsmall]
    exact_mod_cast Nat.div_mul_cancel hdvd

theorem nextBytes_eq (hpos : pos ≤ total) (htotal : total < 2 ^ 32) (hwant : size * n < 2 ^ 32) :
    nextBytes total pos size n = min (total - pos) (size * n) := by
  rw [nextBytes, sub32_of_le hpos htotal, u32_of_lt hwant]

theorem countOf_of_pos (h : next ≠ 0) (hle : next ≤ size * n) :
    countOf next size = .ok (asI32 (next / size : Nat)) := by
  have hsize : 0 < size := by
    refine Nat.pos_of_ne_zero fun hzero => ?_
    rw [hzero, Nat.zero_mul] at hle
    omega
  rw [countOf, access_pos hsize, ok_bind]

end Counting

/-! ## One transfer at an endpoint -/

/-- The position moves by the bytes of the elements reported, and these are delivered. -/
def PullExact (s : IBuf) (size : Nat) (out : Outcome (Int × List UInt8 × IBuf × ErrorObject)) :
    Prop :=
  ∃ r bytes s' e, out = .ok (r, bytes, s', e) ∧ (s'.pos : Int) = s.pos + r * size ∧
    bytes = load s.buf s.pos (r * size).toNat

def PushExact (s : OBuf) (src : List UInt8) (size : Nat)
    (out : Outcome (Int × OBuf × ErrorObject)) : Prop :=
  ∃ r s' e, out = .ok (r, s', e) ∧ (s'.pos : Int) = s.pos + r * size ∧
    s'.buf = store s.buf s.pos (src.take (r * size).toNat)

/-- The bytes handed to `op` so far and the bytes that wait. -/
def received (s : OpSink) : List UInt8 := s.calls.flatten ++ load s.buf 0 s.pos

/-- The position, counted over the calls of `op`. -/
def sinkPosition (s : OpSink) : Nat := s.calls.flatten.length + s.pos

def SinkExact (s : OpSink) (src : List UInt8) (size : Nat)
    (out : Outcome (Int × OpSink × ErrorObject)) : Prop :=
  ∃ r s' e, out = .ok (r, s', e) ∧ (sinkPosition s' : Int) = sinkPosition s + r * size ∧
    received s' = received s ++ src.take (r * size).toNat

section Endpoints

variable {size n room next : Nat} {e : ErrorObject} {src : List UInt8}

theorem length_received (s : OpSink) : (received s).length = sinkPosition s := by
  rw [received, List.length_append, length_load, sinkPosition]

/-- A position moves by what is reported exactly when the transfer is whole. -/
theorem moved_iff {pos : Nat} (hnext : next < 2 ^ 32) :
    ((pos + next : Nat) : Int) = pos + asI32 (next / size : Nat) * size ↔ Whole next size := by
  rw [← count_exact_iff hnext]
  omega

theorem Whole.toNat_eq (whole : Whole next size) (hnext : next < 2 ^ 32) :
    (asI32 (next / size : Nat) * size).toNat = next := by
  rw [(count_exact_iff hnext).mpr whole, Int.toNat_natCast]

/-- A pull takes what there is of what is asked for. -/
theorem streamIbufPull_eq {s : IBuf} (hpos : s.pos ≤ s.size) (hsize : s.size < 2 ^ 32)
    (hwant : size * n < 2 ^ 32) (hroom : size * n ≤ room)
    (hnext : next = min (s.size - s.pos) (size * n)) :
    ∃ s', streamIbufPull s room size n e =
        .ok (asI32 (next / size : Nat), load s.buf s.pos next, s', e) ∧
      s'.pos = s.pos + next ∧ s'.buf = s.buf ∧ s'.size = s.size := by
  have hbytes : nextBytes s.size s.pos size n = next := by
    rw [nextBytes_eq hpos hsize hwant, hnext]
  rw [streamIbufPull, hbytes]
  by_cases hzero : next = 0
  · rw [if_pos hzero, hzero, asI32_zero_div, load_zero]
    refine ⟨_, rfl, ?_⟩
    split <;> exact ⟨rfl, rfl, rfl⟩
  · rw [if_neg hzero, access_pos (by omega), ok_bind, access_pos (by omega), ok_bind,
      countOf_of_pos (n := n) hzero (by omega), ok_bind, u32_of_lt (by omega)]
    exact ⟨_, rfl, rfl, rfl, rfl⟩

/-- A push stores what fits of what is offered. -/
theorem streamObufPush_eq {s : OBuf} (hpos : s.pos ≤ s.cap) (hcap : s.cap < 2 ^ 32)
    (hwant : size * n < 2 ^ 32) (hsrc : size * n ≤ src.length)
    (hnext : next = min (s.cap - s.pos) (size * n)) :
    ∃ s', streamObufPush s src size n e = .ok (asI32 (next / size : Nat), s', e) ∧
      s'.pos = s.pos + next ∧ s'.buf = store s.buf s.pos (src.take next) ∧ s'.cap = s.cap := by
  have hbytes : nextBytes s.cap s.pos size n = next := by
    rw [nextBytes_eq hpos hcap hwant, hnext]
  rw [streamObufPush, hbytes]
  by_cases hzero : next = 0
  · rw [if_pos hzero, hzero, asI32_zero_div, List.take_zero, store_nil]
    refine ⟨_, rfl, ?_⟩
    split <;> exact ⟨rfl, rfl, rfl⟩
  · rw [if_neg hzero, access_pos (by omega), ok_bind, access_pos (by omega), ok_bind,
      countOf_of_pos (n := n) hzero (by omega), ok_bind, u32_of_lt (by omega)]
    exact ⟨_, rfl, rfl, rfl, rfl⟩

/-- What a callback sees is a full buffer. -/
structure Grouped (s : OpSink) : Prop where
  groups : ∀ group ∈ s.calls, group.length = s.size
  pos_lt : s.pos < s.size
  size_lt : s.size < 2 ^ 32

theorem received_callOp (s : OpSink) : received (callOp s) = received s := by
  unfold callOp
  split
  · next hfull =>
    rw [received, received, hfull]
    simp
  · rfl

theorem size_callOp (s : OpSink) : (callOp s).size = s.size := by
  unfold callOp
  split <;> rfl

theorem callOp_grouped {s : OpSink} (groups : ∀ group ∈ s.calls, group.length = s.size)
    (hpos : s.pos ≤ s.size) (hmore : 0 < s.size) (hsize : s.size < 2 ^ 32) :
    Grouped (callOp s) := by
  unfold callOp
  split
  · refine ⟨fun group hgroup => ?_, hmore, hsize⟩
    rcases List.mem_append.mp hgroup with hold | hnew
    · exact groups group hold
    · rw [List.mem_singleton.mp hnew, length_load]
  · next hnot => exact ⟨groups, Nat.lt_of_le_of_ne hpos hnot, hsize⟩

/-- A push takes what the buffer of the sink has room for. -/
theorem streamOpsinkPush_eq {s : OpSink} (hpos : s.pos ≤ s.size) (hsize : s.size < 2 ^ 32)
    (hwant : size * n < 2 ^ 32) (hsrc : size * n ≤ src.length)
    (hnext : next = min (s.size - s.pos) (size * n)) :
    ∃ s', streamOpsinkPush s src size n e = .ok (asI32 (next / size : Nat), s', e) ∧
      received s' = received s ++ src.take next ∧ s'.size = s.size ∧
      (Grouped s → Grouped s') := by
  have hbytes : nextBytes s.size s.pos size n = next := by
    rw [nextBytes_eq hpos hsize hwant, hnext]
  rw [streamOpsinkPush, hbytes]
  dsimp only
  by_cases hzero : next = 0
  · rw [if_pos hzero, hzero, asI32_zero_div, List.take_zero, List.append_nil]
    exact ⟨s, rfl, rfl, rfl, id⟩
  · rw [if_neg hzero, access_pos (by omega), ok_bind, access_pos (by omega), ok_bind,
      countOf_of_pos (n := n) hzero (by omega), ok_bind, u32_of_lt (by omega)]
    have hlen : (src.take next).length = next := by
      rw [List.length_take]
      omega
    have hstored : load (store s.buf s.pos (src.take next)) s.pos next = src.take next :=
      load_store_of_length hlen
    refine ⟨_, rfl, ?_, size_callOp _, fun grouped => ?_⟩
    · rw [received_callOp, received, received, List.append_assoc]
      dsimp only
      rw [load_add, Nat.zero_add, load_store_of_disjoint (.inl (by omega)), hstored]
    · have hlt := grouped.pos_lt
      exact callOp_grouped grouped.groups (show s.pos + next ≤ s.size by omega)
        (show 0 < s.size by omega) hsize

/-- Each endpoint reports what it moves exactly when it moves whole elements. -/
theorem pullExact_iff {s : IBuf} (hpos : s.pos ≤ s.size) (hsize : s.size < 2 ^ 32)
    (hwant : size * n < 2 ^ 32) (hroom : size * n ≤ room) :
    PullExact s size (streamIbufPull s room size n e) ↔
      Whole (min (s.size - s.pos) (size * n)) size := by
  obtain ⟨s', hrun, hmoved, -, -⟩ := streamIbufPull_eq (e := e) hpos hsize hwant hroom rfl
  have hnext : min (s.size - s.pos) (size * n) < 2 ^ 32 := by omega
  constructor
  · rintro ⟨r, bytes, s'', e', hrun', heq, -⟩
    rw [hrun] at hrun'
    obtain ⟨rfl, -, hrest⟩ := ok_triple_inj hrun'
    obtain ⟨rfl, -⟩ := Prod.mk.inj hrest
    rw [hmoved] at heq
    exact (moved_iff hnext).mp heq
  · intro whole
    refine ⟨_, _, s', e, hrun, ?_, ?_⟩
    · rw [hmoved]
      exact (moved_iff hnext).mpr whole
    · rw [whole.toNat_eq hnext]

theorem pushExact_iff {s : OBuf} (hpos : s.pos ≤ s.cap) (hcap : s.cap < 2 ^ 32)
    (hwant : size * n < 2 ^ 32) (hsrc : size * n ≤ src.length) :
    PushExact s src size (streamObufPush s src size n e) ↔
      Whole (min (s.cap - s.pos) (size * n)) size := by
  obtain ⟨s', hrun, hmoved, hbuf, -⟩ := streamObufPush_eq (e := e) hpos hcap hwant hsrc rfl
  have hnext : min (s.cap - s.pos) (size * n) < 2 ^ 32 := by omega
  constructor
  · rintro ⟨r, s'', e', hrun', heq, -⟩
    rw [hrun] at hrun'
    obtain ⟨rfl, rfl, -⟩ := ok_triple_inj hrun'
    rw [hmoved] at heq
    exact (moved_iff hnext).mp heq
  · intro whole
    refine ⟨_, s', e, hrun, ?_, ?_⟩
    · rw [hmoved]
      exact (moved_iff hnext).mpr whole
    · rw [whole.toNat_eq hnext, hbuf]

theorem sinkExact_iff {s : OpSink} (hpos : s.pos ≤ s.size) (hsize : s.size < 2 ^ 32)
    (hwant : size * n < 2 ^ 32) (hsrc : size * n ≤ src.length) :
    SinkExact s src size (streamOpsinkPush s src size n e) ↔
      Whole (min (s.size - s.pos) (size * n)) size := by
  obtain ⟨s', hrun, hreceived, -, -⟩ := streamOpsinkPush_eq (e := e) hpos hsize hwant hsrc rfl
  have hnext : min (s.size - s.pos) (size * n) < 2 ^ 32 := by omega
  have hmoved : sinkPosition s' = sinkPosition s + min (s.size - s.pos) (size * n) := by
    rw [← length_received, hreceived, List.length_append, length_received, List.length_take]
    omega
  constructor
  · rintro ⟨r, s'', e', hrun', heq, -⟩
    rw [hrun] at hrun'
    obtain ⟨rfl, rfl, -⟩ := ok_triple_inj hrun'
    rw [hmoved] at heq
    exact (moved_iff hnext).mp heq
  · intro whole
    refine ⟨_, s', e, hrun, ?_, ?_⟩
    · rw [hmoved]
      exact (moved_iff hnext).mpr whole
    · rw [whole.toNat_eq hnext, hreceived]

end Endpoints

/-! ## Runs of a sink -/

/-- The arguments of a push. -/
structure Push where
  src : List UInt8
  size : Nat
  n : Nat
  e : ErrorObject

/-- Pushes that the source has the bytes for and that move whole elements. -/
def sinkRuns : Interface OpSink Push Int where
  pre s p := p.size * p.n < 2 ^ 32 ∧ p.size * p.n ≤ p.src.length ∧
    Whole (min (s.size - s.pos) (p.size * p.n)) p.size
  step s p := do
    let (r, s, _) ← streamOpsinkPush s p.src p.size p.n p.e
    .ok (r, s)

/-- The bytes of the elements that the pushes of a run report. -/
def reported (tr : List (Push × Int)) : List UInt8 :=
  (tr.map fun entry => entry.1.src.take (entry.2 * entry.1.size).toNat).flatten

theorem sinkRuns_received {s s' : OpSink} {tr : List (Push × Int)} (grouped : Grouped s)
    (run : Trace sinkRuns s tr s') :
    Grouped s' ∧ s'.size = s.size ∧ received s' = received s ++ reported tr := by
  induction run with
  | nil s => exact ⟨grouped, rfl, (List.append_nil _).symm⟩
  | @cons s s₁ s' p r tr hpre hstep _ ih =>
    obtain ⟨hwant, hsrc, whole⟩ := hpre
    have hlt := grouped.pos_lt
    have hsize := grouped.size_lt
    obtain ⟨s₂, hpush, hreceived, hsize₂, hgrouped⟩ := streamOpsinkPush_eq (e := p.e)
      (Nat.le_of_lt hlt) hsize hwant hsrc rfl
    have hstep' : sinkRuns.step s p =
        .ok (asI32 (min (s.size - s.pos) (p.size * p.n) / p.size : Nat), s₂) := by
      show (streamOpsinkPush s p.src p.size p.n p.e >>= _) = _
      rw [hpush, ok_bind]
    obtain ⟨rfl, rfl⟩ := ok_pair_inj (hstep'.symm.trans hstep)
    obtain ⟨grouped', hsize', hreceived'⟩ := ih (hgrouped grouped)
    refine ⟨grouped', hsize'.trans hsize₂, ?_⟩
    rw [hreceived', hreceived, List.append_assoc, reported, reported, List.map_cons,
      List.flatten_cons, whole.toNat_eq (by omega)]

/-- An endpoint reports the bytes that it moves exactly when they are whole elements,
and over pushes of that kind a sink hands the bytes reported to its callback in
groups of its size. -/
theorem endpoints_report (size n : Nat) (e : ErrorObject) (hwant : size * n < 2 ^ 32) :
    (∀ (s : IBuf) (room : Nat), s.pos ≤ s.size → s.size < 2 ^ 32 → size * n ≤ room →
      (PullExact s size (streamIbufPull s room size n e) ↔
        Whole (min (s.size - s.pos) (size * n)) size)) ∧
    (∀ (s : OBuf) (src : List UInt8), s.pos ≤ s.cap → s.cap < 2 ^ 32 → size * n ≤ src.length →
      (PushExact s src size (streamObufPush s src size n e) ↔
        Whole (min (s.cap - s.pos) (size * n)) size)) ∧
    (∀ (s : OpSink) (src : List UInt8), s.pos ≤ s.size → s.size < 2 ^ 32 →
      size * n ≤ src.length →
        (SinkExact s src size (streamOpsinkPush s src size n e) ↔
          Whole (min (s.size - s.pos) (size * n)) size)) ∧
    ∀ (op : (Nat → UInt8) → Nat → UInt8) (buf : Nat → UInt8) (size : Nat)
      (tr : List (Push × Int)) (s : OpSink), 0 < size → size < 2 ^ 32 →
      Trace sinkRuns (streamOpsinkInit op buf size) tr s →
        s.calls.flatten ++ load s.buf 0 s.pos = reported tr ∧
        (∀ group ∈ s.calls, group.length = size) ∧ s.pos < size := by
  refine ⟨fun s room hpos hsize hroom => pullExact_iff hpos hsize hwant hroom,
    fun s src hpos hcap hsrc => pushExact_iff hpos hcap hwant hsrc,
    fun s src hpos hsize hsrc => sinkExact_iff hpos hsize hwant hsrc, ?_⟩
  intro op buf size tr s hpos hsize run
  have grouped : Grouped (streamOpsinkInit op buf size) :=
    ⟨fun group hgroup => absurd hgroup List.not_mem_nil, hpos, hsize⟩
  obtain ⟨⟨groups, hlt, -⟩, hsame, hreceived⟩ := sinkRuns_received grouped run
  have hsame : s.size = size := hsame
  rw [hsame] at groups hlt
  exact ⟨hreceived, groups, hlt⟩

def countUp : Nat → UInt8 := UInt8.ofNat

/-- Two elements of two bytes out of five bytes. -/
theorem two_elements_reported :
    PullExact (streamIbufInit countUp 5) 2
      (streamIbufPull (streamIbufInit countUp 5) 4 2 2 errorCreate) :=
  ((endpoints_report 2 2 errorCreate (by decide)).1 (streamIbufInit countUp 5) 4 (by decide)
    (by decide) (by decide)).mpr (by decide)

def sixBytes : List UInt8 := [6, 7, 8, 9, 10, 11]

/-- Three elements of two bytes at an endpoint of five bytes: all five move, and two
elements are reported. -/
theorem fifth_byte_unreported :
    (streamIbufPull (streamIbufInit countUp 5) 6 2 3 errorCreate).map
        (fun out => (out.1, out.2.1, out.2.2.1.pos)) = .ok (2, [0, 1, 2, 3, 4], 5) ∧
    ¬ PullExact (streamIbufInit countUp 5) 2
      (streamIbufPull (streamIbufInit countUp 5) 6 2 3 errorCreate) ∧
    ¬ PushExact (streamObufInit countUp 5) sixBytes 2
      (streamObufPush (streamObufInit countUp 5) sixBytes 2 3 errorCreate) ∧
    (streamOpsinkPush (streamOpsinkInit id countUp 5) sixBytes 2 3 errorCreate).map
        (fun out => (out.1, out.2.1.calls)) = .ok (2, [[6, 7, 8, 9, 10]]) ∧
    ¬ SinkExact (streamOpsinkInit id countUp 5) sixBytes 2
      (streamOpsinkPush (streamOpsinkInit id countUp 5) sixBytes 2 3 errorCreate) := by
  have split : ¬ Whole (min 5 (2 * 3)) 2 := by decide
  refine ⟨by decide +kernel, fun reports => split ?_, fun reports => split ?_, by decide +kernel,
    fun reports => split ?_⟩
  · exact (pullExact_iff (by decide) (by decide) (by decide) (by decide)).mp reports
  · exact (pushExact_iff (by decide) (by decide) (by decide) (by decide)).mp reports
  · exact (sinkExact_iff (by decide) (by decide) (by decide) (by decide)).mp reports

end Streams
