import CSpecx.Streams

/-!
# A stream with a byte limit

`stream_limit` wraps a stream and counts the bytes that go through it, pulled
and pushed alike. The underlying stream is any one; a ledger keeps the bytes
that it transferred and the number of its calls.
-/

namespace StreamLimits

open CExec Errors CellMemory Component Streams

/-- Reduction to an unsigned 64-bit value. -/
def u64 (n : Nat) : Nat := n % 2 ^ 64

/-- Unsigned 64-bit subtraction. -/
def sub64 (a b : Nat) : Nat := (a + 2 ^ 64 - b) % 2 ^ 64

/-- A stream with its `done` flag. A pull returns the bytes stored and a push the bytes
taken, next to the count. -/
structure ByteStream (σ : Type) where
  pull : σ → Nat → Nat → Nat → ErrorObject → Outcome (Int × List UInt8 × σ × ErrorObject)
  push : σ → List UInt8 → Nat → Nat → ErrorObject → Outcome (Int × List UInt8 × σ × ErrorObject)
  isdone : σ → Bool

variable {σ : Type}

def streamBread (S : ByteStream σ) (s : σ) (room size n : Nat) (e : ErrorObject) :
    Outcome (Int × List UInt8 × σ × ErrorObject) := S.pull s room size n e

def streamBwrite (S : ByteStream σ) (s : σ) (buf : List UInt8) (size n : Nat) (e : ErrorObject) :
    Outcome (Int × List UInt8 × σ × ErrorObject) := S.push s buf size n e

def streamIsdone (S : ByteStream σ) (s : σ) : Bool := S.isdone s

/-- `struct stream_limit_ctx` and the `done` flag of its stream. -/
structure Limit (σ : Type) where
  underlying : σ
  limit : Nat
  consumed : Nat
  finished : Bool
  deriving DecidableEq

def streamLimitInit (underlying : σ) (limit : Nat) : Limit σ := ⟨underlying, limit, 0, false⟩

def streamFinish (s : Limit σ) : Limit σ := { s with finished := true }

/-- What the two directions share; `call` is the call of the underlying stream. -/
def transfer (S : ByteStream σ) (s : Limit σ) (size n : Nat) (e : ErrorObject)
    (call : σ → Nat → ErrorObject → Outcome (Int × List UInt8 × σ × ErrorObject)) :
    Outcome (Int × List UInt8 × Limit σ × ErrorObject) :=
  let remaining := sub64 s.limit s.consumed
  if remaining = 0 then .ok (0, [], streamFinish s, e)
  else do
    access (0 < size)
    let cappedN := u32 (min (u32 (size * n)) remaining / size)
    if cappedN = 0 then .ok (0, [], streamFinish s, e)
    else do
      let (got, bytes, underlying, e) ← call s.underlying cappedN e
      let s := { s with underlying }
      if got < 0 then .ok (got, bytes, s, e)
      else
        let s := { s with consumed := u64 (s.consumed + got.toNat * size) }
        if s.limit ≤ s.consumed ∨ streamIsdone S s.underlying then
          .ok (got, bytes, streamFinish s, e)
        else .ok (got, bytes, s, e)

def streamLimitPull (S : ByteStream σ) (s : Limit σ) (room size n : Nat) (e : ErrorObject) :
    Outcome (Int × List UInt8 × Limit σ × ErrorObject) :=
  transfer S s size n e fun underlying k e => streamBread S underlying room size k e

def streamLimitPush (S : ByteStream σ) (s : Limit σ) (buf : List UInt8) (size n : Nat)
    (e : ErrorObject) : Outcome (Int × List UInt8 × Limit σ × ErrorObject) :=
  transfer S s size n e fun underlying k e => streamBwrite S underlying buf size k e

def streamLimit (S : ByteStream σ) : ByteStream (Limit σ) where
  pull := streamLimitPull S
  push := streamLimitPush S
  isdone := Limit.finished

/-- The count of a call that does not fail is that of the bytes transferred. -/
structure Exact (S : ByteStream σ) : Prop where
  pull : ∀ s room size n e r bytes s' e', S.pull s room size n e = .ok (r, bytes, s', e') →
    0 ≤ r → r ≤ n ∧ bytes.length = r.toNat * size
  push : ∀ s src size n e r bytes s' e', S.push s src size n e = .ok (r, bytes, s', e') →
    0 ≤ r → r ≤ n ∧ bytes.length = r.toNat * size ∧ bytes = src.take (r.toNat * size)

/-! ## The ledger -/

structure Ledger (σ : Type) where
  stream : σ
  log : List UInt8
  calls : Nat
  deriving DecidableEq

def openLedger (s : σ) : Ledger σ := ⟨s, [], 0⟩

/-- A failed call reports no transfer. -/
def record (s : Ledger σ) :
    Int × List UInt8 × σ × ErrorObject → Int × List UInt8 × Ledger σ × ErrorObject
  | (r, bytes, s', e) =>
    (r, bytes, ⟨s', if r < 0 then s.log else s.log ++ bytes, s.calls + 1⟩, e)

def recorded (S : ByteStream σ) : ByteStream (Ledger σ) where
  pull s room size n e := (S.pull s.stream room size n e).map (record s)
  push s src size n e := (S.push s.stream src size n e).map (record s)
  isdone s := S.isdone s.stream

/-! ## Runs of the limiter -/

inductive Call where
  | pull (room size n : Nat) (e : ErrorObject)
  | push (src : List UInt8) (size n : Nat) (e : ErrorObject)

abbrev Reply := Int × List UInt8 × ErrorObject

def asReply : Int × List UInt8 × σ × ErrorObject → Reply × σ
  | (r, bytes, s, e) => ((r, bytes, e), s)

def perform (S : ByteStream σ) (s : σ) : Call → Outcome (Reply × σ)
  | .pull room size n e => (S.pull s room size n e).map asReply
  | .push src size n e => (S.push s src size n e).map asReply

/-- The arguments are unsigned 32-bit integers, and elements are asked for. -/
def Call.Valid : Call → Prop
  | .pull _ size n _ => size < 2 ^ 32 ∧ n < 2 ^ 32 ∧ 1 ≤ n
  | .push _ size n _ => size < 2 ^ 32 ∧ n < 2 ^ 32 ∧ 1 ≤ n

def limitInterface (S : ByteStream σ) : Interface (Limit (Ledger σ)) Call Reply where
  pre _ call := call.Valid
  step := perform (streamLimit (recorded S))

/-- The elements that a caller finds in the buffer behind a pull, and those of its own that
a push took. -/
def deliveredBy : Call → Reply → List UInt8
  | .pull _ size _ _, (r, bytes, _) => bytes.take (r.toNat * size)
  | .push src size _ _, (r, _, _) => src.take (r.toNat * size)

def delivered (tr : List (Call × Reply)) : List UInt8 :=
  tr.flatMap fun event => deliveredBy event.1 event.2

section Steps

variable {S : ByteStream σ}

theorem sub64_of_le {a b : Nat} (hb : b ≤ a) (ha : a < 2 ^ 64) : sub64 a b = a - b := by
  unfold sub64
  rw [show a + 2 ^ 64 - b = a - b + 2 ^ 64 by omega, Nat.add_mod_right,
    Nat.mod_eq_of_lt (by omega)]

theorem u64_of_lt {n : Nat} (h : n < 2 ^ 64) : u64 n = n := Nat.mod_eq_of_lt h

/-- What is left is the bytes of the elements asked for, or more. -/
theorem cappedN_le (size n remaining : Nat) :
    u32 (min (u32 (size * n)) remaining / size) ≤ n ∧
      u32 (min (u32 (size * n)) remaining / size) * size ≤ remaining := by
  have hcap : u32 (min (u32 (size * n)) remaining / size) ≤ min (u32 (size * n)) remaining / size :=
    u32_le _
  constructor
  · refine le_trans hcap (Nat.div_le_of_le_mul ?_)
    exact le_trans (Nat.min_le_left _ _) (u32_le _)
  · refine le_trans (Nat.mul_le_mul_right size hcap) (le_trans (Nat.div_mul_le_self _ _) ?_)
    exact Nat.min_le_right _ _

/-- A call that returns either finds nothing left, or it passes on a smaller one. -/
theorem transfer_cases {s s' : Limit σ} {size n : Nat} {e e' : ErrorObject} {r : Int}
    {bytes : List UInt8}
    {call : σ → Nat → ErrorObject → Outcome (Int × List UInt8 × σ × ErrorObject)}
    (h : transfer S s size n e call = .ok (r, bytes, s', e')) :
    r = 0 ∧ bytes = [] ∧ s' = streamFinish s ∨
    ∃ k underlying, k ≤ n ∧ k * size ≤ sub64 s.limit s.consumed ∧
      call s.underlying k e = .ok (r, bytes, underlying, e') ∧
      s'.limit = s.limit ∧ s'.underlying = underlying ∧
      s'.consumed = if r < 0 then s.consumed else u64 (s.consumed + r.toNat * size) := by
  obtain ⟨hn, hbytes⟩ := cappedN_le size n (sub64 s.limit s.consumed)
  rw [transfer] at h
  dsimp only at h
  by_cases hnone : sub64 s.limit s.consumed = 0
  · rw [if_pos hnone] at h
    obtain ⟨rfl, rfl, hrest⟩ := ok_triple_inj h
    exact .inl ⟨rfl, rfl, (Prod.mk.inj hrest).1.symm⟩
  · rw [if_neg hnone] at h
    obtain ⟨_, -, h⟩ := bind_eq_ok.mp h
    generalize u32 (min (u32 (size * n)) (sub64 s.limit s.consumed) / size) = k at hn hbytes h
    by_cases hzero : k = 0
    · rw [if_pos hzero] at h
      obtain ⟨rfl, rfl, hrest⟩ := ok_triple_inj h
      exact .inl ⟨rfl, rfl, (Prod.mk.inj hrest).1.symm⟩
    · rw [if_neg hzero] at h
      obtain ⟨⟨got, stored, underlying, e₁⟩, hcall, h⟩ := bind_eq_ok.mp h
      dsimp only at h
      refine .inr ⟨k, underlying, hn, hbytes, ?_⟩
      by_cases hneg : got < 0
      · rw [if_pos hneg] at h
        obtain ⟨rfl, rfl, hrest⟩ := ok_triple_inj h
        obtain ⟨rfl, rfl⟩ := Prod.mk.inj hrest
        exact ⟨hcall, rfl, rfl, (if_pos hneg).symm⟩
      · rw [if_neg hneg] at h
        split at h
        all_goals
          obtain ⟨rfl, rfl, hrest⟩ := ok_triple_inj h
          obtain ⟨rfl, rfl⟩ := Prod.mk.inj hrest
          exact ⟨hcall, rfl, rfl, (if_neg hneg).symm⟩

/-- Behind the last byte nothing is called. -/
theorem transfer_spent {s : Limit σ} (hspent : s.consumed = s.limit) (hlimit : s.limit < 2 ^ 64)
    (size n : Nat) (e : ErrorObject)
    (call : σ → Nat → ErrorObject → Outcome (Int × List UInt8 × σ × ErrorObject)) :
    transfer S s size n e call = .ok (0, [], streamFinish s, e) := by
  rw [transfer]
  dsimp only
  rw [sub64_of_le (by omega) hlimit, hspent, Nat.sub_self, if_pos rfl]

/-- With a bound on the elements that a call moves, the count stays under the limit. -/
theorem transfer_counts {s s' : Limit σ} {size n : Nat} {e e' : ErrorObject} {r : Int}
    {bytes : List UInt8}
    {call : σ → Nat → ErrorObject → Outcome (Int × List UInt8 × σ × ErrorObject)}
    (hlimit : s.limit < 2 ^ 64) (hle : s.consumed ≤ s.limit)
    (hcall : ∀ k underlying, call s.underlying k e = .ok (r, bytes, underlying, e') → 0 ≤ r → r ≤ k)
    (h : transfer S s size n e call = .ok (r, bytes, s', e')) :
    s'.limit = s.limit ∧ s'.consumed = s.consumed + r.toNat * size ∧ s'.consumed ≤ s.limit := by
  obtain ⟨rfl, -, rfl⟩ | ⟨k, underlying, -, hroom, hret, hsame, -, hcount⟩ := transfer_cases h
  · rw [Int.toNat_zero, Nat.zero_mul]
    exact ⟨rfl, rfl, hle⟩
  · refine ⟨hsame, ?_⟩
    by_cases hneg : r < 0
    · rw [if_pos hneg] at hcount
      rw [hcount, Int.toNat_of_nonpos (by omega), Nat.zero_mul]
      exact ⟨rfl, hle⟩
    · rw [if_neg hneg] at hcount
      rw [sub64_of_le hle hlimit] at hroom
      have hmoved : r.toNat ≤ k := by
        have := hcall k underlying hret (by omega)
        omega
      have hbytes : r.toNat * size ≤ k * size := Nat.mul_le_mul_right size hmoved
      rw [u64_of_lt (by omega)] at hcount
      exact ⟨hcount, by omega⟩

/-- A limiter can be limited again. -/
theorem streamLimit_exact (exact : Exact S) : Exact (streamLimit S) where
  pull s room size n e r bytes s' e' h hpos := by
    have hcall : transfer S s size n e
        (fun underlying k e => streamBread S underlying room size k e)
        = .ok (r, bytes, s', e') := h
    obtain ⟨rfl, rfl, -⟩ | ⟨k, underlying, hle, -, hret, -⟩ := transfer_cases hcall
    · exact ⟨Int.natCast_nonneg n, (Nat.zero_mul size).symm⟩
    · obtain ⟨hr, hlength⟩ := exact.pull _ _ _ _ _ _ _ _ _ hret hpos
      exact ⟨by omega, hlength⟩
  push s src size n e r bytes s' e' h hpos := by
    have hcall : transfer S s size n e
        (fun underlying k e => streamBwrite S underlying src size k e)
        = .ok (r, bytes, s', e') := h
    obtain ⟨rfl, rfl, -⟩ | ⟨k, underlying, hle, -, hret, -⟩ := transfer_cases hcall
    · rw [Int.toNat_zero, Nat.zero_mul]
      exact ⟨Int.natCast_nonneg n, rfl, rfl⟩
    · obtain ⟨hr, hlength, htaken⟩ := exact.push _ _ _ _ _ _ _ _ _ hret hpos
      exact ⟨by omega, hlength, htaken⟩

/-- A call of the underlying stream, behind the ledger. -/
theorem record_cases {s s' : Ledger σ} {e' : ErrorObject} {r : Int} {bytes : List UInt8}
    {out : Outcome (Int × List UInt8 × σ × ErrorObject)}
    (h : out.map (record s) = .ok (r, bytes, s', e')) :
    ∃ stream, out = .ok (r, bytes, stream, e') ∧
      s'.log = if r < 0 then s.log else s.log ++ bytes := by
  cases out with
  | error fault => cases h
  | ok answer =>
    obtain ⟨r₁, bytes₁, stream, e₁⟩ := answer
    obtain ⟨rfl, rfl, hrest⟩ := ok_triple_inj h
    obtain ⟨rfl, rfl⟩ := Prod.mk.inj hrest
    exact ⟨stream, rfl, rfl⟩

/-- `moved` is what a call delivers; it is what the underlying stream transfers. -/
theorem transfer_ledger {s s' : Limit (Ledger σ)} {size n : Nat} {e e' : ErrorObject} {r : Int}
    {bytes moved : List UInt8}
    (call : σ → Nat → ErrorObject → Outcome (Int × List UInt8 × σ × ErrorObject))
    (hlimit : s.limit < 2 ^ 64) (hle : s.consumed ≤ s.limit)
    (hcall : ∀ k stream, call s.underlying.stream k e = .ok (r, bytes, stream, e') → 0 ≤ r →
      r ≤ k ∧ bytes.length = r.toNat * size ∧ moved = bytes)
    (hnone : r ≤ 0 → moved = [])
    (h : transfer (recorded S) s size n e
      (fun ledger k e => (call ledger.stream k e).map (record ledger)) = .ok (r, bytes, s', e')) :
    s'.limit = s.limit ∧ s'.consumed ≤ s.limit ∧ s'.consumed = s.consumed + moved.length ∧
      s'.underlying.log = s.underlying.log ++ moved := by
  obtain ⟨hsame, hcount, hbound⟩ := transfer_counts hlimit hle (fun k ledger hret hpos => by
    obtain ⟨stream, hret, -⟩ := record_cases hret
    exact (hcall k stream hret hpos).1) h
  refine ⟨hsame, hbound, ?_⟩
  obtain ⟨rfl, -, rfl⟩ | ⟨k, ledger, -, -, hret, -, rfl, -⟩ := transfer_cases h
  · rw [hnone le_rfl, List.append_nil]
    exact ⟨rfl, rfl⟩
  · obtain ⟨stream, hret, hlog⟩ := record_cases hret
    by_cases hneg : r < 0
    · rw [hnone (by omega), List.append_nil, hlog, if_pos hneg, hcount,
        Int.toNat_of_nonpos (by omega), Nat.zero_mul]
      exact ⟨rfl, rfl⟩
    · obtain ⟨-, hlength, rfl⟩ := hcall k stream hret (by omega)
      rw [hlog, if_neg hneg, hcount, hlength]
      exact ⟨rfl, rfl⟩

theorem map_asReply_ok {s' : σ} {reply : Reply}
    {out : Outcome (Int × List UInt8 × σ × ErrorObject)} (h : out.map asReply = .ok (reply, s')) :
    out = .ok (reply.1, reply.2.1, s', reply.2.2) := by
  cases out with
  | error fault => cases h
  | ok answer =>
    obtain ⟨rfl, rfl⟩ := ok_pair_inj h
    rfl

/-- What one call of the limiter does to the counter and to the ledger. -/
theorem limit_step (exact : Exact S) {s s' : Limit (Ledger σ)} {call : Call} {reply : Reply}
    (hlimit : s.limit < 2 ^ 64) (hle : s.consumed ≤ s.limit)
    (h : perform (streamLimit (recorded S)) s call = .ok (reply, s')) :
    s'.limit = s.limit ∧ s'.consumed ≤ s.limit ∧
      s'.consumed = s.consumed + (deliveredBy call reply).length ∧
      s'.underlying.log = s.underlying.log ++ deliveredBy call reply := by
  obtain ⟨r, bytes, e'⟩ := reply
  cases call with
  | pull room size n e =>
    refine transfer_ledger (fun stream k e => S.pull stream room size k e) hlimit hle
      (fun k stream hpull hpos => ?_) (fun hnone => ?_) (map_asReply_ok h)
    · obtain ⟨hr, hlength⟩ := exact.pull _ _ _ _ _ _ _ _ _ hpull hpos
      exact ⟨hr, hlength, List.take_of_length_le (le_of_eq hlength)⟩
    · rw [deliveredBy, Int.toNat_of_nonpos hnone, Nat.zero_mul, List.take_zero]
  | push src size n e =>
    refine transfer_ledger (fun stream k e => S.push stream src size k e) hlimit hle
      (fun k stream hpush hpos => ?_) (fun hnone => ?_) (map_asReply_ok h)
    · obtain ⟨hr, hlength, htaken⟩ := exact.push _ _ _ _ _ _ _ _ _ hpush hpos
      exact ⟨hr, hlength, htaken.symm⟩
    · rw [deliveredBy, Int.toNat_of_nonpos hnone, Nat.zero_mul, List.take_zero]

theorem limit_step_negative (exact : Exact S) {s s' : Limit (Ledger σ)} {call : Call}
    {reply : Reply} (hlimit : s.limit < 2 ^ 64) (hle : s.consumed ≤ s.limit)
    (h : perform (streamLimit (recorded S)) s call = .ok (reply, s')) (hneg : reply.1 < 0) :
    s'.consumed = s.consumed := by
  obtain ⟨-, -, hcount, -⟩ := limit_step exact hlimit hle h
  have hnone : deliveredBy call reply = [] := by
    obtain ⟨r, bytes, e'⟩ := reply
    cases call <;>
      rw [deliveredBy, Int.toNat_of_nonpos (le_of_lt hneg), Nat.zero_mul, List.take_zero]
  rw [hcount, hnone, List.length_nil, Nat.add_zero]

/-- Once the limit is reached a call answers zero, and the underlying stream is as it was. -/
theorem limit_step_spent {s : Limit (Ledger σ)} (hlimit : s.limit < 2 ^ 64)
    (hspent : s.consumed = s.limit) (call : Call) :
    ∃ e, perform (streamLimit (recorded S)) s call = .ok ((0, [], e), streamFinish s) := by
  cases call with
  | pull room size n e =>
    have hout : (streamLimit (recorded S)).pull s room size n e = .ok (0, [], streamFinish s, e) :=
      transfer_spent hspent hlimit size n e fun ledger k e =>
        streamBread (recorded S) ledger room size k e
    exact ⟨e, by rw [perform, hout]; rfl⟩
  | push src size n e =>
    have hout : (streamLimit (recorded S)).push s src size n e = .ok (0, [], streamFinish s, e) :=
      transfer_spent hspent hlimit size n e fun ledger k e =>
        streamBwrite (recorded S) ledger src size k e
    exact ⟨e, by rw [perform, hout]; rfl⟩

end Steps

/-! ## Whole runs -/

section Runs

variable {S : ByteStream σ} {limit : Nat} {s s' : Limit (Ledger σ)} {tr : List (Call × Reply)}

theorem delivered_cons (call : Call) (reply : Reply) :
    delivered ((call, reply) :: tr) = deliveredBy call reply ++ delivered tr := rfl

theorem limit_trace (exact : Exact S) (run : Trace (limitInterface S) s tr s')
    (hlimit : s.limit < 2 ^ 64) (hle : s.consumed ≤ s.limit) :
    s'.limit = s.limit ∧ s'.consumed ≤ s.limit ∧
      s'.consumed = s.consumed + (delivered tr).length ∧
      s'.underlying.log = s.underlying.log ++ delivered tr := by
  induction run with
  | nil s => exact ⟨rfl, hle, rfl, (List.append_nil _).symm⟩
  | cons hpre hstep _ ih =>
    obtain ⟨hsame, hbound, hcount, hlog⟩ := limit_step exact hlimit hle hstep
    rw [hsame] at ih
    obtain ⟨hsame', hbound', hcount', hlog'⟩ := ih hlimit hbound
    refine ⟨hsame', hbound', ?_, ?_⟩
    · rw [hcount', hcount, delivered_cons, List.length_append, Nat.add_assoc]
    · rw [hlog', hlog, delivered_cons, List.append_assoc]

theorem spent_trace (run : Trace (limitInterface S) s tr s') (hlimit : s.limit < 2 ^ 64)
    (hspent : s.consumed = s.limit) :
    s'.consumed = s'.limit ∧ s'.limit = s.limit ∧ s'.underlying = s.underlying ∧
      ∀ event ∈ tr, event.2.1 = 0 := by
  induction run with
  | nil s => exact ⟨hspent, rfl, rfl, by simp⟩
  | cons hpre hstep _ ih =>
    obtain ⟨e, hspent'⟩ := limit_step_spent hlimit hspent _
    obtain ⟨rfl, rfl⟩ := ok_pair_inj (hspent'.symm.trans hstep)
    obtain ⟨hend, hsame, hstream, hzero⟩ := ih hlimit hspent
    exact ⟨hend, hsame, hstream, List.forall_mem_cons.mpr ⟨rfl, hzero⟩⟩

/-- The limit holds over every run, and behind it every call answers zero. -/
theorem limit_run (exact : Exact S) (hlimit : limit < 2 ^ 64) {u : σ}
    (run : Trace (limitInterface S) (streamLimitInit (openLedger u) limit) tr s) :
    s.consumed ≤ limit ∧
    delivered tr = s.underlying.log.take s.consumed ∧ (delivered tr).length = s.consumed ∧
    (∀ call reply s', (limitInterface S).step s call = .ok (reply, s') → reply.1 < 0 →
      s'.consumed = s.consumed) ∧
    (s.consumed = limit → ∀ tr' s', Trace (limitInterface S) s tr' s' →
      (∀ event ∈ tr', event.2.1 = 0) ∧ s'.underlying = s.underlying ∧
      ∀ call, ∃ e, (limitInterface S).step s' call = .ok ((0, [], e), streamFinish s')) := by
  obtain ⟨hsame, hbound, hcount, hlog⟩ := limit_trace exact run hlimit (Nat.zero_le _)
  have hlength : (delivered tr).length = s.consumed := by
    rw [hcount]
    exact (Nat.zero_add _).symm
  have hlog' : s.underlying.log = delivered tr := hlog
  refine ⟨hbound, ?_, hlength, ?_, ?_⟩
  · rw [hlog', ← hlength, List.take_length]
  · intro call reply s' hstep hneg
    exact limit_step_negative exact (hsame ▸ hlimit) (hsame ▸ hbound) hstep hneg
  · intro hspent tr' s' run'
    obtain ⟨hend, hsame', hstream, hzero⟩ := spent_trace run' (hsame ▸ hlimit)
      (hspent.trans hsame.symm)
    exact ⟨hzero, hstream, limit_step_spent (by rw [hsame', hsame]; exact hlimit) hend⟩

end Runs

/-! ## A stream that discards -/

/-- `stream_sink` has no pull. -/
def sink : ByteStream Unit where
  pull _ _ _ _ _ := .error .undefined
  push s src size n e := do
    access ((asI32 n).toNat * size ≤ src.length)
    .ok (asI32 n, src.take ((asI32 n).toNat * size), s, e)
  isdone _ := false

theorem sink_exact : Exact sink where
  pull _ _ _ _ _ _ _ _ _ h := nomatch h
  push s src size n e r bytes s' e' h hpos := by
    obtain ⟨_, haccess, h⟩ := bind_eq_ok.mp h
    obtain ⟨rfl, rfl, -⟩ := ok_triple_inj h
    refine ⟨asI32_le n, ?_, rfl⟩
    rw [List.length_take, Nat.min_eq_left (access_eq_ok_iff.mp haccess)]

/-- Two elements of two bytes fit under a limit of five. -/
theorem limit_five :
    ∃ s : Limit (Ledger Unit), s.consumed = 4 ∧
      delivered [(Call.push [1, 2, 3, 4, 5, 6] 2 3 errorCreate, (2, [1, 2, 3, 4], errorCreate))] =
        s.underlying.log.take s.consumed := by
  have run : Trace (limitInterface sink) (streamLimitInit (openLedger ()) 5)
      [(Call.push [1, 2, 3, 4, 5, 6] 2 3 errorCreate, (2, [1, 2, 3, 4], errorCreate))]
      ⟨⟨(), [1, 2, 3, 4], 1⟩, 5, 4, false⟩ :=
    .cons ⟨by decide, by decide, by decide⟩ (by decide +kernel) (.nil _)
  exact ⟨_, rfl, (limit_run sink_exact (by decide) run).2.1⟩

end StreamLimits
