import CSpecx.CircularBufferFifo

/-!
# Runs of the circular buffer

Every run of the operations from an empty or a preloaded buffer is a run of a
bounded byte list: writes and back pushes extend it on the right, front pushes
on the left, reads and front pops take from the left.
-/

namespace CircularBuffer

open CExec CellMemory Component

inductive Op where
  | write (src : Bytes) (size n : Nat)
  | read (dest : Option Bytes) (size n : Nat)
  | copy (dest : Option Bytes) (size n : Nat)
  | pushBack (src : Bytes) (size : Nat)
  | pushFront (src : Bytes) (size : Nat)
  | popFront (dest : Bytes) (size : Nat)
  | get (dest : Bytes) (size idx : Nat)
  | fakeread (nbytes : Nat)
  | fakewrite (nbytes : Nat)
  | discardAll

inductive Reply where
  | count (n : Nat) (dest : Option Bytes)
  | flag (ok : Bool) (dest : Option Bytes)
  | done

/-- What the assertions of the source and the documented ranges ask of a caller. -/
def Permitted (b : Cbuffer) : Op → Prop
  | .write _ size n | .read _ size n | .copy _ size n => 0 < size ∧ 0 < n
  | .pushBack _ size | .pushFront _ size => 0 < size
  | .popFront _ size => 0 < size ∧ size ≤ cbufferLen b
  | .get _ size idx => 0 < size ∧ idx < cbufferLen b / size
  | .fakeread nbytes => nbytes ≤ cbufferLen b
  | .fakewrite nbytes => nbytes ≤ b.cap - cbufferLen b
  | .discardAll => True

def step (b : Cbuffer) : Op → Outcome (Reply × Cbuffer)
  | .write src size n => do
    let (k, b) ← cbufferWrite (some src) size n b
    return (.count k none, b)
  | .read dest size n => do
    let (k, dest, b) ← cbufferRead dest size n b
    return (.count k dest, b)
  | .copy dest size n => do
    let (k, dest) ← cbufferCopy dest size n b
    return (.count k dest, b)
  | .pushBack src size => do
    let (ok, b) ← cbufferPushBack src size b
    return (.flag ok none, b)
  | .pushFront src size => do
    let (ok, b) ← cbufferPushFront src size b
    return (.flag ok none, b)
  | .popFront dest size => do
    let (ok, dest, b) ← cbufferPopFront (some dest) size b
    return (.flag ok (some dest), b)
  | .get dest size idx => do
    let (ok, dest) ← cbufferGet (some dest) size idx b
    return (.flag ok dest, b)
  | .fakeread nbytes => do return (.done, ← cbufferFakeread b nbytes)
  | .fakewrite nbytes => do return (.done, ← cbufferFakewrite b nbytes)
  | .discardAll => do return (.done, ← cbufferDiscardAll b)

def cbuffer : Interface Cbuffer Op Reply where
  pre := Permitted
  step := step

/-- The list operation each call stands for, on at most `cap` bytes. -/
inductive QueueStep (cap : Nat) : List UInt8 → Op → Reply → List UInt8 → Prop where
  | write (bs : List UInt8) (src : Bytes) (size n k : Nat)
      (hk : k = min n ((cap - bs.length) / size)) :
      QueueStep cap bs (.write src size n) (.count k none) (bs ++ load src 0 (k * size))
  | read (bs : List UInt8) (dest : Option Bytes) (size n k : Nat)
      (hk : k = min n (bs.length / size)) :
      QueueStep cap bs (.read dest size n)
        (.count k (dest.map fun d => store d 0 (bs.take (k * size)))) (bs.drop (k * size))
  | copy (bs : List UInt8) (dest : Option Bytes) (size n k : Nat)
      (hk : k = min n (bs.length / size)) :
      QueueStep cap bs (.copy dest size n)
        (.count k (dest.map fun d => store d 0 (bs.take (k * size)))) bs
  | pushBack (bs : List UInt8) (src : Bytes) (size : Nat) (fits : bs.length + size ≤ cap) :
      QueueStep cap bs (.pushBack src size) (.flag true none) (bs ++ load src 0 size)
  | pushBackFull (bs : List UInt8) (src : Bytes) (size : Nat)
      (full : cap < bs.length + size) :
      QueueStep cap bs (.pushBack src size) (.flag false none) bs
  | pushFront (bs : List UInt8) (src : Bytes) (size : Nat) (fits : bs.length + size ≤ cap) :
      QueueStep cap bs (.pushFront src size) (.flag true none) (load src 0 size ++ bs)
  | pushFrontFull (bs : List UInt8) (src : Bytes) (size : Nat)
      (full : cap < bs.length + size) :
      QueueStep cap bs (.pushFront src size) (.flag false none) bs
  | popFront (bs : List UInt8) (dest : Bytes) (size : Nat) :
      QueueStep cap bs (.popFront dest size)
        (.flag true (some (store dest 0 (bs.take size)))) (bs.drop size)
  | get (bs : List UInt8) (dest : Bytes) (size idx : Nat) :
      QueueStep cap bs (.get dest size idx)
        (.flag true (some (store dest 0 ((bs.drop (idx * size)).take size)))) bs
  | fakeread (bs : List UInt8) (nbytes : Nat) :
      QueueStep cap bs (.fakeread nbytes) .done (bs.drop nbytes)
  | fakewrite (bs filled : List UInt8) :
      QueueStep cap bs (.fakewrite filled.length) .done (bs ++ filled)
  | discardAll (bs : List UInt8) : QueueStep cap bs .discardAll .done []

/-- A well-formed buffer of capacity `cap` denoting the byte list. -/
structure Denotes (cap : Nat) (b : Cbuffer) (bs : List UInt8) : Prop where
  wf : WellFormed b
  cap_eq : b.cap = cap
  bytes : contents b = bs

theorem Denotes.length {cap : Nat} {b : Cbuffer} {bs : List UInt8} (h : Denotes cap b bs) :
    bs.length = cbufferLen b := by rw [← h.bytes, length_contents]

theorem advanceTail_denotes {cap n : Nat} {b : Cbuffer} {bs : List UInt8}
    (h : Denotes cap b bs) (hn : n ≤ cbufferLen b) :
    Denotes cap (advanceTail b n) (bs.drop n) :=
  ⟨advanceTail_wf h.wf, h.cap_eq, by rw [contents_advanceTail h.wf hn, h.bytes]⟩

theorem step_simulates {cap : Nat} (hcap : cap ≤ 2 ^ 31) :
    Simulation cbuffer (QueueStep cap) (Denotes cap) := by
  intro b bs op h hpre
  have hlen := h.length
  have hle := h.wf.len_le
  have hh := h.wf.head_lt
  have ht := h.wf.tail_lt
  have hbc : b.cap ≤ 2 ^ 31 := h.cap_eq ▸ hcap
  cases op with
  | write src size n =>
    obtain ⟨b', hrun, wf', hcap', hcont⟩ := cbufferWrite_spec h.wf src hpre.1 hpre.2
    rw [← hlen, h.cap_eq] at hrun hcont
    exact ⟨_, b', _, by simp only [cbuffer, step, hrun]; rfl,
      .write bs src size n _ rfl, wf', hcap'.trans h.cap_eq, by rw [hcont, h.bytes]⟩
  | read dest size n =>
    have hrun := cbufferRead_spec h.wf dest hpre.1 hpre.2
    rw [← hlen, h.bytes] at hrun
    exact ⟨_, _, _, by simp only [cbuffer, step, hrun]; rfl,
      .read bs dest size n _ rfl, advanceTail_denotes h (hlen ▸ whole_elements_le)⟩
  | copy dest size n =>
    have hrun := cbufferCopy_spec h.wf dest hpre.1 hpre.2
    rw [← hlen, h.bytes] at hrun
    exact ⟨_, b, bs, by simp only [cbuffer, step, hrun]; rfl,
      .copy bs dest size n _ rfl, h⟩
  | pushBack src size =>
    by_cases hroom : size ≤ b.cap - cbufferLen b
    · obtain ⟨b', hrun, wf', hcap', hcont⟩ := cbufferPushBack_spec h.wf src hpre hroom
        (by omega)
      exact ⟨_, b', _, by simp only [cbuffer, step, hrun]; rfl,
        .pushBack bs src size (by rw [hlen, ← h.cap_eq]; omega), wf', hcap'.trans h.cap_eq,
        by rw [hcont, h.bytes]⟩
    · have hrun := cbufferPushBack_full h.wf src hpre (by omega)
      exact ⟨_, b, bs, by simp only [cbuffer, step, hrun]; rfl,
        .pushBackFull bs src size (by rw [hlen, ← h.cap_eq]; omega), h⟩
  | pushFront src size =>
    by_cases hroom : size ≤ b.cap - cbufferLen b
    · obtain ⟨b', hrun, wf', hcap', hcont⟩ := cbufferPushFront_spec h.wf src hpre hroom hbc
      exact ⟨_, b', _, by simp only [cbuffer, step, hrun]; rfl,
        .pushFront bs src size (by rw [hlen, ← h.cap_eq]; omega), wf', hcap'.trans h.cap_eq,
        by rw [hcont, h.bytes]⟩
    · have hrun := cbufferPushFront_full h.wf src hpre (by omega)
      exact ⟨_, b, bs, by simp only [cbuffer, step, hrun]; rfl,
        .pushFrontFull bs src size (by rw [hlen, ← h.cap_eq]; omega), h⟩
  | popFront dest size =>
    have hsize : size ≤ cbufferLen b := hpre.2
    have hrun := cbufferPopFront_spec h.wf dest hpre.1 hsize (by omega)
    rw [h.bytes] at hrun
    exact ⟨_, _, _, by simp only [cbuffer, step, hrun]; rfl,
      .popFront bs dest size, advanceTail_denotes h hsize⟩
  | get dest size idx =>
    have hrun := cbufferGet_spec h.wf dest hpre.1 hpre.2 hbc
    rw [h.bytes] at hrun
    exact ⟨_, b, bs, by simp only [cbuffer, step, hrun]; rfl, .get bs dest size idx, h⟩
  | fakeread nbytes =>
    have hn : nbytes ≤ cbufferLen b := hpre
    have hrun := cbufferFakeread_spec h.wf hn (by omega)
    exact ⟨_, _, _, by simp only [cbuffer, step, hrun]; rfl,
      .fakeread bs nbytes, advanceTail_denotes h hn⟩
  | fakewrite nbytes =>
    have hn : nbytes ≤ b.cap - cbufferLen b := hpre
    have hrun := cbufferFakewrite_spec h.wf hn (by omega)
    have hspec := @QueueStep.fakewrite cap bs (ringLoad b.data b.cap b.head nbytes)
    rw [length_ringLoad] at hspec
    exact ⟨_, _, _, by simp only [cbuffer, step, hrun]; rfl, hspec,
      advanceHead_wf h.wf hn, h.cap_eq, by rw [contents_fakewrite h.wf hn, h.bytes]⟩
  | discardAll =>
    refine ⟨.done, { b with tail := 0, head := 0, isfull := false }, [],
      by simp only [cbuffer, step, cbufferDiscardAll, assert_wf h.wf]; rfl,
      .discardAll bs, ⟨h.wf.cap_pos, h.wf.cap_lt, h.wf.cap_pos, h.wf.cap_pos, by simp⟩,
      h.cap_eq, ?_⟩
    simp [contents, cbufferLen, sub32]

theorem cbufferCreate_denotes {cap : Nat} (data : Bytes) (hpos : 0 < cap)
    (hcap : cap < 2 ^ 32) {b : Cbuffer} (hb : cbufferCreate (some data) cap = .ok b) :
    Denotes cap b [] := by
  simp only [cbufferCreate, nonNull, assert_pos hpos, ok_bind] at hb
  obtain rfl := Except.ok.inj hb
  exact ⟨⟨hpos, hcap, hpos, hpos, fun _ => rfl⟩, rfl, by simp [contents, cbufferLen, sub32]⟩

theorem cbufferCreateWith_denotes {cap len : Nat} (data : Bytes) (hpos : 0 < cap)
    (hcap : cap < 2 ^ 32) (hlen : len ≤ cap) {b : Cbuffer}
    (hb : cbufferCreateWith (some data) cap len = .ok b) :
    Denotes cap b (load data 0 len) := by
  simp only [cbufferCreateWith, nonNull, assert_pos hpos, assert_pos hlen, ok_bind] at hb
  obtain rfl := Except.ok.inj hb
  have wf : WellFormed ⟨data, cap, len % cap, 0, decide (len = cap)⟩ := by
    refine ⟨hpos, hcap, Nat.mod_lt _ hpos, hpos, ?_⟩
    intro hfull
    have he : len = cap := by simpa using hfull
    simp [he]
  refine ⟨wf, rfl, ?_⟩
  have hl : cbufferLen ⟨data, cap, len % cap, 0, decide (len = cap)⟩ = len := by
    rw [wf.len_eq]
    by_cases he : len = cap
    · simp [he]
    · simp [he, Nat.mod_eq_of_lt (show len < cap by omega)]
  change ringLoad data cap 0 _ = _
  rw [hl, ringLoad_straight (by omega)]

/-- Every run from a fresh buffer is a run of the byte list, in bounds and
without a failed assertion, and every permitted next call returns. -/
theorem cbuffer_byte_fifo {cap len : Nat} (data : Bytes) (b₀ b : Cbuffer)
    (trace : List (Op × Reply)) (hpos : 1 ≤ cap) (hcap : cap ≤ 2 ^ 31)
    (start : (len = 0 ∧ cbufferCreate (some data) cap = .ok b₀) ∨
      (len ≤ cap ∧ cbufferCreateWith (some data) cap len = .ok b₀))
    (run : Trace cbuffer b₀ trace b) :
    b.cap = cap ∧ b.head < cap ∧ b.tail < cap ∧ (b.isfull = true → b.head = b.tail) ∧
      (contents b).length = cbufferLen b ∧
      SpecTrace (QueueStep cap) (load data 0 len) trace (contents b) ∧
      ∀ op, Permitted b op → ∃ reply b', step b op = .ok (reply, b') := by
  have h₀ : Denotes cap b₀ (load data 0 len) := by
    rcases start with ⟨rfl, hb⟩ | ⟨hlen, hb⟩
    · exact cbufferCreate_denotes data hpos (by omega) hb
    · exact cbufferCreateWith_denotes data hpos (by omega) hlen hb
  have sim := step_simulates hcap
  obtain ⟨bs, habs, h⟩ := sim.trace h₀ run
  have hbs := h.bytes
  subst hbs
  have hc := h.cap_eq
  refine ⟨hc, hc ▸ h.wf.head_lt, hc ▸ h.wf.tail_lt, h.wf.full_eq, length_contents b, habs, ?_⟩
  intro op hop
  exact sim.returns h hop

/-- Two bytes pushed into three cells, one popped, and a push of two bytes that wraps. -/
theorem cbuffer_byte_fifo_wrapped : ∃ b, contents b = [1, 7, 7] ∧ cbufferLen b = 3 ∧
    SpecTrace (QueueStep 3) [] [
      (.pushBack (fun i => UInt8.ofNat i) 2, .flag true none),
      (.popFront (fun _ => 0) 1, .flag true (some (store (fun _ => 0) 0 [0]))),
      (.pushBack (fun _ => 7) 2, .flag true none)] (contents b) := by
  obtain ⟨b, hbytes, run⟩ : ∃ b, contents b = [1, 7, 7] ∧
      Trace cbuffer ⟨fun _ => 0, 3, 0, 0, false⟩ [
        (.pushBack (fun i => UInt8.ofNat i) 2, .flag true none),
        (.popFront (fun _ => 0) 1, .flag true (some (store (fun _ => 0) 0 [0]))),
        (.pushBack (fun _ => 7) 2, .flag true none)] b := by
    refine ⟨_, ?_, .cons ?_ rfl (.cons ?_ rfl (.cons ?_ rfl (.nil _)))⟩
    · rfl
    · exact Nat.succ_pos 1
    · exact ⟨Nat.succ_pos 0, by decide⟩
    · exact Nat.succ_pos 1
  have h := @cbuffer_byte_fifo 3 0 (fun _ => 0)
    ⟨fun _ => 0, 3, 0, 0, false⟩ _ _ (by decide) (by decide) (Or.inl ⟨rfl, rfl⟩) run
  have hlen := h.2.2.2.2.1
  rw [hbytes] at hlen
  exact ⟨b, hbytes, hlen.symm, h.2.2.2.2.2.1⟩

end CircularBuffer
