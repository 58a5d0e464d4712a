import CSpecx.CircularBufferFifo
import CSpecx.VectorTransfers
import Mathlib.Data.List.Nodup

/-!
# The circular buffer between files

`cbuffer_read_from_file` and `cbuffer_write_to_file`. The free or the used bytes
of the array are one vector or two: the second starts at offset zero.
-/

namespace CircularBuffer

open CExec CellMemory Errors TransferLoop VectorLoop FileTransfers

/-- The conversion to `i32` of a returned value. -/
def i32 (v : Int) : Int := Int.bmod v (2 ^ 32)

/-- The loop that fills `iov`; `chunk` is the length of the vector at a cursor. -/
def fillVectors (cap count : Nat) (chunk : Nat → Nat → Outcome Nat) :
    Nat → Nat → Nat → List IoVec → Outcome (List IoVec)
  | 0, _, _, _ => .error .fuel
  | fuel + 1, done, cursor, iov =>
    if done < count then do
      let next ← chunk cursor (sub32 count done)
      assert (iov.length < 2)
      fillVectors cap count chunk fuel (u32 (done + next)) (u32 (cursor + next) % cap)
        (iov ++ [⟨cursor, next⟩])
    else .ok iov

/-- The next vector of `cbuffer_read_from_file_1`. -/
def freeChunk (b : Cbuffer) (newhead rest : Nat) : Outcome Nat :=
  if b.tail ≤ newhead then do
    assert (newhead < b.cap)
    return min (sub32 b.cap newhead) rest
  else do
    assert (newhead < b.tail)
    return min (sub32 b.tail newhead) rest

/-- The next vector of `cbuffer_write_to_file_1`. -/
def usedChunk (b : Cbuffer) (newtail rest : Nat) : Outcome Nat :=
  return if b.isfull = false ∧ newtail < b.head then min (sub32 b.head newtail) rest
    else min (sub32 b.cap newtail) rest

def freeVectors (b : Cbuffer) (len : Nat) : Outcome (Nat × List IoVec) := do
  let btowrite := min (← cbufferAvail b) len
  return (btowrite, ← fillVectors b.cap btowrite (freeChunk b) (btowrite + 1) 0 b.head [])

def usedVectors (b : Cbuffer) (len : Nat) : Outcome (Nat × List IoVec) := do
  let btoread := min (cbufferLen b) len
  return (btoread, ← fillVectors b.cap btoread (usedChunk b) (btoread + 1) 0 b.tail [])

/-- The code, the buffer with the bytes that were read, the stream behind them and
the error object. -/
def cbufferReadFromFile1 (stream : List UInt8) (b : Cbuffer) (len : Nat) (e : ErrorObject)
    (rs : List Result) : Option (Outcome (Int × Cbuffer × List UInt8 × ErrorObject)) :=
  match freeVectors b len with
  | .error fault => some (.error fault)
  | .ok (btowrite, iov) =>
    if btowrite = 0 then if rs = [] then some (.ok (0, b, stream, e)) else none
    else (iReadvAll b.cap iov b.data stream e rs).map fun o => o >>= fun s =>
      .ok (if s.1 < 0 then errorTrace s.2.2 else i32 s.1, { b with data := s.2.1.1 }, s.2.1.2,
        s.2.2)

def cbufferReadFromFile2 (b : Cbuffer) (nread : Nat) : Outcome Cbuffer := do
  cbufferAssert b
  assert (nread ≤ (← cbufferAvail b))
  let head := u32 (b.head + nread) % b.cap
  return { b with
    head := head
    isfull := if head = b.tail ∧ 0 < nread then true else b.isfull }

def cbufferReadFromFile (stream : List UInt8) (b : Cbuffer) (len : Nat) (e : ErrorObject)
    (rs : List Result) : Option (Outcome (Int × Cbuffer × List UInt8 × ErrorObject)) :=
  match cbufferAssert b with
  | .error fault => some (.error fault)
  | .ok _ => (cbufferReadFromFile1 stream b len e rs).map fun o => o >>= fun s =>
    if s.1 < 0 then .ok s
    else cbufferReadFromFile2 s.2.1 s.1.toNat >>= fun b' => .ok (s.1, b', s.2.2)

/-- The code, the file and the error object. -/
def cbufferWriteToFile1 (file : List UInt8) (b : Cbuffer) (len : Nat) (e : ErrorObject)
    (rs : List Result) : Option (Outcome (Int × List UInt8 × ErrorObject)) :=
  match usedVectors b len with
  | .error fault => some (.error fault)
  | .ok (btoread, iov) =>
    if btoread = 0 then if rs = [] then some (.ok (0, file, e)) else none
    else (iWritevAll b.cap iov b.data file e rs).map fun o => o >>= fun s =>
      .ok (if s.1 = success then i32 btoread else errorTrace s.2.2, s.2)

def cbufferWriteToFile2 (b : Cbuffer) (nwritten : Nat) : Outcome Cbuffer := do
  cbufferAssert b
  assert (nwritten ≤ cbufferLen b)
  return { b with
    tail := u32 (b.tail + nwritten) % b.cap
    isfull := if 0 < nwritten then false else b.isfull }

def cbufferWriteToFile (file : List UInt8) (b : Cbuffer) (len : Nat) (e : ErrorObject)
    (rs : List Result) : Option (Outcome (Int × Cbuffer × List UInt8 × ErrorObject)) :=
  match cbufferAssert b with
  | .error fault => some (.error fault)
  | .ok _ => (cbufferWriteToFile1 file b len e rs).map fun o => o >>= fun s =>
    if s.1 < 0 then .ok (s.1, b, s.2)
    else cbufferWriteToFile2 b s.1.toNat >>= fun b' => .ok (s.1, b', s.2)

/-- `r ≥ 0` bytes of the stream are appended, fewer than fit only at its end; an
error leaves what the buffer denotes. -/
def AppendsRead (b : Cbuffer) (len : Nat) (stream : List UInt8) (rs : List Result) :
    Outcome (Int × Cbuffer × List UInt8 × ErrorObject) → Prop
  | .error _ => False
  | .ok (r, b', stream', _) =>
    WellFormed b' ∧ b'.cap = b.cap ∧ (Fails rs ↔ r < 0) ∧
    (0 ≤ r → ∃ bytes, (bytes.length : Int) = r ∧ stream = bytes ++ stream' ∧
      contents b' = contents b ++ bytes ∧ bytes.length ≤ min (b.cap - cbufferLen b) len ∧
      (bytes.length < min (b.cap - cbufferLen b) len → stream' = [])) ∧
    (r < 0 → contents b' = contents b)

/-- The front of the buffer, as much as was asked for, is appended to the file and
removed; an error leaves the buffer. -/
def RemovesWritten (b : Cbuffer) (len : Nat) (file : List UInt8) (rs : List Result) :
    Outcome (Int × Cbuffer × List UInt8 × ErrorObject) → Prop
  | .error _ => False
  | .ok (r, b', file', _) =>
    WellFormed b' ∧ b'.cap = b.cap ∧ (Fails rs ↔ r < 0) ∧
    (0 ≤ r → r = (min (cbufferLen b) len : Nat) ∧ ∃ bytes, (bytes.length : Int) = r ∧
      contents b = bytes ++ contents b' ∧ file' = file ++ bytes) ∧
    (r < 0 → b' = b)

section Vectors

variable {b : Cbuffer} {cap count fuel done cursor start k : Nat}
  {chunk : Nat → Nat → Outcome Nat} {iov : List IoVec} {m : Bytes} {xs : List UInt8}

theorem fillVectors_round {next : Nat} (hlt : done < count) (hcount : count < 2 ^ 32)
    (hcap : cap < 2 ^ 32) (hchunk : chunk cursor (count - done) = .ok next)
    (htwo : iov.length < 2) (hdone : done + next ≤ count) (hnext : cursor + next ≤ cap) :
    fillVectors cap count chunk (fuel + 1) done cursor iov =
      fillVectors cap count chunk fuel (done + next) ((cursor + next) % cap)
        (iov ++ [⟨cursor, next⟩]) := by
  rw [fillVectors, if_pos hlt, sub32_of_le hlt.le hcount, hchunk, ok_bind, assert_pos htwo, ok_bind,
    u32_of_lt (by omega), u32_of_lt (by omega)]

theorem fillVectors_done (hend : count ≤ done) :
    fillVectors cap count chunk (fuel + 1) done cursor iov = .ok iov := by
  rw [fillVectors, if_neg (Nat.not_lt.mpr hend)]

/-- Where the first chunk ends short the array ends, and the second takes the rest. -/
theorem fillVectors_spec (hcap : cap < 2 ^ 32) (hcount : count ≤ cap) (hk : 0 < k)
    (hstart : start + k ≤ cap)
    (hfirst : chunk start count = .ok (min k count))
    (hsecond : k < count → start + k = cap ∧ chunk 0 (count - k) = .ok (count - k)) :
    ∃ iov, fillVectors cap count chunk (count + 1) 0 start [] = .ok iov ∧ iov.length ≤ 2 ∧
      (0 < count → 0 < iov.length) ∧ cells iov = ringLoad id cap start count := by
  rcases Nat.eq_zero_or_pos count with rfl | hpos
  · exact ⟨[], fillVectors_done (le_refl 0), by decide, id, rfl⟩
  obtain ⟨fuel, rfl⟩ : ∃ fuel, count = fuel + 1 := ⟨count - 1, by omega⟩
  by_cases hone : fuel + 1 ≤ k
  · rw [Nat.min_eq_right hone] at hfirst
    refine ⟨[⟨start, fuel + 1⟩], ?_, by simp, fun _ => Nat.one_pos, ?_⟩
    · rw [fillVectors_round hpos (by omega) hcap hfirst (by decide) (by omega) (by omega),
        fillVectors_done (by omega), List.nil_append]
    · rw [cells_cons, ringLoad_straight (by omega)]
      exact List.append_nil _
  · obtain ⟨hend, hrest⟩ := hsecond (by omega)
    rw [Nat.min_eq_left (by omega)] at hfirst
    obtain ⟨fuel, rfl⟩ : ∃ fuel', fuel = fuel' + 1 := ⟨fuel - 1, by omega⟩
    refine ⟨[⟨start, k⟩, ⟨0, fuel + 1 + 1 - k⟩], ?_, le_refl 2, fun _ => Nat.two_pos, ?_⟩
    · rw [fillVectors_round hpos (by omega) hcap hfirst (by decide) (by omega) hstart, hend,
        Nat.mod_self, Nat.zero_add, fillVectors_round (by omega) (by omega) hcap hrest (by simp)
        (by omega) (by omega), fillVectors_done (by omega)]
      rfl
    · rw [cells_cons, cells_cons, ringLoad_wrapped (by omega) (by omega) hcount,
        show cap - start = k by omega]
      exact congrArg _ (List.append_nil _)

theorem freeVectors_spec (wf : WellFormed b) (len : Nat) : ∃ iov,
    freeVectors b len = .ok (min (b.cap - cbufferLen b) len, iov) ∧ iov.length ≤ 2 ∧
      (0 < min (b.cap - cbufferLen b) len → 0 < iov.length) ∧
      cells iov = ringLoad id b.cap b.head (min (b.cap - cbufferLen b) len) := by
  have hcap := wf.cap_lt
  have hhead := wf.head_lt
  have htail := wf.tail_lt
  have hlen := wf.len_eq
  have hbounds := writable_bounds wf
  obtain ⟨count, hcount⟩ : ∃ count, count = min (b.cap - cbufferLen b) len := ⟨_, rfl⟩
  have hfirst : freeChunk b b.head count = .ok (min (writable b) count) := by
    unfold freeChunk writable
    by_cases hwrap : b.tail ≤ b.head
    · rw [if_pos hwrap, if_pos hwrap, assert_pos hhead, ok_bind, sub32_of_le hhead.le hcap]
      rfl
    · rw [if_neg hwrap, if_neg hwrap, assert_pos (Nat.not_le.mp hwrap), ok_bind,
        sub32_of_le (by omega) (by omega)]
      rfl
  have hsecond : writable b < count →
      b.head + writable b = b.cap ∧ freeChunk b 0 (count - writable b) =
        .ok (count - writable b) := by
    intro hmore
    have hwrap : b.tail ≤ b.head := by
      by_contra hne
      rw [writable, if_neg hne] at hmore
      rw [if_neg hne] at hlen
      split_ifs at hlen <;> omega
    have hw : writable b = b.cap - b.head := if_pos hwrap
    have hpos : ¬ b.tail ≤ 0 := by
      rw [if_pos hwrap] at hlen
      split_ifs at hlen <;> omega
    refine ⟨by omega, ?_⟩
    rw [freeChunk, if_neg hpos, assert_pos (Nat.not_le.mp hpos), ok_bind,
      sub32_of_le (Nat.zero_le _) (by omega), Nat.min_eq_right]
    · rfl
    · rw [if_pos hwrap] at hlen
      split_ifs at hlen <;> omega
  obtain ⟨iov, hfill, htwo, hpos, hcells⟩ := fillVectors_spec hcap (by omega) hbounds.1 hbounds.2
    hfirst hsecond
  refine ⟨iov, ?_, htwo, hcount ▸ hpos, hcount ▸ hcells⟩
  simp only [freeVectors, avail_wf wf, ok_bind, ← hcount, hfill]
  rfl

theorem usedVectors_spec (wf : WellFormed b) (len : Nat) : ∃ iov,
    usedVectors b len = .ok (min (cbufferLen b) len, iov) ∧ iov.length ≤ 2 ∧
      (0 < min (cbufferLen b) len → 0 < iov.length) ∧
      cells iov = ringLoad id b.cap b.tail (min (cbufferLen b) len) := by
  have hcap := wf.cap_lt
  have hhead := wf.head_lt
  have htail := wf.tail_lt
  have hle := wf.len_le
  have hlen := wf.len_eq
  have hbounds := readable_bounds wf
  obtain ⟨count, hcount⟩ : ∃ count, count = min (cbufferLen b) len := ⟨_, rfl⟩
  have hfirst : usedChunk b b.tail count = .ok (min (readable b) count) := by
    unfold usedChunk readable
    by_cases hstraight : b.isfull = false ∧ b.tail < b.head
    · rw [if_pos hstraight, if_pos hstraight, sub32_of_le hstraight.2.le (by omega)]
      rfl
    · rw [if_neg hstraight, if_neg hstraight, sub32_of_le htail.le hcap]
      rfl
  have hsecond : readable b < count →
      b.tail + readable b = b.cap ∧ usedChunk b 0 (count - readable b) =
        .ok (count - readable b) := by
    intro hmore
    have hwrap : ¬ (b.isfull = false ∧ b.tail < b.head) := by
      rintro ⟨hfull, hlt⟩
      rw [readable, if_pos ⟨hfull, hlt⟩] at hmore
      rw [hfull, if_neg Bool.false_ne_true, if_pos hlt.le] at hlen
      omega
    have hr : readable b = b.cap - b.tail := if_neg hwrap
    refine ⟨by omega, ?_⟩
    rw [usedChunk]
    by_cases hfront : b.isfull = false ∧ 0 < b.head
    · rw [if_pos hfront, sub32_of_le (Nat.zero_le _) (by omega), Nat.min_eq_right]
      · rfl
      · rw [hfront.1, if_neg Bool.false_ne_true] at hlen
        split_ifs at hlen <;> omega
    · rw [if_neg hfront, sub32_of_le (Nat.zero_le _) hcap, Nat.min_eq_right (by omega)]
      rfl
  obtain ⟨iov, hfill, htwo, hpos, hcells⟩ := fillVectors_spec hcap (by omega) hbounds.1 hbounds.2
    hfirst hsecond
  refine ⟨iov, ?_, htwo, hcount ▸ hpos, hcount ▸ hcells⟩
  simp only [usedVectors, ← hcount, hfill]
  rfl

theorem inside_ring (hcap : 0 < cap) (hcells : cells iov = ringLoad id cap start count) :
    Inside cap iov := by
  intro p hp
  rw [hcells] at hp
  obtain ⟨i, -, rfl⟩ := List.mem_map.mp hp
  exact Nat.mod_lt _ hcap

theorem gather_ring (hcells : cells iov = ringLoad id cap start count) :
    gather m iov = ringLoad m cap start count := by
  rw [gather, hcells, ringLoad, ringLoad, List.map_map]
  rfl

theorem totalLen_ring (hcells : cells iov = ringLoad id cap start count) :
    totalLen iov = count := by
  rw [← length_cells, hcells, length_ringLoad]

theorem nodup_ring (hcount : count ≤ cap) : (ringLoad (id : Nat → Nat) cap start count).Nodup := by
  apply List.Nodup.map_on _ List.nodup_range
  intro i hi j hj heq
  have hi' := List.mem_range.mp hi
  have hj' := List.mem_range.mp hj
  rcases Nat.lt_trichotomy i j with hlt | rfl | hlt
  · exact absurd heq (ring_offset_ne (by omega) (by omega))
  · rfl
  · exact absurd heq.symm (ring_offset_ne (by omega) (by omega))

/-- Bytes stored through vectors over a range of the ring are stored in that range. -/
theorem ringStored_vectors (hcells : cells iov = ringLoad id cap start count)
    (hcount : count ≤ cap) (hxs : xs.length ≤ count) :
    RingStored m (storeAt m (cells iov) xs) cap start xs := by
  rw [hcells]
  constructor
  · intro i hi
    have hlen : i < (ringLoad (id : Nat → Nat) cap start count).length := by
      rw [length_ringLoad]
      omega
    have hstored := storeAt_inside (m := m) (nodup_ring hcount) hlen hi
    rwa [getElem_ringLoad] at hstored
  · intro j hj
    apply storeAt_outside
    rw [take_ringLoad]
    intro hmem
    obtain ⟨i, hi, heq⟩ := List.mem_map.mp hmem
    have hi' := List.mem_range.mp hi
    exact hj i (by omega) heq.symm

end Vectors

section Transfers

variable {b : Cbuffer} {len : Nat} {e : ErrorObject} {stream file : List UInt8} {rs : List Result}
  {o : Outcome (Int × Cbuffer × List UInt8 × ErrorObject)}

theorem i32_of_lt {n : Nat} (h : n < 2 ^ 31) : i32 n = n := by
  unfold i32
  rw [Int.bmod_eq_of_le] <;> omega

/-- Behind a failed call the object has a failure code. -/
theorem errorTrace_ioError {fmt : String} (he : e.causeCode ≤ 0) :
    errorTrace (ioError fmt e) < 0 := by
  rw [errorTrace, ioError, errorCausef_code]
  split
  · decide
  · next hne => exact lt_of_le_of_ne he hne

theorem cbufferReadFromFile1_spec (wf : WellFormed b) (hlen : len < 2 ^ 31)
    (he : e.causeCode ≤ 0) (hrun : cbufferReadFromFile1 stream b len e rs = some o) :
    ∃ c r data e', c ≤ min (b.cap - cbufferLen b) len ∧ c ≤ stream.length ∧
      RingStored b.data data b.cap b.head (stream.take c) ∧
      o = .ok (r, { b with data := data }, stream.drop c, e') ∧
      ((¬ Fails rs ∧ r = c ∧ (c < min (b.cap - cbufferLen b) len → stream.drop c = [])) ∨
        (Fails rs ∧ r < 0)) := by
  obtain ⟨iov, hvectors, htwo, hcnt, hcells⟩ := freeVectors_spec wf len
  obtain ⟨room, hroom⟩ : ∃ room, room = min (b.cap - cbufferLen b) len := ⟨_, rfl⟩
  rw [← hroom] at hvectors hcnt hcells ⊢
  rw [cbufferReadFromFile1, hvectors] at hrun
  by_cases hzero : room = 0
  · simp only [if_pos hzero] at hrun
    by_cases hrs : rs = []
    · rw [if_pos hrs] at hrun
      cases hrun
      subst hrs
      refine ⟨0, 0, b.data, e, Nat.zero_le _, Nat.zero_le _, RingStored.refl .., rfl, .inl ?_⟩
      exact ⟨not_fails_nil, rfl, fun hlt => by omega⟩
    · rw [if_neg hrs] at hrun
      cases hrun
  · simp only [if_neg hzero, Option.map_eq_some_iff] at hrun
    obtain ⟨o', hread, rfl⟩ := hrun
    have htotal := totalLen_ring hcells
    obtain ⟨c, r, e', hc, hfits, rfl, hcases⟩ := iReadvAll_spec (hcnt (by omega)) htwo (by omega)
      (by omega) (inside_ring wf.cap_pos hcells) hread
    rw [htotal] at hc hcases
    have hstored : RingStored b.data (storeAt b.data (cells iov) (stream.take c)) b.cap b.head
        (stream.take c) :=
      ringStored_vectors hcells (by omega) ((List.length_take_le _ _).trans hc)
    refine ⟨c, _, _, e', hc, hfits, hstored, rfl, ?_⟩
    rcases hcases with ⟨hquiet, rfl, -, hend⟩ | ⟨hfails, rfl, rfl⟩
    · left
      refine ⟨hquiet, ?_, hend⟩
      rw [if_neg (by omega), i32_of_lt (by omega)]
    · right
      refine ⟨hfails, ?_⟩
      rw [if_pos (show errIo < 0 by decide)]
      exact errorTrace_ioError he

theorem cbufferReadFromFile2_spec {n : Nat} (wf : WellFormed b)
    (hn : n ≤ b.cap - cbufferLen b) (nowrap : b.head + n < 2 ^ 32) :
    cbufferReadFromFile2 b n = .ok (advanceHead b n) := by
  simp only [cbufferReadFromFile2, assert_wf wf, avail_wf wf, assert_pos hn, ok_bind,
    u32_of_lt nowrap, advanceHead, and_comm (a := 0 < n)]
  rfl

theorem cbufferReadFromFile_spec (wf : WellFormed b) (hcap : b.cap ≤ 2 ^ 31)
    (hlen : len < 2 ^ 31) (he : e.causeCode ≤ 0)
    (hrun : cbufferReadFromFile stream b len e rs = some o) : AppendsRead b len stream rs o := by
  rw [cbufferReadFromFile, assert_wf wf] at hrun
  simp only [Option.map_eq_some_iff] at hrun
  obtain ⟨o', hread, rfl⟩ := hrun
  obtain ⟨c, r, data, e', hc, hfits, hstored, rfl, hcases⟩ :=
    cbufferReadFromFile1_spec wf hlen he hread
  have wf' : WellFormed { b with data := data } := ⟨wf.1, wf.2, wf.3, wf.4, wf.5⟩
  have htaken : (stream.take c).length = c := List.length_take_of_le hfits
  have hroom : (stream.take c).length ≤ b.cap - cbufferLen b := by omega
  have hfull := contents_append wf hstored hroom
  rw [htaken] at hfull
  rw [ok_bind]
  rcases hcases with ⟨hquiet, rfl, hend⟩ | ⟨hfails, hneg⟩
  · have hhead := wf.head_lt
    have hpos : ¬ ((c : Int) < 0) := by omega
    rw [if_neg hpos, Int.toNat_natCast,
      cbufferReadFromFile2_spec wf' (by rw [← htaken]; exact hroom)
      (show b.head + c < 2 ^ 32 by omega), ok_bind]
    refine ⟨advanceHead_wf wf' (by rw [← htaken]; exact hroom), rfl, iff_of_false hquiet hpos, ?_,
      fun h => absurd h hpos⟩
    intro _
    rw [← htaken] at hc hend
    exact ⟨stream.take c, by rw [htaken], (List.take_append_drop c stream).symm, hfull, hc,
      fun hlt => by rw [← htaken]; exact hend hlt⟩
  · rw [if_pos hneg]
    -- the bytes that did arrive are behind the write cursor
    exact ⟨wf', rfl, iff_of_true hfails hneg, fun h => absurd hneg (Int.not_lt.mpr h),
      fun _ => contents_stored wf hstored hroom⟩

theorem cbufferWriteToFile1_spec (wf : WellFormed b) (hlen : len < 2 ^ 31) (he : e.causeCode ≤ 0)
    {o : Outcome (Int × List UInt8 × ErrorObject)}
    (hrun : cbufferWriteToFile1 file b len e rs = some o) :
    ∃ c r e', o = .ok (r, file ++ (contents b).take c, e') ∧
      ((¬ Fails rs ∧ r = c ∧ c = min (cbufferLen b) len) ∨ (Fails rs ∧ r < 0)) := by
  obtain ⟨iov, hvectors, htwo, hcnt, hcells⟩ := usedVectors_spec wf len
  obtain ⟨count, hcount⟩ : ∃ count, count = min (cbufferLen b) len := ⟨_, rfl⟩
  rw [← hcount] at hvectors hcnt hcells ⊢
  rw [cbufferWriteToFile1, hvectors] at hrun
  by_cases hzero : count = 0
  · simp only [if_pos hzero] at hrun
    by_cases hrs : rs = []
    · rw [if_pos hrs] at hrun
      cases hrun
      subst hrs
      refine ⟨0, 0, e, ?_, .inl ⟨not_fails_nil, rfl, hzero.symm⟩⟩
      rw [List.take_zero, List.append_nil]
    · rw [if_neg hrs] at hrun
      cases hrun
  · simp only [if_neg hzero, Option.map_eq_some_iff] at hrun
    obtain ⟨o', hwrite, rfl⟩ := hrun
    have htotal := totalLen_ring hcells
    obtain ⟨c, r, e', hc, rfl, hcases⟩ := iWritevAll_spec (hcnt (by omega)) htwo (by omega)
      (inside_ring wf.cap_pos hcells) hwrite
    have hfront : gather b.data iov = (contents b).take count := by
      rw [gather_ring hcells, contents, take_ringLoad, Nat.min_eq_left (by omega)]
    rw [htotal] at hc hcases
    rw [hfront, List.take_take, Nat.min_eq_left hc]
    refine ⟨c, _, e', rfl, ?_⟩
    rcases hcases with ⟨hquiet, rfl, -, rfl⟩ | ⟨hfails, rfl, rfl⟩
    · left
      refine ⟨hquiet, ?_, rfl⟩
      rw [if_pos rfl, i32_of_lt (by omega)]
    · right
      refine ⟨hfails, ?_⟩
      rw [if_neg (show errIo ≠ success by decide)]
      exact errorTrace_ioError he

theorem cbufferWriteToFile2_spec {n : Nat} (wf : WellFormed b) (hn : n ≤ cbufferLen b)
    (nowrap : b.tail + n < 2 ^ 32) : cbufferWriteToFile2 b n = .ok (advanceTail b n) := by
  simp only [cbufferWriteToFile2, assert_wf wf, assert_pos hn, ok_bind, u32_of_lt nowrap]
  rfl

theorem cbufferWriteToFile_spec (wf : WellFormed b) (hcap : b.cap ≤ 2 ^ 31)
    (hlen : len < 2 ^ 31) (he : e.causeCode ≤ 0)
    (hrun : cbufferWriteToFile file b len e rs = some o) : RemovesWritten b len file rs o := by
  rw [cbufferWriteToFile, assert_wf wf] at hrun
  simp only [Option.map_eq_some_iff] at hrun
  obtain ⟨o', hwrite, rfl⟩ := hrun
  obtain ⟨c, r, e', rfl, hcases⟩ := cbufferWriteToFile1_spec wf hlen he hwrite
  rw [ok_bind]
  rcases hcases with ⟨hquiet, rfl, hc⟩ | ⟨hfails, hneg⟩
  · have htail := wf.tail_lt
    have hle := wf.len_le
    have hfront : c ≤ cbufferLen b := by omega
    have hpos : ¬ ((c : Int) < 0) := by omega
    rw [if_neg hpos, Int.toNat_natCast, cbufferWriteToFile2_spec wf hfront (by omega), ok_bind]
    refine ⟨advanceTail_wf wf, rfl, iff_of_false hquiet hpos, fun _ => ⟨by rw [hc], ?_⟩,
      fun h => absurd h hpos⟩
    refine ⟨(contents b).take c, ?_, ?_, rfl⟩
    · rw [List.length_take, length_contents, Nat.min_eq_left hfront]
    · rw [contents_advanceTail wf hfront, List.take_append_drop]
  · rw [if_pos hneg]
    exact ⟨wf, rfl, iff_of_true hfails hneg, fun h => absurd hneg (Int.not_lt.mpr h), fun _ => rfl⟩

/-- Both transfers move exactly the bytes they report, and neither needs a third vector. -/
theorem file_transfers_exact (wf : WellFormed b) (hcap : b.cap ≤ 2 ^ 31) (hlen : len < 2 ^ 31)
    (he : e.causeCode ≤ 0) :
    ((∃ n iov, freeVectors b len = .ok (n, iov) ∧ iov.length ≤ 2) ∧
      ∃ n iov, usedVectors b len = .ok (n, iov) ∧ iov.length ≤ 2) ∧
    (∀ stream rs o, cbufferReadFromFile stream b len e rs = some o →
      AppendsRead b len stream rs o) ∧
    ∀ file rs o, cbufferWriteToFile file b len e rs = some o → RemovesWritten b len file rs o := by
  obtain ⟨iov, hfree, htwo, -⟩ := freeVectors_spec wf len
  obtain ⟨iov', hused, htwo', -⟩ := usedVectors_spec wf len
  refine ⟨⟨⟨_, iov, hfree, htwo⟩, _, iov', hused, htwo'⟩, ?_, ?_⟩
  · intro stream rs o hrun
    exact cbufferReadFromFile_spec wf hcap hlen he hrun
  · intro file rs o hrun
    exact cbufferWriteToFile_spec wf hcap hlen he hrun

/-- Free bytes on both sides of the end of the array. -/
def straddling : Cbuffer := ⟨fun _ => 7, 5, 3, 2, false⟩

/-- The second call of `readv` fills the end of one vector and the start of the other. -/
theorem file_transfers_straddling :
    (∃ o, cbufferReadFromFile [10, 11, 12, 13, 14] straddling 4 errorCreate
        [.count 1, .failed .intr, .count 2, .count 1] = some o ∧
      AppendsRead straddling 4 [10, 11, 12, 13, 14]
        [.count 1, .failed .intr, .count 2, .count 1] o) ∧
    ∃ o, cbufferWriteToFile [1] straddling 4 errorCreate [.failed .intr, .count 1] = some o ∧
      RemovesWritten straddling 4 [1] [.failed .intr, .count 1] o := by
  have wf : WellFormed straddling :=
    ⟨by decide, by decide, by decide, by decide, fun h => Bool.noConfusion h⟩
  obtain ⟨-, reads, writes⟩ :=
    file_transfers_exact (e := errorCreate) wf (by decide) (show 4 < 2 ^ 31 by decide) (by decide)
  exact ⟨⟨_, rfl, reads _ _ _ rfl⟩, _, rfl, writes _ _ _ rfl⟩

end Transfers

end CircularBuffer
