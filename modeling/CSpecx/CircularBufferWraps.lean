import CSpecx.CircularBufferRuns

/-!
# Cursors beyond half the range

`cbuffer_create` accepts every capacity of a `u32`. The raw read and write form
no sum above the capacity; the other operations form theirs before the
remainder is taken, and a sum of `2 ^ 32` or more has lost the capacity.
-/

namespace CircularBuffer

open CExec CellMemory

/-- The operations that transfer bytes at one of the two cursors. -/
inductive Transfer where
  | write (src : Bytes) (size n : Nat)
  | read (dest : Option Bytes) (size n : Nat)
  | fakewrite (nbytes : Nat)
  | fakeread (nbytes : Nat)
  | pushBack (src : Bytes) (size : Nat)
  | pushFront (src : Bytes) (size : Nat)

def Transfer.op : Transfer → Op
  | .write src size n => .write src size n
  | .read dest size n => .read dest size n
  | .fakewrite nbytes => .fakewrite nbytes
  | .fakeread nbytes => .fakeread nbytes
  | .pushBack src size => .pushBack src size
  | .pushFront src size => .pushFront src size

/-- `xs` placed at the write cursor, which moves on behind it. -/
structure AddsBack (b b' : Cbuffer) (xs : List UInt8) : Prop where
  wf : WellFormed b'
  cap_eq : b'.cap = b.cap
  tail_eq : b'.tail = b.tail
  head_eq : b'.head = (b.head + xs.length) % b.cap
  stored : RingStored b.data b'.data b.cap b.head xs
  len_eq : cbufferLen b' = cbufferLen b + xs.length

/-- `xs` placed before the read cursor, which moves back to its first byte. -/
structure AddsFront (b b' : Cbuffer) (xs : List UInt8) : Prop where
  wf : WellFormed b'
  cap_eq : b'.cap = b.cap
  head_eq : b'.head = b.head
  tail_eq : b'.tail = (b.tail + b.cap - xs.length) % b.cap
  stored : RingStored b.data b'.data b.cap b'.tail xs
  len_eq : cbufferLen b' = cbufferLen b + xs.length

/-- `n` bytes taken at the read cursor, which moves on behind them. -/
structure TakesFront (b b' : Cbuffer) (n : Nat) : Prop where
  wf : WellFormed b'
  cap_eq : b'.cap = b.cap
  head_eq : b'.head = b.head
  tail_eq : b'.tail = (b.tail + n) % b.cap
  data_eq : b'.data = b.data
  len_eq : cbufferLen b' + n = cbufferLen b

/-- The call returns, with the bytes where arithmetic modulo the capacity puts them. -/
def Exact (b : Cbuffer) : Transfer → Prop
  | .write src size n => ∃ b' k, k = min n ((b.cap - cbufferLen b) / size) ∧
      step b (.write src size n) = .ok (.count k none, b') ∧ AddsBack b b' (load src 0 (k * size))
  | .read dest size n => ∃ b' k, k = min n (cbufferLen b / size) ∧
      step b (.read dest size n) = .ok (.count k
        (dest.map fun d => store d 0 (ringLoad b.data b.cap b.tail (k * size))), b') ∧
      TakesFront b b' (k * size)
  | .fakewrite nbytes => ∃ b', step b (.fakewrite nbytes) = .ok (.done, b') ∧
      AddsBack b b' (ringLoad b.data b.cap b.head nbytes)
  | .fakeread nbytes => ∃ b', step b (.fakeread nbytes) = .ok (.done, b') ∧ TakesFront b b' nbytes
  | .pushBack src size =>
    if size ≤ b.cap - cbufferLen b then ∃ b',
      step b (.pushBack src size) = .ok (.flag true none, b') ∧ AddsBack b b' (load src 0 size)
    else step b (.pushBack src size) = .ok (.flag false none, b)
  | .pushFront src size =>
    if size ≤ b.cap - cbufferLen b then ∃ b',
      step b (.pushFront src size) = .ok (.flag true none, b') ∧ AddsFront b b' (load src 0 size)
    else step b (.pushFront src size) = .ok (.flag false none, b)

/-- The sum that the operation forms before the remainder fits a `u32`. -/
def NoWrap (b : Cbuffer) : Transfer → Prop
  | .write _ _ _ | .read _ _ _ => True
  | .fakewrite nbytes => b.head + nbytes < 2 ^ 32
  | .fakeread nbytes => b.tail + nbytes < 2 ^ 32
  | .pushBack _ size => size ≤ b.cap - cbufferLen b → b.head + size < 2 ^ 32
  | .pushFront _ size => size ≤ b.cap - cbufferLen b →
      b.tail + b.cap < 2 ^ 32 ∨ (size ≤ b.tail ∧ b.tail + b.cap - size < 2 ^ 32)

section Sums

variable {b : Cbuffer} {offset size n : Nat}

theorem u32_wrapped {a : Nat} (h : 2 ^ 32 ≤ a) (hlt : a < 2 ^ 33) : u32 a = a - 2 ^ 32 := by
  unfold u32
  rw [Nat.mod_eq_sub_mod h, Nat.mod_eq_of_lt (by omega)]

theorem sub32_wrapped {a c : Nat} (h : a < c) : sub32 a c = a + 2 ^ 32 - c := by
  unfold sub32
  rw [Nat.mod_eq_of_lt (by omega)]

/-- A wrapped end compares as inside the array, and the copy runs over its end. -/
theorem elementOut_wraps (wf : WellFormed b) (ho : offset < b.cap) (hs : size ≤ b.cap)
    (hwrap : 2 ^ 32 ≤ offset + size) (dest : Bytes) :
    elementOut b offset size dest = .error .undefined := by
  have hcap := wf.cap_lt
  have hout : ¬ offset + size ≤ b.cap := by omega
  unfold elementOut
  rw [u32_wrapped hwrap (by omega), if_pos (by omega), copyOut, access, if_neg hout]
  rfl

theorem elementIn_wraps (wf : WellFormed b) (ho : offset < b.cap) (hs : size ≤ b.cap)
    (hwrap : 2 ^ 32 ≤ offset + size) (src : Bytes) :
    elementIn b offset size src = .error .undefined := by
  have hcap := wf.cap_lt
  have hout : ¬ offset + (load src 0 size).length ≤ b.cap := by
    rw [length_load]
    omega
  unfold elementIn
  rw [u32_wrapped hwrap (by omega), if_pos (by omega), copyIn, access, if_neg hout]
  rfl

/-- A cursor whose sum wrapped is not the cursor modulo the capacity. -/
theorem wrapped_cursor_ne (wf : WellFormed b) (ho : offset < b.cap) (hn : n ≤ b.cap)
    (hwrap : 2 ^ 32 ≤ offset + n) : u32 (offset + n) % b.cap ≠ (offset + n) % b.cap := by
  have hcap := wf.cap_lt
  have hround : (offset + n) % b.cap = offset + n - b.cap := by
    rw [mod_once (by omega), if_neg (by omega)]
  rw [u32_wrapped hwrap (by omega), Nat.mod_eq_of_lt (by omega), hround]
  omega

end Sums

section Exactness

variable {b : Cbuffer} {size n : Nat}

theorem advanceHead_addsBack {data : Bytes} {xs : List UInt8} (wf : WellFormed b)
    (stored : RingStored b.data data b.cap b.head xs) (hn : xs.length = n)
    (hroom : n ≤ b.cap - cbufferLen b) :
    AddsBack b (advanceHead { b with data := data } n) xs := by
  subst hn
  have wfd := wf.setData data
  exact ⟨advanceHead_wf wfd hroom, rfl, rfl, rfl, stored, len_advanceHead wfd hroom⟩

theorem advanceTail_takesFront (wf : WellFormed b) (hn : n ≤ cbufferLen b) :
    TakesFront b (advanceTail b n) n := by
  have hlen := len_advanceTail wf hn
  exact ⟨advanceTail_wf wf, rfl, rfl, rfl, rfl, by omega⟩

theorem write_exact (wf : WellFormed b) (src : Bytes) (hs : 0 < size) (hn : 0 < n) :
    Exact b (.write src size n) := by
  obtain ⟨data, hrun, stored⟩ := cbufferWrite_stores wf src hs hn rfl
  refine ⟨_, _, rfl, ?_, advanceHead_addsBack wf stored length_load whole_elements_le⟩
  simp only [step, hrun, ok_bind]
  rfl

theorem read_exact (wf : WellFormed b) (dest : Option Bytes) (hs : 0 < size) (hn : 0 < n) :
    Exact b (.read dest size n) := by
  have hle : min n (cbufferLen b / size) * size ≤ cbufferLen b := whole_elements_le
  refine ⟨_, _, rfl, ?_, advanceTail_takesFront wf hle⟩
  simp only [step, cbufferRead_spec wf dest hs hn, ok_bind, contents, take_ringLoad,
    Nat.min_eq_left hle]
  rfl

theorem fakewrite_exact_iff (wf : WellFormed b) (hn : n ≤ b.cap - cbufferLen b) :
    Exact b (.fakewrite n) ↔ b.head + n < 2 ^ 32 := by
  have hle := wf.len_le
  constructor
  · rintro ⟨b', hrun, adds⟩
    by_contra hwrap
    have hmoved : b'.head = u32 (b.head + n) % b.cap := by
      simp only [step, cbufferFakewrite, assert_wf wf, avail_wf wf, assert_pos hn, ok_bind] at hrun
      exact congrArg Cbuffer.head (ok_pair_inj hrun).2.symm
    have hexact := adds.head_eq
    rw [length_ringLoad, hmoved] at hexact
    exact wrapped_cursor_ne wf wf.head_lt (by omega) (by omega) hexact
  · intro nowrap
    have stored : RingStored b.data b.data b.cap b.head (ringLoad b.data b.cap b.head n) :=
      ⟨fun k hk => (getElem_ringLoad hk).symm, fun _ _ => rfl⟩
    refine ⟨_, ?_, advanceHead_addsBack wf stored length_ringLoad hn⟩
    simp only [step, cbufferFakewrite_spec wf hn nowrap, ok_bind]
    rfl

theorem fakeread_exact_iff (wf : WellFormed b) (hn : n ≤ cbufferLen b) :
    Exact b (.fakeread n) ↔ b.tail + n < 2 ^ 32 := by
  have hle := wf.len_le
  constructor
  · rintro ⟨b', hrun, takes⟩
    by_contra hwrap
    have hmoved : b'.tail = u32 (b.tail + n) % b.cap := by
      simp only [step, cbufferFakeread, assert_wf wf, assert_pos hn, ok_bind] at hrun
      exact congrArg Cbuffer.tail (ok_pair_inj hrun).2.symm
    exact wrapped_cursor_ne wf wf.tail_lt (by omega) (by omega) (hmoved.symm.trans takes.tail_eq)
  · intro nowrap
    refine ⟨_, ?_, advanceTail_takesFront wf hn⟩
    simp only [step, cbufferFakeread_spec wf hn nowrap, ok_bind]
    rfl

theorem cbufferPushBack_wraps (wf : WellFormed b) (src : Bytes) (hs : 0 < size)
    (hroom : size ≤ b.cap - cbufferLen b) (hwrap : 2 ^ 32 ≤ b.head + size) :
    cbufferPushBack src size b = .error .undefined := by
  have hle := wf.len_le
  rw [cbufferPushBack, assert_wf wf, ok_bind, assert_pos hs, ok_bind, avail_wf wf, ok_bind,
    if_neg (by omega), elementIn_wraps wf wf.head_lt (by omega) hwrap]
  rfl

theorem cbufferPushBack_adds (wf : WellFormed b) (src : Bytes) (hs : 0 < size)
    (hroom : size ≤ b.cap - cbufferLen b) (nowrap : b.head + size < 2 ^ 32) :
    ∃ b', cbufferPushBack src size b = .ok (true, b') ∧ AddsBack b b' (load src 0 size) := by
  have hle := wf.len_le
  obtain ⟨data, hin, stored⟩ := elementIn_spec wf wf.head_lt
    (show size ≤ b.cap by omega) nowrap src
  refine ⟨_, ?_, advanceHead_addsBack wf stored length_load hroom⟩
  rw [cbufferPushBack, assert_wf wf, ok_bind, assert_pos hs, ok_bind, avail_wf wf, ok_bind,
    if_neg (by omega), hin, ok_bind, u32_of_lt nowrap]
  simp only [advanceHead, hs, true_and]
  rfl

theorem pushBack_exact_iff (wf : WellFormed b) (src : Bytes) (hs : 0 < size) :
    Exact b (.pushBack src size) ↔ NoWrap b (.pushBack src size) := by
  by_cases hroom : size ≤ b.cap - cbufferLen b
  swap
  · refine iff_of_true ?_ (fun h => absurd h hroom)
    rw [Exact, if_neg hroom, step, cbufferPushBack_full wf src hs (by omega)]
    rfl
  rw [Exact, if_pos hroom]
  constructor
  · rintro ⟨b', hrun, -⟩ -
    by_contra hwrap
    rw [step, cbufferPushBack_wraps wf src hs hroom (by omega)] at hrun
    cases hrun
  · intro nowrap
    obtain ⟨b', hrun, adds⟩ := cbufferPushBack_adds wf src hs hroom (nowrap hroom)
    refine ⟨b', ?_, adds⟩
    rw [step, hrun]
    rfl

/-- The sum of the front push drops `2 ^ 32`; taking the size away brings it
back exactly when the sum had fallen below the size. -/
theorem front_cursor (wf : WellFormed b) (hs : 0 < size) (hsize : size ≤ b.cap) :
    sub32 (u32 (b.tail + b.cap)) size % b.cap = (b.tail + b.cap - size) % b.cap ↔
      b.tail + b.cap - size < 2 ^ 32 := by
  have hcap := wf.cap_lt
  have ht := wf.tail_lt
  by_cases hsum : b.tail + b.cap < 2 ^ 32
  · rw [u32_of_lt hsum, sub32_of_le (by omega) hsum]
    exact iff_of_true rfl (by omega)
  rw [u32_wrapped (by omega) (by omega)]
  by_cases hback : b.tail + b.cap - 2 ^ 32 < size
  · have hsame : b.tail + b.cap - 2 ^ 32 + 2 ^ 32 = b.tail + b.cap := by omega
    rw [sub32_wrapped hback, hsame]
    exact iff_of_true rfl (by omega)
  · rw [sub32_of_le (by omega) (by omega), Nat.mod_eq_of_lt (by omega), mod_once (by omega),
      if_neg (by omega)]
    exact iff_of_false (by omega) (by omega)

/-- The front push of an element that fits, with the cursor the sum gives. -/
theorem cbufferPushFront_run (wf : WellFormed b) (src : Bytes) (hs : 0 < size)
    (hroom : size ≤ b.cap - cbufferLen b) {tail : Nat}
    (htail : sub32 (u32 (b.tail + b.cap)) size % b.cap = tail) :
    cbufferPushFront src size b = do
      let b ← elementIn b tail size src
      return (true,
        { b with tail := tail, isfull := if b.head = tail then true else b.isfull }) := by
  have hle := wf.len_le
  rw [cbufferPushFront, assert_wf wf, ok_bind, assert_pos hs, ok_bind, avail_wf wf, ok_bind,
    if_neg (by omega), htail]

theorem retreated_cursor (wf : WellFormed b) (hs : 0 < size) (hsize : size ≤ b.cap) :
    (b.tail + b.cap - size) % b.cap =
      if size ≤ b.tail then b.tail - size else b.tail + b.cap - size := by
  have ht := wf.tail_lt
  rw [mod_once (by omega)]
  split_ifs <;> omega

theorem cbufferPushFront_adds (wf : WellFormed b) (src : Bytes) (hs : 0 < size)
    (hroom : size ≤ b.cap - cbufferLen b) (nowrap : NoWrap b (.pushFront src size)) :
    ∃ b', cbufferPushFront src size b = .ok (true, b') ∧ AddsFront b b' (load src 0 size) := by
  have hle := wf.len_le
  have hfits := nowrap hroom
  have hwhere := retreated_cursor wf hs (show size ≤ b.cap by omega)
  have hmoved := (front_cursor wf hs (show size ≤ b.cap by omega)).mpr (by omega)
  obtain ⟨data, hin, stored⟩ := elementIn_spec wf (Nat.mod_lt (b.tail + b.cap - size) wf.cap_pos)
    (show size ≤ b.cap by omega) (by rw [hwhere]; split_ifs <;> omega) src
  have wfd := wf.setData data
  have hl : (load src 0 size).length = size := length_load
  refine ⟨retreatTail { b with data := data } size, ?_, ?_⟩
  · rw [cbufferPushFront_run wf src hs hroom hmoved, hin, ok_bind]
    rfl
  · constructor
    · exact retreatTail_wf wfd hs hroom
    · rfl
    · rfl
    · rw [hl]
      rfl
    · exact stored
    · rw [hl]
      exact len_retreatTail wfd hs hroom

/-- A front push that returns stored its element inside the array. -/
theorem cbufferPushFront_inside (wf : WellFormed b) {src : Bytes} {b' : Cbuffer} (hs : 0 < size)
    (hroom : size ≤ b.cap - cbufferLen b) (hrun : cbufferPushFront src size b = .ok (true, b'))
    (hmoved : b'.tail = (b.tail + b.cap - size) % b.cap) : NoWrap b (.pushFront src size) := by
  intro _
  have hle := wf.len_le
  have ht := wf.tail_lt
  have hcursor := front_cursor wf hs (show size ≤ b.cap by omega)
  have hwhere := retreated_cursor wf hs (show size ≤ b.cap by omega)
  rw [cbufferPushFront_run wf src hs hroom rfl] at hrun
  obtain ⟨mid, hin, hback⟩ := bind_eq_ok.mp hrun
  cases hback
  dsimp only at hmoved
  have hfits := hcursor.mp hmoved
  by_contra hno
  rw [if_neg (by omega)] at hwhere
  rw [hmoved, hwhere, elementIn_wraps wf (by omega) (by omega) (by omega)] at hin
  cases hin

theorem pushFront_exact_iff (wf : WellFormed b) (src : Bytes) (hs : 0 < size) :
    Exact b (.pushFront src size) ↔ NoWrap b (.pushFront src size) := by
  by_cases hroom : size ≤ b.cap - cbufferLen b
  swap
  · refine iff_of_true ?_ (fun h => absurd h hroom)
    rw [Exact, if_neg hroom, step, cbufferPushFront_full wf src hs (by omega)]
    rfl
  rw [Exact, if_pos hroom]
  constructor
  · rintro ⟨b', hrun, adds⟩
    obtain ⟨⟨ok, c⟩, hpush, hreply⟩ := bind_eq_ok.mp hrun
    cases hreply
    have hmoved := adds.tail_eq
    rw [length_load] at hmoved
    exact cbufferPushFront_inside wf hs hroom hpush hmoved
  · intro nowrap
    obtain ⟨b', hrun, adds⟩ := cbufferPushFront_adds wf src hs hroom nowrap
    refine ⟨b', ?_, adds⟩
    rw [step, hrun]
    rfl

/-- A transfer is exact if and only if its sum did not wrap. -/
theorem transfer_exact_iff (wf : WellFormed b) (t : Transfer) (hpre : Permitted b t.op) :
    Exact b t ↔ NoWrap b t := by
  cases t with
  | write src size n => exact iff_of_true (write_exact wf src hpre.1 hpre.2) trivial
  | read dest size n => exact iff_of_true (read_exact wf dest hpre.1 hpre.2) trivial
  | fakewrite nbytes => exact fakewrite_exact_iff wf hpre
  | fakeread nbytes => exact fakeread_exact_iff wf hpre
  | pushBack src size => exact pushBack_exact_iff wf src hpre
  | pushFront src size => exact pushFront_exact_iff wf src hpre

end Exactness

/-- An empty buffer of the largest capacity, with both cursors on the last cell. -/
def onLastCell : Cbuffer := ⟨fun _ => 0, 2 ^ 32 - 1, 2 ^ 32 - 2, 2 ^ 32 - 2, false⟩

theorem onLastCell_wf : WellFormed onLastCell :=
  ⟨by decide, by decide, by decide, by decide, fun h => Bool.noConfusion h⟩

theorem two_bytes_fit : 2 ≤ onLastCell.cap - cbufferLen onLastCell := by decide

/-- One byte leaves the cursor below `2 ^ 32`, and two bytes do not. -/
theorem transfer_exact_iff_last_cell :
    Exact onLastCell (.fakewrite 1) ∧ ¬ Exact onLastCell (.fakewrite 2) := by
  have hone : Exact onLastCell (.fakewrite 1) ↔ 2 ^ 32 - 2 + 1 < 2 ^ 32 :=
    transfer_exact_iff onLastCell_wf (.fakewrite 1) (Nat.le_of_succ_le two_bytes_fit)
  have htwo : Exact onLastCell (.fakewrite 2) ↔ 2 ^ 32 - 2 + 2 < 2 ^ 32 :=
    transfer_exact_iff onLastCell_wf (.fakewrite 2) two_bytes_fit
  exact ⟨hone.mpr (by decide), fun exact => absurd (htwo.mp exact) (by decide)⟩

/-- The write cursor moves from the last cell by two bytes, and the length grows by one. -/
theorem two_bytes_grow_by_one :
    WellFormed onLastCell ∧ Permitted onLastCell (.fakewrite 2) ∧
      (∃ b', step onLastCell (.fakewrite 2) = .ok (.done, b') ∧
        cbufferLen onLastCell = 0 ∧ cbufferLen b' = 1) ∧
      ¬ Exact onLastCell (.fakewrite 2) := by
  refine ⟨onLastCell_wf, two_bytes_fit, ⟨_, rfl, by decide, by decide⟩, ?_⟩
  intro hexact
  have := (fakewrite_exact_iff onLastCell_wf two_bytes_fit).mp hexact
  exact absurd this (by decide)

end CircularBuffer
