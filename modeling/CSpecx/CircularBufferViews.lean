import CSpecx.CircularBufferFiles
import CSpecx.CircularBufferPairs

/-!
# Views into the circular buffer

`cbuffer_get_next_data_bytes` and `cbuffer_get_next_avail_bytes` hand out a
region of the backing array. The client reads or fills the region and reports
it with `cbuffer_fakeread` or `cbuffer_fakewrite`; at most two such rounds do
what `cbuffer_read` and `cbuffer_write` do.
-/

namespace CircularBuffer

open CExec CellMemory

/-- A `struct bytes` into the backing array: the offset of its head, `none` for NULL. -/
structure View where
  head : Option Nat
  len : Nat

def cbufferGetNextDataBytes (b : Cbuffer) : Outcome View := do
  cbufferAssert b
  if b.head = b.tail ∧ b.isfull = false then return ⟨none, 0⟩
  else if b.tail < b.head then return ⟨some b.tail, sub32 b.head b.tail⟩
  else return ⟨some b.tail, sub32 b.cap b.tail⟩

def cbufferGetNextAvailBytes (b : Cbuffer) : Outcome View := do
  cbufferAssert b
  if b.isfull = true then return ⟨none, 0⟩
  else if b.tail ≤ b.head then return ⟨some b.head, sub32 b.cap b.head⟩
  else return ⟨some b.head, sub32 b.tail b.head⟩

/-- The bytes a client takes from a view. -/
def View.take (view : View) (n : Nat) (b : Cbuffer) : Outcome (List UInt8) :=
  match view.head with
  | none => .ok []
  | some o => copyOut b o n

def View.put (view : View) (xs : List UInt8) (b : Cbuffer) : Outcome Cbuffer :=
  match view.head with
  | none => .ok b
  | some o => copyIn b o xs

/-- At most `rounds` regions are filled from the list; what is left of it comes back. -/
def fillRounds : Nat → List UInt8 → Cbuffer → Outcome (List UInt8 × Cbuffer)
  | 0, xs, b => .ok (xs, b)
  | rounds + 1, xs, b =>
    if xs = [] then .ok (xs, b)
    else do
      let view ← cbufferGetNextAvailBytes b
      let k := min view.len xs.length
      let b ← view.put (xs.take k) b
      let b ← cbufferFakewrite b k
      fillRounds rounds (xs.drop k) b

/-- At most `rounds` regions are read until there are `n` bytes. -/
def drainRounds : Nat → Nat → Cbuffer → Outcome (List UInt8 × Cbuffer)
  | 0, _, b => .ok ([], b)
  | rounds + 1, n, b =>
    if n = 0 then .ok ([], b)
    else do
      let view ← cbufferGetNextDataBytes b
      let k := min view.len n
      let chunk ← view.take k b
      let b ← cbufferFakeread b k
      let (rest, b) ← drainRounds rounds (n - k) b
      return (chunk ++ rest, b)

section Regions

variable {b : Cbuffer} {n : Nat}

/-- The region of the data: none of an empty buffer. -/
def dataLen (b : Cbuffer) : Nat := if cbufferLen b = 0 then 0 else readable b

def availLen (b : Cbuffer) : Nat := if b.isfull = true then 0 else writable b

theorem len_eq_zero_iff (wf : WellFormed b) :
    cbufferLen b = 0 ↔ b.head = b.tail ∧ b.isfull = false := by
  have hcap := wf.cap_pos
  have hh := wf.head_lt
  have ht := wf.tail_lt
  rw [wf.len_eq]
  cases hf : b.isfull with
  | true =>
    simp only [if_true, Bool.true_eq_false, and_false, iff_false]
    omega
  | false =>
    simp only [Bool.false_eq_true, if_false, and_true]
    split_ifs <;> omega

/-- The region of the data ends with the data or with the array. -/
theorem dataLen_eq (wf : WellFormed b) : dataLen b = min (cbufferLen b) (b.cap - b.tail) := by
  have hh := wf.head_lt
  have ht := wf.tail_lt
  have hlen := wf.len_eq
  unfold dataLen readable
  cases hf : b.isfull with
  | true =>
    simp only [hf, if_true] at hlen
    simp only [Bool.true_eq_false, false_and, if_false]
    split_ifs <;> omega
  | false =>
    simp only [hf, Bool.false_eq_true, if_false] at hlen
    simp only [true_and]
    split_ifs at hlen ⊢ <;> omega

/-- The region of the space ends with the space or with the array. -/
theorem availLen_eq (wf : WellFormed b) :
    availLen b = min (b.cap - cbufferLen b) (b.cap - b.head) := by
  have ht := wf.tail_lt
  have hlen := wf.len_eq
  unfold availLen writable
  cases hf : b.isfull with
  | true =>
    simp only [hf, if_true] at hlen ⊢
    omega
  | false =>
    simp only [hf, Bool.false_eq_true, if_false] at hlen ⊢
    split_ifs at hlen ⊢ <;> omega

theorem dataLen_le (wf : WellFormed b) :
    dataLen b ≤ cbufferLen b ∧ b.tail + dataLen b ≤ b.cap := by
  have ht := wf.tail_lt
  rw [dataLen_eq wf]
  omega

theorem availLen_le (wf : WellFormed b) :
    availLen b ≤ b.cap - cbufferLen b ∧ b.head + availLen b ≤ b.cap := by
  have hh := wf.head_lt
  rw [availLen_eq wf]
  omega

/-- What the first region leaves out begins at the start of the array. -/
theorem dataLen_whole (wf : WellFormed b) (hzero : b.tail = 0 ∨ cbufferLen b = 0) :
    dataLen b = cbufferLen b := by
  have hle := wf.len_le
  rw [dataLen_eq wf]
  omega

theorem availLen_whole (wf : WellFormed b) (hzero : b.head = 0 ∨ b.isfull = true) :
    availLen b = b.cap - cbufferLen b := by
  rw [availLen_eq wf]
  rcases hzero with hzero | hfull
  · omega
  · have hlen := wf.len_eq
    rw [if_pos hfull] at hlen
    omega

theorem cbufferGetNextDataBytes_spec (wf : WellFormed b) : ∃ head,
    cbufferGetNextDataBytes b = .ok ⟨head, dataLen b⟩ ∧
      (head = some b.tail ∨ head = none ∧ dataLen b = 0) := by
  have hcap := wf.cap_lt
  have hh := wf.head_lt
  have ht := wf.tail_lt
  unfold cbufferGetNextDataBytes dataLen readable
  rw [assert_wf wf, ok_bind]
  by_cases hempty : b.head = b.tail ∧ b.isfull = false
  · rw [if_pos hempty, if_pos ((len_eq_zero_iff wf).mpr hempty)]
    exact ⟨none, rfl, .inr ⟨rfl, rfl⟩⟩
  rw [if_neg hempty, if_neg (fun h => hempty ((len_eq_zero_iff wf).mp h))]
  by_cases hlt : b.tail < b.head
  · have hopen : b.isfull = false := by
      cases hf : b.isfull with
      | true => have := wf.full_eq hf; omega
      | false => rfl
    rw [if_pos hlt, if_pos ⟨hopen, hlt⟩, sub32_of_le (le_of_lt hlt) (by omega)]
    exact ⟨some b.tail, rfl, .inl rfl⟩
  · rw [if_neg hlt, if_neg (fun h => hlt h.2), sub32_of_le (le_of_lt ht) hcap]
    exact ⟨some b.tail, rfl, .inl rfl⟩

theorem cbufferGetNextAvailBytes_spec (wf : WellFormed b) : ∃ head,
    cbufferGetNextAvailBytes b = .ok ⟨head, availLen b⟩ ∧
      (head = some b.head ∨ head = none ∧ availLen b = 0) := by
  have hcap := wf.cap_lt
  have hh := wf.head_lt
  have ht := wf.tail_lt
  unfold cbufferGetNextAvailBytes availLen writable
  rw [assert_wf wf, ok_bind]
  by_cases hfull : b.isfull = true
  · rw [if_pos hfull, if_pos hfull]
    exact ⟨none, rfl, .inr ⟨rfl, rfl⟩⟩
  rw [if_neg hfull, if_neg hfull]
  by_cases hle : b.tail ≤ b.head
  · rw [if_pos hle, if_pos hle, sub32_of_le (le_of_lt hh) hcap]
    exact ⟨some b.head, rfl, .inl rfl⟩
  · rw [if_neg hle, if_neg hle, sub32_of_le (by omega) (by omega)]
    exact ⟨some b.head, rfl, .inl rfl⟩

end Regions

section Rounds

variable {b : Cbuffer} {n rounds : Nat} {xs : List UInt8}

/-- One round reads its region and leaves the rest to the next. -/
theorem drainRounds_step (wf : WellFormed b) (hn : 0 < n) :
    drainRounds (rounds + 1) n b = do
      let (rest, b') ← drainRounds rounds (n - min (dataLen b) n)
        (advanceTail b (min (dataLen b) n))
      return ((contents b).take (min (dataLen b) n) ++ rest, b') := by
  obtain ⟨hlen, hend⟩ := dataLen_le wf
  have hcap := wf.cap_lt
  obtain ⟨head, hview, hwhere⟩ := cbufferGetNextDataBytes_spec wf
  rw [drainRounds, if_neg (by omega), hview, ok_bind]
  dsimp only
  generalize hk : min (dataLen b) n = k
  have htake : View.take ⟨head, dataLen b⟩ k b = .ok ((contents b).take k) := by
    rcases hwhere with rfl | ⟨rfl, hzero⟩
    · rw [take_contents (by omega) (by omega)]
      exact chunkOut_wf (by omega)
    · have h0 : k = 0 := by omega
      rw [h0, List.take_zero]
      rfl
  rw [htake, ok_bind, cbufferFakeread_spec wf (by omega) (by omega), ok_bind]

theorem advanceTail_add {m n : Nat} : advanceTail (advanceTail b m) n = advanceTail b (m + n) := by
  have hwhere : ((b.tail + m) % b.cap + n) % b.cap = (b.tail + (m + n)) % b.cap := by
    rw [Nat.mod_add_mod, Nat.add_assoc]
  simp only [advanceTail, hwhere]
  by_cases hn : 0 < n
  · rw [if_pos hn, if_pos (Nat.add_pos_right m hn)]
  · have h0 : n = 0 := by omega
    rw [h0, Nat.add_zero, if_neg (Nat.lt_irrefl 0)]

/-- After its first region a buffer starts at the start of the array, or is empty. -/
theorem drained_region (wf : WellFormed b) :
    (advanceTail b (dataLen b)).tail = 0 ∨ cbufferLen (advanceTail b (dataLen b)) = 0 := by
  obtain ⟨hlen, -⟩ := dataLen_le wf
  rw [len_advanceTail wf hlen]
  by_cases hmore : dataLen b < cbufferLen b
  · have hread : dataLen b = readable b := if_neg (by omega)
    rw [hread]
    exact .inl (second_chunk wf (le_refl _) (by omega)).2
  · exact .inr (by omega)

theorem drainRounds_two (wf : WellFormed b) : drainRounds 2 n b =
    .ok ((contents b).take n, advanceTail b (min n (cbufferLen b))) := by
  obtain ⟨hlen, -⟩ := dataLen_le wf
  by_cases hn : 0 < n
  swap
  · have h0 : n = 0 := by omega
    rw [h0, drainRounds, if_pos rfl, Nat.zero_min, List.take_zero]
    simp only [advanceTail, Nat.add_zero, Nat.mod_eq_of_lt wf.tail_lt, Nat.lt_irrefl, if_false]
  rw [drainRounds_step wf hn]
  by_cases hmore : dataLen b < n
  · have wf' := advanceTail_wf wf (n := dataLen b)
    have hwhole := dataLen_whole wf' (drained_region wf)
    rw [len_advanceTail wf hlen] at hwhole
    rw [Nat.min_eq_left (le_of_lt hmore), drainRounds_step wf' (by omega), hwhole]
    have hsum : dataLen b + min (cbufferLen b - dataLen b) (n - dataLen b) =
        min n (cbufferLen b) := by omega
    have htake : (contents b).take n = (contents b).take (min n (cbufferLen b)) := by
      rw [← length_contents b, ← List.take_take, List.take_length]
    rw [contents_advanceTail wf hlen, advanceTail_add, hsum, htake, ← hsum, List.take_add]
    simp only [drainRounds, ok_bind, List.append_nil]
    rfl
  · have hall : min (dataLen b) n = n := by omega
    have hmin : min n (cbufferLen b) = n := by omega
    rw [hall, hmin, Nat.sub_self, drainRounds, if_pos rfl, ok_bind]
    dsimp only
    rw [List.append_nil]
    rfl

theorem fillRounds_step (wf : WellFormed b) (hxs : 0 < xs.length)
    {k : Nat} (hk : k = min (availLen b) xs.length) :
    ∃ data, fillRounds (rounds + 1) xs b =
        fillRounds rounds (xs.drop k) (advanceHead { b with data := data } k) ∧
      RingStored b.data data b.cap b.head (xs.take k) := by
  obtain ⟨hroom, hend⟩ := availLen_le wf
  have hcap := wf.cap_lt
  have hl : (xs.take k).length = k := by
    rw [List.length_take]
    omega
  obtain ⟨head, hview, hwhere⟩ := cbufferGetNextAvailBytes_spec wf
  obtain ⟨data, hput, stored⟩ : ∃ data,
      View.put ⟨head, availLen b⟩ (xs.take k) b = .ok { b with data := data } ∧
        RingStored b.data data b.cap b.head (xs.take k) := by
    rcases hwhere with rfl | ⟨rfl, hzero⟩
    · have hinside : b.head + (xs.take k).length ≤ b.cap := by omega
      exact ⟨store b.data b.head (xs.take k), chunkIn_wf hinside, RingStored.straight hinside⟩
    · have h0 : k = 0 := by omega
      rw [h0, List.take_zero]
      exact ⟨b.data, rfl, RingStored.refl _ _ _⟩
  refine ⟨data, ?_, stored⟩
  have hne : xs ≠ [] := List.ne_nil_of_length_pos hxs
  rw [fillRounds, if_neg hne, hview, ok_bind]
  dsimp only
  rw [← hk, hput, ok_bind, cbufferFakewrite_spec (wf.setData data)
    (show k ≤ b.cap - cbufferLen b by omega) (show b.head + k < 2 ^ 32 by omega), ok_bind]

theorem filled_region (wf : WellFormed b) :
    (advanceHead b (availLen b)).head = 0 ∨ (advanceHead b (availLen b)).isfull = true := by
  have hh := wf.head_lt
  have ht := wf.tail_lt
  unfold availLen writable
  cases hf : b.isfull with
  | true =>
    refine .inr ?_
    simp [advanceHead, hf]
  | false =>
    rw [if_neg Bool.false_ne_true]
    by_cases hle : b.tail ≤ b.head
    · refine .inl ?_
      rw [if_pos hle]
      show (b.head + (b.cap - b.head)) % b.cap = 0
      rw [Nat.add_sub_of_le (le_of_lt hh), Nat.mod_self]
    · refine .inr ?_
      rw [if_neg hle]
      have hmeet : (b.head + (b.tail - b.head)) % b.cap = b.tail := by
        rw [Nat.add_sub_of_le (by omega), Nat.mod_eq_of_lt ht]
      simp only [advanceHead, hmeet, and_true, if_pos (show 0 < b.tail - b.head by omega)]

theorem fillRounds_two (wf : WellFormed b) {k : Nat}
    (hk : k = min xs.length (b.cap - cbufferLen b)) :
    ∃ data, fillRounds 2 xs b = .ok (xs.drop k, advanceHead { b with data := data } k) ∧
      RingStored b.data data b.cap b.head (xs.take k) := by
  obtain ⟨hroom, -⟩ := availLen_le wf
  by_cases hxs : 0 < xs.length
  swap
  · have h0 : k = 0 := by omega
    have hnil : xs = [] := List.eq_nil_of_length_eq_zero (by omega)
    rw [h0, hnil]
    refine ⟨b.data, ?_, RingStored.refl _ _ _⟩
    rw [fillRounds, if_pos rfl]
    simp [advanceHead, Nat.mod_eq_of_lt wf.head_lt]
  obtain ⟨first, hfirst⟩ : ∃ first, first = min (availLen b) xs.length := ⟨_, rfl⟩
  obtain ⟨mid, hrun, stored⟩ : ∃ mid, fillRounds 2 xs b =
      fillRounds 1 (xs.drop first) (advanceHead { b with data := mid } first) ∧
        RingStored b.data mid b.cap b.head (xs.take first) := fillRounds_step wf hxs hfirst
  rw [hrun]
  have wfm := wf.setData mid
  by_cases hmore : availLen b < xs.length
  · have heq : first = availLen b := by omega
    have hcapm : (advanceHead { b with data := mid } first).cap = b.cap := rfl
    have wf' := advanceHead_wf wfm (show first ≤ b.cap - cbufferLen b by omega)
    have hlen : cbufferLen (advanceHead { b with data := mid } first) = cbufferLen b + first :=
      len_advanceHead wfm (show first ≤ b.cap - cbufferLen b by omega)
    have hwhole := availLen_whole wf' (heq ▸ filled_region wfm)
    have hleft : (xs.drop first).length = xs.length - first := List.length_drop
    have hrest : k - first = min (availLen (advanceHead { b with data := mid } first))
        (xs.drop first).length := by
      rw [hwhole, hleft, hlen, hcapm]
      omega
    obtain ⟨data, hrun', stored'⟩ : ∃ data,
        fillRounds 1 (xs.drop first) (advanceHead { b with data := mid } first) =
          fillRounds 0 ((xs.drop first).drop (k - first))
            (advanceHead { advanceHead { b with data := mid } first with data := data }
              (k - first)) ∧
        RingStored mid data b.cap ((b.head + first) % b.cap) ((xs.drop first).take (k - first)) :=
      fillRounds_step wf' (by omega) hrest
    have hsum : first + (k - first) = k := by omega
    refine ⟨data, ?_, ?_⟩
    · have htwice : advanceHead (advanceHead { b with data := data } first) (k - first) =
          advanceHead { b with data := data } k := by
        rw [advanceHead_add (wf.setData data)
          (show first + (k - first) ≤ b.cap - cbufferLen b by omega), hsum]
      rw [hrun', fillRounds, List.drop_drop, hsum]
      exact congrArg (fun c => Except.ok (xs.drop k, c)) htwice
    · have hl : (xs.take first).length = first := by
        rw [List.length_take]
        omega
      have hsplit : xs.take k = xs.take first ++ (xs.drop first).take (k - first) := by
        rw [← List.take_add, hsum]
      rw [hsplit]
      refine stored.append (RingStored.mod ?_) ?_
      · rw [hl]
        exact stored'
      · rw [hl, List.length_take]
        omega
  · have heq : first = xs.length := by omega
    have hkeq : k = xs.length := by omega
    rw [heq] at stored
    rw [hkeq, heq, List.drop_length, fillRounds, if_pos rfl]
    exact ⟨mid, rfl, stored⟩

theorem fillRounds_write (wf : WellFormed b) {k : Nat}
    (hk : k = min xs.length (b.cap - cbufferLen b)) :
    ∃ b', fillRounds 2 xs b = .ok (xs.drop k, b') ∧ WellFormed b' ∧ b'.cap = b.cap ∧
      contents b' = contents b ++ xs.take k ∧
      ∀ src, 0 < xs.length → load src 0 xs.length = xs →
        cbufferWrite (some src) 1 xs.length b = .ok (k, b') := by
  obtain ⟨data, hrun, stored⟩ : ∃ data,
      fillRounds 2 xs b = .ok (xs.drop k, advanceHead { b with data := data } k) ∧
        RingStored b.data data b.cap b.head (xs.take k) := fillRounds_two wf hk
  have wfd := wf.setData data
  have hroom : k ≤ b.cap - cbufferLen b := by omega
  have hl : (xs.take k).length = k := by
    rw [List.length_take]
    omega
  have hcont := contents_append wf stored (by rw [hl]; exact hroom)
  rw [hl] at hcont
  refine ⟨_, hrun, advanceHead_wf wfd hroom, rfl, hcont, ?_⟩
  intro src hpos hsrc
  obtain ⟨data', hwrite, stored'⟩ := cbufferWrite_stores wf src Nat.one_pos hpos
    (k := k) (by rw [Nat.div_one]; exact hk)
  have hsame : load src 0 (k * 1) = xs.take k := by
    rw [← hsrc, take_load, Nat.mul_one, Nat.min_eq_left (by omega)]
  rw [hsame] at stored'
  rw [hwrite, Nat.mul_one, stored.unique stored']

theorem drainRounds_read (wf : WellFormed b) {k : Nat} (hk : k = min n (cbufferLen b)) :
    ∃ b', drainRounds 2 n b = .ok ((contents b).take k, b') ∧ WellFormed b' ∧ b'.cap = b.cap ∧
      contents b' = (contents b).drop k ∧
      ∀ dest, 0 < n → cbufferRead (some dest) 1 n b =
        .ok (k, some (store dest 0 ((contents b).take k)), b') := by
  have htake : (contents b).take n = (contents b).take k := by
    rw [hk, ← length_contents b, ← List.take_take, List.take_length]
  refine ⟨advanceTail b k, ?_, advanceTail_wf wf, rfl, contents_advanceTail wf (by omega), ?_⟩
  · rw [drainRounds_two wf, htake, hk]
  · intro dest hpos
    rw [cbufferRead_spec wf (some dest) Nat.one_pos hpos, Nat.div_one, Nat.mul_one, ← hk]
    rfl

/-- No cell of the region to fill holds a stored byte. -/
theorem availView_free (wf : WellFormed b) {view : View}
    (hview : cbufferGetNextAvailBytes b = .ok view) {i : Nat} (hi : i < view.len) :
    ∃ o, view.head = some o ∧ o + i < b.cap ∧
      ∀ j < cbufferLen b, o + i ≠ (b.tail + j) % b.cap := by
  obtain ⟨hroom, hend⟩ := availLen_le wf
  obtain ⟨head, hspec, hwhere⟩ := cbufferGetNextAvailBytes_spec wf
  cases hspec.symm.trans hview
  dsimp only at hi
  rcases hwhere with rfl | ⟨-, hzero⟩
  · refine ⟨b.head, rfl, by omega, ?_⟩
    intro j hj
    have hcell : b.head + i = (b.tail + (cbufferLen b + i)) % b.cap := by
      rw [← Nat.add_assoc, Nat.add_mod, ← wf.head_eq, Nat.mod_eq_of_lt (a := i) (by omega),
        Nat.mod_eq_of_lt (by omega)]
    rw [hcell]
    have hle := wf.len_le
    exact (ring_offset_ne (by omega) (by omega)).symm
  · omega

/-- The region to read holds the first stored bytes. -/
theorem dataView_contents (wf : WellFormed b) {view : View}
    (hview : cbufferGetNextDataBytes b = .ok view) :
    view.take view.len b = .ok ((contents b).take view.len) := by
  obtain ⟨hlen, hend⟩ := dataLen_le wf
  obtain ⟨head, hspec, hwhere⟩ := cbufferGetNextDataBytes_spec wf
  cases hspec.symm.trans hview
  dsimp only
  rcases hwhere with rfl | ⟨rfl, hzero⟩
  · rw [take_contents hlen hend]
    exact chunkOut_wf hend
  · rw [hzero, List.take_zero]
    rfl

/-- Two rounds through the views leave what one copying call leaves. -/
theorem views_agree (wf : WellFormed b) (xs : List UInt8) (n : Nat) :
    (∃ b', fillRounds 2 xs b = .ok (xs.drop (min xs.length (b.cap - cbufferLen b)), b') ∧
      WellFormed b' ∧ b'.cap = b.cap ∧
      contents b' = contents b ++ xs.take (min xs.length (b.cap - cbufferLen b)) ∧
      ∀ src, 0 < xs.length → load src 0 xs.length = xs →
        cbufferWrite (some src) 1 xs.length b =
          .ok (min xs.length (b.cap - cbufferLen b), b')) ∧
    (∃ b', drainRounds 2 n b = .ok ((contents b).take (min n (cbufferLen b)), b') ∧
      WellFormed b' ∧ b'.cap = b.cap ∧ contents b' = (contents b).drop (min n (cbufferLen b)) ∧
      ∀ dest, 0 < n → cbufferRead (some dest) 1 n b = .ok (min n (cbufferLen b),
        some (store dest 0 ((contents b).take (min n (cbufferLen b)))), b')) ∧
    (∀ view, cbufferGetNextAvailBytes b = .ok view → ∀ i < view.len,
      ∃ o, view.head = some o ∧ o + i < b.cap ∧
        ∀ j < cbufferLen b, o + i ≠ (b.tail + j) % b.cap) ∧
    ∀ view, cbufferGetNextDataBytes b = .ok view →
      view.take view.len b = .ok ((contents b).take view.len) := by
  refine ⟨fillRounds_write wf rfl, drainRounds_read wf rfl, ?_, ?_⟩
  · intro view hview i hi
    exact availView_free wf hview hi
  · intro view hview
    exact dataView_contents wf hview

/-- Stored bytes on both sides of the end of the array. -/
def acrossTheEnd : Cbuffer := ⟨fun i => UInt8.ofNat (10 + i), 5, 2, 3, false⟩

/-- The write fills a region before the end of the array and one behind it, and the read takes its
bytes from two such regions. -/
theorem views_agree_straddling :
    (∃ b', fillRounds 2 [8, 9, 10, 11] straddling = .ok ([], b') ∧ WellFormed b' ∧ b'.cap = 5 ∧
      contents b' = [7, 8, 9, 10, 11] ∧
      ∀ src, 0 < 4 → load src 0 4 = [8, 9, 10, 11] →
        cbufferWrite (some src) 1 4 straddling = .ok (4, b')) ∧
    (∃ b', drainRounds 2 3 acrossTheEnd = .ok ([13, 14, 10], b') ∧
      WellFormed b' ∧ b'.cap = 5 ∧ contents b' = [11] ∧
      ∀ dest, 0 < 3 → cbufferRead (some dest) 1 3 acrossTheEnd =
        .ok (3, some (store dest 0 [13, 14, 10]), b')) := by
  have wf : WellFormed straddling :=
    ⟨by decide, by decide, by decide, by decide, fun h => Bool.noConfusion h⟩
  have wf' : WellFormed acrossTheEnd :=
    ⟨by decide, by decide, by decide, by decide, fun h => Bool.noConfusion h⟩
  exact ⟨(views_agree wf [8, 9, 10, 11] 0).1, (views_agree wf' [] 3).2.1⟩

end Rounds

end CircularBuffer
