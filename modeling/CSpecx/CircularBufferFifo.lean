import CSpecx.CircularBuffer

/-!
# The circular buffer is a byte queue

`contents` reads the stored bytes from the read cursor on. Advancing the read
cursor drops bytes from the front; storing a range at the write cursor and
advancing it appends that range. The loops and the two-part copies of the
source are instances of these two moves.
-/

namespace CircularBuffer

open CExec CellMemory Component

structure WellFormed (b : Cbuffer) : Prop where
  cap_pos : 0 < b.cap
  cap_lt : b.cap < 2 ^ 32
  head_lt : b.head < b.cap
  tail_lt : b.tail < b.cap
  full_eq : b.isfull = true → b.head = b.tail

def contents (b : Cbuffer) : List UInt8 := ringLoad b.data b.cap b.tail (cbufferLen b)

@[simp] theorem length_contents (b : Cbuffer) : (contents b).length = cbufferLen b := by
  simp [contents]

theorem WellFormed.setData {b : Cbuffer} (wf : WellFormed b) (data : Bytes) :
    WellFormed { b with data := data } :=
  ⟨wf.cap_pos, wf.cap_lt, wf.head_lt, wf.tail_lt, wf.full_eq⟩

section Cursors

variable {b : Cbuffer} {n : Nat}

/-- The stored length, with the unsigned arithmetic evaluated. -/
theorem WellFormed.len_eq (wf : WellFormed b) : cbufferLen b =
    if b.isfull then b.cap
    else if b.tail ≤ b.head then b.head - b.tail else b.cap - (b.tail - b.head) := by
  have := wf.cap_lt
  have := wf.head_lt
  have := wf.tail_lt
  unfold cbufferLen
  split
  · rfl
  · split
    · rw [sub32_of_le (by omega) (by omega)]
    · rw [sub32_of_le (a := b.tail) (by omega) (by omega),
        sub32_of_le (by omega) (by omega)]

theorem WellFormed.len_le (wf : WellFormed b) : cbufferLen b ≤ b.cap := by
  have := wf.head_lt
  have := wf.tail_lt
  rw [wf.len_eq]
  split_ifs <;> omega

theorem WellFormed.len_lt_iff (wf : WellFormed b) :
    cbufferLen b < b.cap ↔ b.isfull = false := by
  have := wf.head_lt
  have := wf.tail_lt
  rw [wf.len_eq]
  cases hf : b.isfull with
  | true => simp
  | false => simp only [Bool.false_eq_true, if_false, iff_true]; split_ifs <;> omega

theorem WellFormed.head_eq (wf : WellFormed b) :
    b.head = (b.tail + cbufferLen b) % b.cap := by
  have := wf.head_lt
  have := wf.tail_lt
  have := wf.full_eq
  have := wf.len_le
  rw [mod_once (by omega), wf.len_eq]
  cases hf : b.isfull with
  | true =>
    have := wf.full_eq hf
    simp only [if_true]
    split_ifs <;> omega
  | false =>
    simp only [Bool.false_eq_true, if_false]
    split_ifs <;> omega

@[simp] theorem assert_wf (wf : WellFormed b) : cbufferAssert b = .ok () := by
  unfold cbufferAssert
  rw [assert_pos wf.cap_pos, assert_pos (fun h => (wf.full_eq h).symm), assert_pos wf.len_le]
  rfl

theorem avail_wf (wf : WellFormed b) :
    cbufferAvail b = .ok (b.cap - cbufferLen b) := by
  have := wf.cap_lt
  simp only [cbufferAvail, assert_wf wf, assert_pos wf.len_le, ok_bind,
    sub32_of_le wf.len_le wf.cap_lt]
  rfl

/-- The read cursor moved on by `n` bytes. -/
def advanceTail (b : Cbuffer) (n : Nat) : Cbuffer :=
  { b with tail := (b.tail + n) % b.cap, isfull := if 0 < n then false else b.isfull }

/-- The write cursor moved on by `n` bytes. -/
def advanceHead (b : Cbuffer) (n : Nat) : Cbuffer :=
  { b with
    head := (b.head + n) % b.cap
    isfull := if 0 < n ∧ (b.head + n) % b.cap = b.tail then true else b.isfull }

theorem advanceTail_wf (wf : WellFormed b) : WellFormed (advanceTail b n) := by
  refine ⟨wf.cap_pos, wf.cap_lt, wf.head_lt, Nat.mod_lt _ wf.cap_pos, ?_⟩
  intro h
  have hn : ¬ 0 < n := by intro hn; simp [advanceTail, hn] at h
  have h0 : n = 0 := by omega
  subst h0
  have hfull : b.isfull = true := by simpa [advanceTail] using h
  simpa [advanceTail, Nat.mod_eq_of_lt wf.tail_lt] using wf.full_eq hfull

theorem len_advanceTail (wf : WellFormed b) (hn : n ≤ cbufferLen b) :
    cbufferLen (advanceTail b n) = cbufferLen b - n := by
  have hcap := wf.cap_pos
  have hh := wf.head_lt
  have ht := wf.tail_lt
  have hlen := wf.len_le
  have hfull := wf.full_eq
  rw [(advanceTail_wf wf).len_eq, wf.len_eq]
  rw [wf.len_eq] at hn hlen
  have hmod := mod_once (c := b.cap) (a := b.tail + n) (by omega)
  simp only [advanceTail, hmod]
  by_cases h0 : 0 < n
  · simp only [if_pos h0, Bool.false_eq_true, if_false]
    cases hf : b.isfull with
    | true =>
      have := hfull hf
      simp only [hf, if_true] at hn hlen ⊢
      split_ifs <;> omega
    | false =>
      simp only [hf, Bool.false_eq_true, if_false] at hn hlen ⊢
      split_ifs at hn hlen ⊢ <;> omega
  · simp only [if_neg h0]
    split_ifs at hn hlen ⊢ <;> omega

theorem contents_advanceTail (wf : WellFormed b) (hn : n ≤ cbufferLen b) :
    contents (advanceTail b n) = (contents b).drop n := by
  simp only [contents, drop_ringLoad, len_advanceTail wf hn]
  exact ringLoad_mod

/-- Up to the end of the array the contents stand as they are read. -/
theorem take_contents (hn : n ≤ cbufferLen b) (hend : b.tail + n ≤ b.cap) :
    (contents b).take n = load b.data b.tail n := by
  rw [contents, take_ringLoad, Nat.min_eq_left hn, ringLoad_straight hend]

theorem advanceHead_wf (wf : WellFormed b) (hn : n ≤ b.cap - cbufferLen b) :
    WellFormed (advanceHead b n) := by
  refine ⟨wf.cap_pos, wf.cap_lt, Nat.mod_lt _ wf.cap_pos, wf.tail_lt, ?_⟩
  intro h
  by_cases hnew : 0 < n ∧ (b.head + n) % b.cap = b.tail
  · exact hnew.2
  · have hfull : b.isfull = true := by simpa [advanceHead, hnew] using h
    have hlen : cbufferLen b = b.cap := by
      have := wf.len_le
      have := wf.len_lt_iff.not.mpr (by simp [hfull])
      omega
    have h0 : n = 0 := by omega
    subst h0
    simpa [advanceHead, Nat.mod_eq_of_lt wf.head_lt] using wf.full_eq hfull

theorem len_advanceHead (wf : WellFormed b) (hn : n ≤ b.cap - cbufferLen b) :
    cbufferLen (advanceHead b n) = cbufferLen b + n := by
  have hcap := wf.cap_pos
  have hh := wf.head_lt
  have ht := wf.tail_lt
  have hlen := wf.len_le
  have hfull := wf.full_eq
  rw [(advanceHead_wf wf hn).len_eq, wf.len_eq]
  rw [wf.len_eq] at hn hlen
  have hmod := mod_once (c := b.cap) (a := b.head + n) (by omega)
  cases hf : b.isfull with
  | true =>
    simp only [hf, if_true] at hn hlen ⊢
    have h0 : n = 0 := by omega
    subst h0
    simp [advanceHead, hf]
  | false =>
    simp only [hf, Bool.false_eq_true, if_false] at hn hlen ⊢
    by_cases hw : 0 < n ∧ (b.head + n) % b.cap = b.tail
    · simp only [advanceHead, if_pos hw, if_true]
      split_ifs at hmod hn hlen ⊢ <;> omega
    · simp only [advanceHead, if_neg hw, hf, Bool.false_eq_true, if_false]
      split_ifs at hmod hn hlen ⊢ <;> omega

/-- The write cursor is behind the stored bytes. -/
theorem stored_behind (wf : WellFormed b) {data : Bytes} {xs : List UInt8}
    (stored : RingStored b.data data b.cap b.head xs) :
    RingStored b.data data b.cap (b.tail + cbufferLen b) xs := by
  apply RingStored.mod
  rw [← wf.head_eq]
  exact stored

/-- Bytes stored at the write cursor are not part of the contents yet. -/
theorem contents_stored (wf : WellFormed b) {data : Bytes} {xs : List UInt8}
    (stored : RingStored b.data data b.cap b.head xs)
    (hn : xs.length ≤ b.cap - cbufferLen b) : contents { b with data := data } = contents b := by
  have hle := wf.len_le
  exact (stored_behind wf stored).ringLoad_before (by omega)

/-- Bytes stored at the write cursor become the end of the contents. -/
theorem contents_append (wf : WellFormed b) {data : Bytes} {xs : List UInt8}
    (stored : RingStored b.data data b.cap b.head xs)
    (hn : xs.length ≤ b.cap - cbufferLen b) :
    contents (advanceHead { b with data := data } xs.length) = contents b ++ xs := by
  rw [contents, len_advanceHead (wf.setData data) hn]
  change ringLoad data b.cap b.tail (cbufferLen b + xs.length) = _
  rw [ringLoad_add, (stored_behind wf stored).ringLoad_self]
  exact congrArg (· ++ xs) (contents_stored wf stored hn)

end Cursors

/-! ## The loops -/

section Loops

variable {b : Cbuffer}

theorem chunkOut_wf {b : Cbuffer} {o n : Nat} (h : o + n ≤ b.cap) :
    copyOut b o n = .ok (load b.data o n) := by
  simp only [copyOut, access_pos h, ok_bind]
  rfl

theorem chunkIn_wf {b : Cbuffer} {o : Nat} {xs : List UInt8} (h : o + xs.length ≤ b.cap) :
    copyIn b o xs = .ok { b with data := store b.data o xs } := by
  simp only [copyIn, access_pos h, ok_bind]
  rfl

/-- The bytes up to the write cursor or the end of the array, whichever comes
first: what one round of the read loop may take. -/
def readable (b : Cbuffer) : Nat :=
  if b.isfull = false ∧ b.tail < b.head then b.head - b.tail else b.cap - b.tail

theorem readable_bounds (wf : WellFormed b) :
    0 < readable b ∧ b.tail + readable b ≤ b.cap := by
  have := wf.head_lt
  have := wf.tail_lt
  unfold readable
  split <;> omega

theorem readLoop_spec (fuel btoread : Nat) (s : ReadState)
    (wf : WellFormed { b with tail := s.tail, isfull := s.isfull })
    (hs : s.bread ≤ btoread) (hb : btoread < 2 ^ 32)
    (hlen : btoread - s.bread ≤ cbufferLen { b with tail := s.tail, isfull := s.isfull })
    (hfuel : btoread - s.bread < fuel) :
    readLoop b btoread fuel s = .ok {
      bread := btoread
      tail := (s.tail + (btoread - s.bread)) % b.cap
      isfull := if s.bread < btoread then false else s.isfull
      output := s.output.map fun d => store d s.bread
        ((contents { b with tail := s.tail, isfull := s.isfull }).take
          (btoread - s.bread)) } := by
  induction fuel generalizing s with
  | zero => omega
  | succ fuel ih =>
    have htail : s.tail < b.cap := wf.tail_lt
    have hcap : b.cap < 2 ^ 32 := wf.cap_lt
    have hhead : b.head < b.cap := wf.head_lt
    rw [readLoop]
    by_cases hlt : s.bread < btoread
    · set c : Cbuffer := { b with tail := s.tail, isfull := s.isfull } with hc
      set next := min (readable c) (btoread - s.bread) with hnext
      have hr := readable_bounds wf
      have hpos : 0 < next := by omega
      have hcode : (if s.isfull = false ∧ s.tail < b.head
          then min (sub32 b.head s.tail) (sub32 btoread s.bread)
          else min (sub32 b.cap s.tail) (sub32 btoread s.bread)) = next := by
        rw [hnext, sub32_of_le (a := btoread) hs hb]
        unfold readable
        split
        · rw [sub32_of_le (by omega) (by omega)]
        · rw [sub32_of_le (by omega) hcap]
      have hctail : c.tail + next ≤ b.cap := by
        have : c.tail + readable c ≤ b.cap := hr.2
        omega
      have hcopy : copyOut b s.tail next = .ok (load b.data s.tail next) :=
        chunkOut_wf hctail
      simp only [if_pos hlt, hcode, hcopy, ok_bind,
        u32_of_lt (show s.bread + next < 2 ^ 32 by omega),
        u32_of_lt (show s.tail + next < 2 ^ 32 by
          have : s.tail + next ≤ b.cap := hctail
          omega)]
      have hlen' : next ≤ cbufferLen c := by omega
      have hadv : ({ b with tail := (s.tail + next) % b.cap, isfull := false } : Cbuffer) =
          advanceTail c next := by simp [advanceTail, hc, hpos]
      have hrest := ih ⟨s.bread + next, (s.tail + next) % b.cap, false,
        s.output.map fun d => store d s.bread (load b.data s.tail next)⟩
        (by rw [hadv]; exact advanceTail_wf wf) (by dsimp only; omega)
        (by rw [hadv, len_advanceTail wf hlen']; dsimp only; omega) (by dsimp only; omega)
      rw [hrest, hadv, contents_advanceTail wf hlen']
      dsimp only
      have hsum : (s.tail + next) % b.cap + (btoread - (s.bread + next)) =
          (s.tail + next) % b.cap + (btoread - s.bread - next) := by omega
      have hmod : ((s.tail + next) % b.cap + (btoread - (s.bread + next))) % b.cap =
          (s.tail + (btoread - s.bread)) % b.cap := by
        rw [Nat.mod_add_mod]
        congr 1
        omega
      have hchunk : load b.data s.tail next = (contents c).take next :=
        (take_contents hlen' hctail).symm
      have hjoin : ∀ d : Bytes,
          store (store d s.bread (load b.data s.tail next)) (s.bread + next)
              (((contents c).drop next).take (btoread - (s.bread + next))) =
            store d s.bread ((contents c).take (btoread - s.bread)) := by
        intro d
        rw [store_append_of_length length_load, hchunk]
        congr 1
        have hs' : btoread - s.bread = next + (btoread - (s.bread + next)) := by omega
        rw [hs', List.take_add]
      simp only [hmod, Option.map_map, Function.comp_def, hjoin, ite_self]
    · obtain rfl : btoread = s.bread := by omega
      have hkeep : s.output.map (fun d => store d s.bread []) = s.output := by
        simp only [store_nil, Option.map_id']
      rw [if_neg hlt, if_neg hlt, Nat.sub_self, Nat.add_zero, List.take_zero,
        Nat.mod_eq_of_lt htail, hkeep]

/-- What one round of the write loop may fill. -/
def writable (b : Cbuffer) : Nat :=
  if b.tail ≤ b.head then b.cap - b.head else b.tail - b.head

theorem writable_bounds (wf : WellFormed b) :
    0 < writable b ∧ b.head + writable b ≤ b.cap := by
  have := wf.head_lt
  have := wf.tail_lt
  unfold writable
  split <;> omega

theorem writeCursor_spec (wf : WellFormed b) {rest : Nat} (h : 0 < rest) :
    writeCursor b rest = .ok (b.head, min (writable b) rest) := by
  have := wf.cap_lt
  have := wf.head_lt
  have := wf.tail_lt
  unfold writeCursor writable
  split
  · rw [sub32_of_le (by omega) wf.cap_lt, assert_pos wf.head_lt, ok_bind]
    simp only [if_neg (show ¬ min (b.cap - b.head) rest = 0 by omega)]
    rfl
  · rw [sub32_of_le (by omega) (by omega), assert_pos (by omega), ok_bind]
    rfl

/-- Two advances that fit are one. -/
theorem advanceHead_add {m n : Nat} (wf : WellFormed b) (hroom : m + n ≤ b.cap - cbufferLen b) :
    advanceHead (advanceHead b m) n = advanceHead b (m + n) := by
  have hwhere : ((b.head + m) % b.cap + n) % b.cap = (b.head + (m + n)) % b.cap := by
    rw [Nat.mod_add_mod, Nat.add_assoc]
  have wfm := advanceHead_wf wf (n := m) (by omega)
  have hlen := len_advanceHead wf (n := m) (by omega)
  rcases Nat.eq_zero_or_pos n with rfl | hn
  · simp [advanceHead]
  rcases Nat.eq_zero_or_pos m with rfl | hm
  · simp [advanceHead, Nat.mod_eq_of_lt wf.head_lt]
  · have hopen : (advanceHead b m).isfull = false := by
      refine wfm.len_lt_iff.mp ?_
      show cbufferLen (advanceHead b m) < b.cap
      omega
    have hsame : (if 0 < m ∧ (b.head + m) % b.cap = b.tail then true else b.isfull) = false := hopen
    have hfree : b.isfull = false := wf.len_lt_iff.mp (by omega)
    rw [hfree] at hsame
    simp only [advanceHead, hwhere, hsame, hfree, hn, true_and, Nat.add_pos_left hm]

/-- The bytes go round the ring from the write cursor on. -/
theorem writeLoop_stores (input : Bytes) (fuel btowrite bwrite : Nat) (wf : WellFormed b)
    (hs : bwrite ≤ btowrite) (hb : btowrite < 2 ^ 32)
    (hroom : btowrite - bwrite ≤ b.cap - cbufferLen b) (hfuel : btowrite - bwrite < fuel) :
    ∃ data, writeLoop input btowrite fuel bwrite b =
        .ok (btowrite, advanceHead { b with data := data } (btowrite - bwrite)) ∧
      RingStored b.data data b.cap b.head (load input bwrite (btowrite - bwrite)) := by
  induction fuel generalizing bwrite b with
  | zero => omega
  | succ fuel ih =>
    have hcap := wf.cap_lt
    have hhead := wf.head_lt
    have htail := wf.tail_lt
    rw [writeLoop]
    by_cases hlt : bwrite < btowrite
    · have hw := writable_bounds wf
      obtain ⟨next, hnext⟩ : ∃ next, next = min (writable b) (btowrite - bwrite) := ⟨_, rfl⟩
      have hpos : 0 < next := by omega
      have hcursor : writeCursor b (sub32 btowrite bwrite) = .ok (b.head, next) := by
        rw [sub32_of_le hs hb, writeCursor_spec wf (by omega), hnext]
      have hend : b.head + next ≤ b.cap := by omega
      have hl : (load input bwrite next).length = next := length_load
      obtain ⟨mid, hmid⟩ : ∃ mid, mid = store b.data b.head (load input bwrite next) := ⟨_, rfl⟩
      have hcopy : copyIn b b.head (load input bwrite next) = .ok { b with data := mid } := by
        rw [hmid]
        exact chunkIn_wf (by rw [hl]; exact hend)
      have stored : RingStored b.data mid b.cap b.head (load input bwrite next) := by
        rw [hmid]
        exact RingStored.straight (by rw [hl]; exact hend)
      have wfm := wf.setData mid
      have hadv : ({ b with
            data := mid
            head := u32 (b.head + next) % b.cap
            isfull := if u32 (b.head + next) % b.cap = b.tail then true else b.isfull } : Cbuffer)
          = advanceHead { b with data := mid } next := by
        rw [u32_of_lt (by omega)]
        simp only [advanceHead, hpos, true_and]
      have hlen : cbufferLen (advanceHead { b with data := mid } next) = cbufferLen b + next :=
        len_advanceHead wfm (show next ≤ b.cap - cbufferLen b by omega)
      have hcapa : (advanceHead { b with data := mid } next).cap = b.cap := rfl
      obtain ⟨data, hloop, hdata⟩ := ih (b := advanceHead { b with data := mid } next)
        (bwrite + next) (advanceHead_wf wfm (show next ≤ b.cap - cbufferLen b by omega))
        (by omega) (by omega) (by omega)
      have hsum : next + (btowrite - (bwrite + next)) = btowrite - bwrite := by omega
      have hall : load input bwrite (btowrite - bwrite) =
          load input bwrite next ++ load input (bwrite + next) (btowrite - (bwrite + next)) := by
        rw [← load_add, hsum]
      refine ⟨data, ?_, ?_⟩
      · have htwice : advanceHead (advanceHead { b with data := data } next)
            (btowrite - (bwrite + next)) =
              advanceHead { b with data := data } (btowrite - bwrite) := by
          rw [advanceHead_add (wf.setData data)
            (show next + (btowrite - (bwrite + next)) ≤ b.cap - cbufferLen b by omega), hsum]
        simp only [if_pos hlt, assert_pos hlt, ok_bind, hcursor, hcopy, hadv,
          u32_of_lt (show bwrite + next < 2 ^ 32 by omega), hloop]
        exact congrArg (fun c => Except.ok (btowrite, c)) htwice
      · rw [hall]
        refine stored.append (RingStored.mod ?_) ?_
        · rw [hl]
          exact hdata
        · rw [hl, length_load]
          omega
    · have he : bwrite = btowrite := by omega
      refine ⟨b.data, ?_, ?_⟩
      · simp [he, advanceHead, Nat.mod_eq_of_lt hhead]
      · rw [he, Nat.sub_self]
        exact RingStored.refl _ _ _

end Loops

/-! ## Elements that may wrap -/

section Elements

variable {b : Cbuffer} {offset size : Nat}

theorem elementOut_spec (wf : WellFormed b) (ho : offset < b.cap) (hs : size ≤ b.cap)
    (nowrap : offset + size < 2 ^ 32) (dest : Bytes) :
    elementOut b offset size dest =
      .ok (store dest 0 (ringLoad b.data b.cap offset size)) := by
  have hcap := wf.cap_lt
  unfold elementOut
  rw [u32_of_lt nowrap]
  split
  · rename_i hle
    rw [chunkOut_wf hle, ringLoad_straight hle]
    rfl
  · rename_i hle
    rw [sub32_of_le (a := b.cap) (by omega) hcap]
    dsimp only
    rw [sub32_of_le (a := size) (by omega) (by omega), chunkOut_wf (by omega),
      chunkOut_wf (by omega)]
    have happ : store (store dest 0 (load b.data offset (b.cap - offset))) (0 + (b.cap - offset))
        (load b.data 0 (size - (b.cap - offset))) = _ := store_append_of_length length_load
    rw [Nat.zero_add] at happ
    rw [ringLoad_wrapped (by omega) (by omega) hs, ← happ]
    rfl

theorem elementIn_spec (wf : WellFormed b) (ho : offset < b.cap) (hs : size ≤ b.cap)
    (nowrap : offset + size < 2 ^ 32) (src : Bytes) :
    ∃ data, elementIn b offset size src = .ok { b with data := data } ∧
      RingStored b.data data b.cap offset (load src 0 size) := by
  have hcap := wf.cap_lt
  unfold elementIn
  rw [u32_of_lt nowrap]
  split
  · rename_i hle
    exact ⟨store b.data offset (load src 0 size), chunkIn_wf (by rw [length_load]; exact hle),
      RingStored.straight (by rw [length_load]; exact hle)⟩
  · rename_i hle
    rw [sub32_of_le (a := b.cap) (by omega) hcap]
    dsimp only
    rw [sub32_of_le (a := size) (by omega) (by omega)]
    obtain ⟨first, hfirst⟩ : ∃ first, first = b.cap - offset := ⟨_, rfl⟩
    rw [← hfirst, chunkIn_wf (by rw [length_load]; omega), ok_bind]
    refine ⟨_, chunkIn_wf (b := { b with data := store b.data offset (load src 0 first) })
      (o := 0) (by rw [length_load]; change 0 + (size - first) ≤ b.cap; omega), ?_⟩
    have hsplit : load src 0 size = load src 0 first ++ load src first (size - first) := by
      have h := load_add src 0 first (size - first)
      rw [Nat.zero_add] at h
      rw [← h]
      congr 1
      omega
    rw [hsplit]
    refine RingStored.append (RingStored.straight (by rw [length_load]; omega)) ?_
      (by rw [length_load, length_load]; omega)
    apply RingStored.mod
    rw [length_load, show offset + first = b.cap by omega, Nat.mod_self]
    exact RingStored.straight (by rw [length_load]; omega)

end Elements

/-! ## The operations -/

section Operations

variable {b : Cbuffer} {size n : Nat}

theorem whole_elements_le {len : Nat} : min n (len / size) * size ≤ len :=
  (Nat.mul_le_mul_right size (Nat.min_le_right n _)).trans (Nat.div_mul_le_self len size)

theorem ite_lt_eq_min (a c : Nat) : (if a < c then a else c) = min a c := by
  split <;> omega

theorem readLoop_whole (wf : WellFormed b) (dest : Option Bytes)
    {k : Nat} (hk : k ≤ cbufferLen b) :
    readLoop b k (k + 1) ⟨0, b.tail, b.isfull, dest⟩ =
      .ok ⟨k, (advanceTail b k).tail, (advanceTail b k).isfull,
        dest.map fun d => store d 0 ((contents b).take k)⟩ := by
  have := wf.len_le
  have := wf.cap_lt
  have h := readLoop_spec (b := b) (k + 1) k ⟨0, b.tail, b.isfull, dest⟩ wf
    (by dsimp only; omega) (by omega) (by dsimp only; exact hk) (by dsimp only; omega)
  simpa [advanceTail] using h

theorem cbufferRead_spec (wf : WellFormed b) (dest : Option Bytes) (hs : 0 < size)
    (hn : 0 < n) :
    cbufferRead dest size n b = .ok (min n (cbufferLen b / size),
      dest.map fun d => store d 0
        ((contents b).take (min n (cbufferLen b / size) * size)),
      advanceTail b (min n (cbufferLen b / size) * size)) := by
  have := wf.len_le
  have := wf.cap_lt
  have hk : min n (cbufferLen b / size) * size ≤ cbufferLen b := whole_elements_le
  simp only [cbufferRead, assert_wf wf, assert_pos hs, assert_pos hn, ok_bind,
    ite_lt_eq_min, u32_of_lt (show min n (cbufferLen b / size) * size < 2 ^ 32 by omega),
    readLoop_whole wf dest hk, assert_pos]
  rfl

theorem cbufferCopy_spec (wf : WellFormed b) (dest : Option Bytes) (hs : 0 < size)
    (hn : 0 < n) :
    cbufferCopy dest size n b = .ok (min n (cbufferLen b / size),
      dest.map fun d => store d 0
        ((contents b).take (min n (cbufferLen b / size) * size))) := by
  have := wf.len_le
  have := wf.cap_lt
  have hk : min n (cbufferLen b / size) * size ≤ cbufferLen b := whole_elements_le
  simp only [cbufferCopy, assert_wf wf, assert_pos hs, assert_pos hn, ok_bind,
    ite_lt_eq_min, u32_of_lt (show min n (cbufferLen b / size) * size < 2 ^ 32 by omega),
    readLoop_whole wf dest hk, assert_pos]
  rfl

theorem cbufferWrite_stores (wf : WellFormed b) (src : Bytes) (hs : 0 < size) (hn : 0 < n)
    {k : Nat} (hk : k = min n ((b.cap - cbufferLen b) / size)) :
    ∃ data, cbufferWrite (some src) size n b =
        .ok (k, advanceHead { b with data := data } (k * size)) ∧
      RingStored b.data data b.cap b.head (load src 0 (k * size)) := by
  have hle := wf.len_le
  have hcap := wf.cap_lt
  have hroom : k * size ≤ b.cap - cbufferLen b := hk ▸ whole_elements_le
  obtain ⟨data, hloop, stored⟩ := writeLoop_stores (b := b) src (k * size + 1) (k * size) 0 wf
    (Nat.zero_le _) (by omega) hroom (by omega)
  refine ⟨data, ?_, stored⟩
  simp only [cbufferWrite, assert_wf wf, nonNull, assert_pos hs, assert_pos hn,
    assert_pos wf.len_le, ok_bind, sub32_of_le hle hcap, ite_lt_eq_min, ← hk,
    u32_of_lt (show k * size < 2 ^ 32 by omega), hloop, assert_pos]
  rfl

theorem cbufferWrite_spec (wf : WellFormed b) (src : Bytes) (hs : 0 < size) (hn : 0 < n) :
    ∃ b', cbufferWrite (some src) size n b =
        .ok (min n ((b.cap - cbufferLen b) / size), b') ∧
      WellFormed b' ∧ b'.cap = b.cap ∧ contents b' = contents b ++
        load src 0 (min n ((b.cap - cbufferLen b) / size) * size) := by
  obtain ⟨data, hrun, stored⟩ := cbufferWrite_stores wf src hs hn rfl
  have hroom : min n ((b.cap - cbufferLen b) / size) * size ≤ b.cap - cbufferLen b :=
    whole_elements_le
  have hcont := contents_append wf stored (by rw [length_load]; exact hroom)
  rw [length_load] at hcont
  exact ⟨_, hrun, advanceHead_wf (wf.setData data) hroom, rfl, hcont⟩

theorem cbufferFakeread_spec (wf : WellFormed b) (hn : n ≤ cbufferLen b)
    (nowrap : b.tail + n < 2 ^ 32) : cbufferFakeread b n = .ok (advanceTail b n) := by
  simp only [cbufferFakeread, assert_wf wf, assert_pos hn, ok_bind, u32_of_lt nowrap]
  rfl

theorem cbufferFakewrite_spec (wf : WellFormed b) (hn : n ≤ b.cap - cbufferLen b)
    (nowrap : b.head + n < 2 ^ 32) : cbufferFakewrite b n = .ok (advanceHead b n) := by
  simp only [cbufferFakewrite, assert_wf wf, avail_wf wf, assert_pos hn, ok_bind,
    u32_of_lt nowrap]
  rfl

/-- A fake write makes the next bytes of the backing array part of the contents. -/
theorem contents_fakewrite (wf : WellFormed b) (hn : n ≤ b.cap - cbufferLen b) :
    contents (advanceHead b n) = contents b ++ ringLoad b.data b.cap b.head n := by
  have hle := wf.len_le
  rw [contents, len_advanceHead wf hn]
  change ringLoad b.data b.cap b.tail (cbufferLen b + n) = _
  rw [ringLoad_add, ← ringLoad_mod (o := b.tail + cbufferLen b), ← wf.head_eq]
  rfl

theorem cbufferPushBack_spec (wf : WellFormed b) (src : Bytes) (hs : 0 < size)
    (hroom : size ≤ b.cap - cbufferLen b) (nowrap : b.head + size < 2 ^ 32) :
    ∃ b', cbufferPushBack src size b = .ok (true, b') ∧ WellFormed b' ∧ b'.cap = b.cap ∧
      contents b' = contents b ++ load src 0 size := by
  have hle := wf.len_le
  obtain ⟨data, hin, stored⟩ := elementIn_spec wf wf.head_lt
    (show size ≤ b.cap by omega) nowrap src
  have hl : (load src 0 size).length = size := length_load
  have wfd := wf.setData data
  have hcont := contents_append wf stored (by rw [hl]; exact hroom)
  rw [hl] at hcont
  refine ⟨advanceHead { b with data := data } size, ?_, advanceHead_wf wfd hroom, rfl, hcont⟩
  simp only [cbufferPushBack, assert_wf wf, assert_pos hs, avail_wf wf, ok_bind,
    if_neg (show ¬ b.cap - cbufferLen b < size by omega), hin, u32_of_lt nowrap]
  simp only [advanceHead, hs, true_and]
  rfl

theorem cbufferPushBack_full (wf : WellFormed b) (src : Bytes) (hs : 0 < size)
    (hroom : b.cap - cbufferLen b < size) :
    cbufferPushBack src size b = .ok (false, b) := by
  simp only [cbufferPushBack, assert_wf wf, assert_pos hs, avail_wf wf, ok_bind, if_pos hroom]
  rfl

theorem cbufferPushFront_full (wf : WellFormed b) (src : Bytes) (hs : 0 < size)
    (hroom : b.cap - cbufferLen b < size) :
    cbufferPushFront src size b = .ok (false, b) := by
  simp only [cbufferPushFront, assert_wf wf, assert_pos hs, avail_wf wf, ok_bind, if_pos hroom]
  rfl

/-- The read cursor moved back by `n` bytes. -/
def retreatTail (b : Cbuffer) (n : Nat) : Cbuffer :=
  { b with
    tail := (b.tail + b.cap - n) % b.cap
    isfull := if b.head = (b.tail + b.cap - n) % b.cap then true else b.isfull }

theorem retreat_advance (wf : WellFormed b) (hn : n ≤ b.cap) :
    ((b.tail + b.cap - n) % b.cap + n) % b.cap = b.tail := by
  rw [Nat.mod_add_mod, show b.tail + b.cap - n + n = b.tail + b.cap by omega,
    Nat.add_mod_right, Nat.mod_eq_of_lt wf.tail_lt]

theorem retreatTail_wf (wf : WellFormed b) (hpos : 0 < n) (hn : n ≤ b.cap - cbufferLen b) :
    WellFormed (retreatTail b n) := by
  refine ⟨wf.cap_pos, wf.cap_lt, wf.head_lt, Nat.mod_lt _ wf.cap_pos, ?_⟩
  intro h
  by_cases hnew : b.head = (b.tail + b.cap - n) % b.cap
  · exact hnew
  · have hfull : b.isfull = true := by simpa [retreatTail, hnew] using h
    have := wf.len_le
    have := wf.len_lt_iff.not.mpr (by simp [hfull])
    omega

theorem len_retreatTail (wf : WellFormed b) (hpos : 0 < n)
    (hn : n ≤ b.cap - cbufferLen b) :
    cbufferLen (retreatTail b n) = cbufferLen b + n := by
  have hh := wf.head_lt
  have ht := wf.tail_lt
  have hle := wf.len_le
  have hfull := wf.full_eq
  have hf : b.isfull = false := by
    apply wf.len_lt_iff.mp
    omega
  rw [(retreatTail_wf wf hpos hn).len_eq, wf.len_eq]
  rw [wf.len_eq] at hn hle
  have hmod := mod_once (c := b.cap) (a := b.tail + b.cap - n) (by omega)
  simp only [hf, Bool.false_eq_true, if_false] at hn hle ⊢
  by_cases hw : b.head = (b.tail + b.cap - n) % b.cap
  · simp only [retreatTail, if_pos hw, if_true]
    split_ifs at hmod hn hle ⊢ <;> omega
  · simp only [retreatTail, if_neg hw, hf, Bool.false_eq_true, if_false]
    split_ifs at hmod hn hle ⊢ <;> omega

theorem cbufferPushFront_spec (wf : WellFormed b) (src : Bytes) (hs : 0 < size)
    (hroom : size ≤ b.cap - cbufferLen b) (hcap : b.cap ≤ 2 ^ 31) :
    ∃ b', cbufferPushFront src size b = .ok (true, b') ∧ WellFormed b' ∧ b'.cap = b.cap ∧
      contents b' = load src 0 size ++ contents b := by
  have hle := wf.len_le
  have ht := wf.tail_lt
  obtain ⟨tail, htail⟩ : ∃ tail, tail = (b.tail + b.cap - size) % b.cap := ⟨_, rfl⟩
  have htlt : tail < b.cap := htail ▸ Nat.mod_lt _ wf.cap_pos
  obtain ⟨data, hin, stored⟩ := elementIn_spec wf htlt
    (show size ≤ b.cap by omega) (by omega) src
  have hl : (load src 0 size).length = size := length_load
  have wfd := wf.setData data
  have hlen := len_retreatTail wfd hs hroom
  refine ⟨retreatTail { b with data := data } size, ?_, retreatTail_wf wfd hs hroom, rfl, ?_⟩
  · simp only [cbufferPushFront, assert_wf wf, assert_pos hs, avail_wf wf, ok_bind,
      if_neg (show ¬ b.cap - cbufferLen b < size by omega),
      u32_of_lt (show b.tail + b.cap < 2 ^ 32 by omega),
      sub32_of_le (show size ≤ b.tail + b.cap by omega) (by omega), ← htail, hin]
    simp only [retreatTail, ← htail]
    rfl
  · have hback := stored.ringLoad_self
    have hrest := stored.ringLoad_after (n := cbufferLen b) (by rw [hl]; omega)
    rw [hl] at hback hrest
    have hlen' : cbufferLen (retreatTail { b with data := data } size) =
        size + cbufferLen b := by
      rw [hlen, Nat.add_comm]
      rfl
    rw [contents, hlen']
    simp only [retreatTail, ← htail]
    rw [ringLoad_add, hback, hrest, ← ringLoad_mod, htail, retreat_advance wf (by omega)]
    rfl

theorem cbufferPopFront_spec (wf : WellFormed b) (dest : Bytes) (hs : 0 < size)
    (hlen : size ≤ cbufferLen b) (nowrap : b.tail + size < 2 ^ 32) :
    cbufferPopFront (some dest) size b =
      .ok (true, store dest 0 ((contents b).take size), advanceTail b size) := by
  have hle := wf.len_le
  have hne : ¬ (b.isfull = false ∧ b.head = b.tail) := by
    rintro ⟨hf, he⟩
    have h0 := wf.len_eq
    simp [hf, he] at h0
    omega
  have hout := elementOut_spec wf wf.tail_lt (show size ≤ b.cap by omega) nowrap dest
  have hcont : (contents b).take size = ringLoad b.data b.cap b.tail size := by
    rw [contents, take_ringLoad, Nat.min_eq_left hlen]
  simp only [cbufferPopFront, popTail, nonNull, assert_wf wf, assert_pos hs, ok_bind,
    if_neg hne, hout, hcont, u32_of_lt nowrap]
  simp only [advanceTail, if_pos hs]
  rfl

theorem cbufferGet_spec (wf : WellFormed b) (dest : Bytes) {idx : Nat} (hs : 0 < size)
    (hidx : idx < cbufferLen b / size) (hcap : b.cap ≤ 2 ^ 31) :
    cbufferGet (some dest) size idx b =
      .ok (true, some (store dest 0 (((contents b).drop (idx * size)).take size))) := by
  have hle := wf.len_le
  have hh := wf.head_lt
  have ht := wf.tail_lt
  have hmul : idx * size + size ≤ cbufferLen b := by
    have h := Nat.mul_le_mul_right size (Nat.succ_le_of_lt hidx)
    rw [Nat.succ_mul] at h
    exact h.trans (Nat.div_mul_le_self _ _)
  have hidxle : idx ≤ idx * size := Nat.le_mul_of_pos_right idx hs
  have hguard : ¬ (b.isfull = false ∧
      sub32 (u32 (b.head + b.cap)) b.tail % b.cap ≤ idx) := by
    rintro ⟨hf, hsub⟩
    have hlen := wf.len_eq
    rw [u32_of_lt (by omega), sub32_of_le (by omega) (by omega), mod_once (by omega)] at hsub
    simp only [hf, Bool.false_eq_true, if_false] at hlen
    split_ifs at hsub hlen <;> omega
  have hout := elementOut_spec wf (Nat.mod_lt (b.tail + idx * size) wf.cap_pos)
    (show size ≤ b.cap by omega)
    (by have := Nat.mod_lt (b.tail + idx * size) wf.cap_pos; omega) dest
  have hcont : ((contents b).drop (idx * size)).take size =
      ringLoad b.data b.cap (b.tail + idx * size) size := by
    rw [contents, drop_ringLoad, take_ringLoad, Nat.min_eq_left (by omega)]
  rw [ringLoad_mod, ← hcont] at hout
  simp only [cbufferGet, assert_wf wf, nonNull, ok_bind, if_neg hguard, cbufferGetNoCheck,
    assert_pos hs, u32_of_lt (show idx * size < 2 ^ 32 by omega),
    assert_pos (show idx * size < b.cap by omega), assert_pos hidx,
    u32_of_lt (show b.tail + idx * size < 2 ^ 32 by omega), hout]
  rfl

end Operations

end CircularBuffer
