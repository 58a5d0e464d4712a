import CSpecx.CircularBufferElements

/-!
# The two ends of the circular buffer

The header documents a deque. Both pops and both peeks work at the read cursor,
so the back is given back only where it cannot be told from the front.
-/

namespace CircularBuffer

open CExec CellMemory

/-- The common body of `cbuffer_peek_back` and `cbuffer_peek_front`. -/
def peekTail (dest : Option Bytes) (size : Nat) (b : Cbuffer) :
    Outcome (Bool × Option Bytes) := do
  let d ← nonNull dest
  cbufferAssert b
  if b.isfull = false ∧ b.head = b.tail then return (false, some d)
  else cbufferGet (some d) size 0 b

def cbufferPeekBack (dest : Option Bytes) (size : Nat) (b : Cbuffer) :
    Outcome (Bool × Option Bytes) := peekTail dest size b

def cbufferPeekFront (dest : Option Bytes) (size : Nat) (b : Cbuffer) :
    Outcome (Bool × Option Bytes) := peekTail dest size b

/-- The peek and the pop of an element give `xs` back, and the pop leaves `rest`. -/
def GivesBack (peek : Option Bytes → Nat → Cbuffer → Outcome (Bool × Option Bytes))
    (pop : Option Bytes → Nat → Cbuffer → Outcome (Bool × Bytes × Cbuffer)) (size : Nat)
    (b : Cbuffer) (xs rest : List UInt8) : Prop :=
  (∀ dest, peek (some dest) size b = .ok (true, some (store dest 0 xs))) ∧
    ∀ dest, ∃ b', pop (some dest) size b = .ok (true, store dest 0 xs, b') ∧ contents b' = rest

/-- One end of a deque: what is pushed there is peeked and popped there. -/
def EndOfDeque (push : Bytes → Nat → Cbuffer → Outcome (Bool × Cbuffer))
    (peek : Option Bytes → Nat → Cbuffer → Outcome (Bool × Option Bytes))
    (pop : Option Bytes → Nat → Cbuffer → Outcome (Bool × Bytes × Cbuffer)) (src : Bytes)
    (size : Nat) (b : Cbuffer) : Prop :=
  ∃ b', push src size b = .ok (true, b') ∧
    GivesBack peek pop size b' (load src 0 size) (contents b)

/-- The guard of the peek, with `len` bytes from `tail` on: it takes them for none
when they end before the array does and make `2 ^ 32` with the capacity. -/
def Hidden (cap tail len : Nat) : Prop := tail + len < cap ∧ cap + len = 2 ^ 32

/-- The element is at both ends: before the stored bytes it reads as behind them. -/
structure BackAgrees (b : Cbuffer) (src : Bytes) (size : Nat) : Prop where
  pushed : b.head + size < 2 ^ 32
  popped : b.tail + size < 2 ^ 32
  seen : ¬ Hidden b.cap b.tail (cbufferLen b + size)
  commutes : contents b ++ load src 0 size = load src 0 size ++ contents b

structure FrontAgrees (b : Cbuffer) (size : Nat) : Prop where
  pushed : b.tail + b.cap < 2 ^ 32 ∨ (size ≤ b.tail ∧ b.tail + b.cap - size < 2 ^ 32)
  seen : ¬ Hidden b.cap ((b.tail + b.cap - size) % b.cap) (cbufferLen b + size)

section Ends

variable {b : Cbuffer} {size : Nat} {src : Bytes} {xs rest : List UInt8}

theorem peekTail_some (hsome : cbufferLen b ≠ 0) (wf : WellFormed b) (dest : Bytes) :
    peekTail (some dest) size b = cbufferGet (some dest) size 0 b := by
  have hne : ¬ (b.isfull = false ∧ b.head = b.tail) := fun h =>
    hsome ((len_eq_zero_iff wf).mpr ⟨h.2, h.1⟩)
  rw [peekTail, nonNull, ok_bind, assert_wf wf, ok_bind, if_neg hne]

/-- The guard lets the first element through unless the bytes are hidden. -/
theorem guard_first_iff (wf : WellFormed b) (hsome : cbufferLen b ≠ 0) :
    b.isfull = true ∨ 0 < guardLen b ↔ ¬ Hidden b.cap b.tail (cbufferLen b) := by
  have hcap := wf.cap_lt
  have hh := wf.head_lt
  have ht := wf.tail_lt
  have hle := wf.len_le
  have hlen := wf.len_eq
  unfold Hidden guardLen
  cases hf : b.isfull with
  | true =>
    rw [hf, if_pos rfl] at hlen
    refine iff_of_true (.inl rfl) ?_
    omega
  | false =>
    rw [hf, if_neg Bool.false_ne_true] at hlen
    rw [or_iff_right Bool.false_ne_true]
    split_ifs at hlen ⊢ <;> omega

theorem readsFirst_iff (wf : WellFormed b) :
    ReadsElement b size (b.tail + 0 * size) ↔ b.tail + size < 2 ^ 32 := by
  have hcap := wf.cap_lt
  have ht := wf.tail_lt
  rw [Nat.zero_mul, Nat.add_zero, ReadsElement, Nat.mod_eq_of_lt ht]
  constructor
  · rintro (⟨-, h⟩ | ⟨h, -⟩)
    · exact h
    · omega
  · intro h
    exact .inl ⟨by omega, h⟩

/-- What is given back is the front of the contents. -/
theorem givesBack_iff (wf : WellFormed b) (hs : 0 < size) (hlen : size ≤ cbufferLen b)
    (hxs : xs.length = size) : GivesBack peekTail popTail size b xs rest ↔
      b.tail + size < 2 ^ 32 ∧ ¬ Hidden b.cap b.tail (cbufferLen b) ∧
        contents b = xs ++ rest := by
  have hsome : cbufferLen b ≠ 0 := by omega
  have hidx : 0 < cbufferLen b / size := Nat.div_pos hlen hs
  have hl : ((contents b).take size).length = size := by
    rw [List.length_take, length_contents]
    omega
  have hget := getsInRange_element_iff wf hs hidx
  rw [guard_first_iff wf hsome, readsFirst_iff wf] at hget
  constructor
  · rintro ⟨hpeek, hpop⟩
    have hend : b.tail + size < 2 ^ 32 := by
      by_contra hwrap
      obtain ⟨b', hrun, -⟩ := hpop fun _ => 0
      rw [popTail_some wf hs hsome, elementOut_wraps wf wf.tail_lt
        (hlen.trans wf.len_le) (by omega)] at hrun
      cases hrun
    obtain ⟨b', hrun, hrest⟩ := hpop fun _ => 0
    rw [popTail_stored wf hs hlen hend] at hrun
    obtain ⟨-, hstored, rfl⟩ := ok_triple_inj hrun
    have htake : (contents b).take size = xs := store_injective (hl.trans hxs.symm) hstored
    have hget' : GetsInRange b size 0 := by
      intro dest
      rw [if_pos hidx, Nat.zero_mul, List.drop_zero, htake, ← peekTail_some hsome wf]
      exact hpeek dest
    refine ⟨hend, (hget.mp hget').1, ?_⟩
    rw [← htake, ← hrest, contents_advanceTail wf hlen, List.take_append_drop]
  · rintro ⟨hend, hseen, hcont⟩
    have htake : (contents b).take size = xs := by
      rw [hcont, ← hxs, List.take_left]
    have hdrop : (contents b).drop size = rest := by
      rw [hcont, ← hxs, List.drop_left]
    constructor
    · intro dest
      have hrun := hget.mpr ⟨hseen, hend⟩ dest
      rw [if_pos hidx, Nat.zero_mul, List.drop_zero, htake] at hrun
      rw [peekTail_some hsome wf, hrun]
    · intro dest
      refine ⟨advanceTail b size, ?_, ?_⟩
      · rw [popTail_stored wf hs hlen hend, htake]
      · rw [contents_advanceTail wf hlen, hdrop]

theorem AddsBack.contents_eq {b' : Cbuffer} (wf : WellFormed b) (adds : AddsBack b b' xs) :
    contents b' = contents b ++ xs := by
  have hle := adds.wf.len_le
  have hlen := adds.len_eq
  have hcap := adds.cap_eq
  have hstored := stored_behind wf adds.stored
  rw [contents, hlen, hcap, adds.tail_eq, ringLoad_add, hstored.ringLoad_self,
    hstored.ringLoad_before (by omega), contents]

theorem AddsFront.contents_eq {b' : Cbuffer} (wf : WellFormed b) (adds : AddsFront b b' xs) :
    contents b' = xs ++ contents b := by
  have hle := adds.wf.len_le
  have hlen := adds.len_eq
  have hcap := adds.cap_eq
  have hback : (b'.tail + xs.length) % b.cap = b.tail := by
    rw [adds.tail_eq]
    exact retreat_advance wf (by omega)
  rw [contents, hlen, hcap, Nat.add_comm, ringLoad_add, adds.stored.ringLoad_self,
    adds.stored.ringLoad_after (by omega), ← ringLoad_mod (o := b'.tail + xs.length),
    hback, contents]

/-- After a push the pushed element is given back where it is the front. -/
theorem givesBack_pushed_iff {b' : Cbuffer} {tail : Nat} (wf' : WellFormed b') (hs : 0 < size)
    (htail : b'.tail = tail) (hcap : b'.cap = b.cap)
    (hlen : cbufferLen b' = cbufferLen b + (load src 0 size).length)
    (hcont : contents b' = xs) :
    GivesBack peekTail popTail size b' (load src 0 size) (contents b) ↔
      tail + size < 2 ^ 32 ∧ ¬ Hidden b.cap tail (cbufferLen b + size) ∧
        xs = load src 0 size ++ contents b := by
  rw [length_load] at hlen
  rw [givesBack_iff wf' hs (by omega) length_load, htail, hcap, hlen, hcont]

theorem back_iff (wf : WellFormed b) (hs : 0 < size) (hroom : size ≤ b.cap - cbufferLen b) :
    EndOfDeque cbufferPushBack cbufferPeekBack cbufferPopBack src size b ↔
      BackAgrees b src size := by
  by_cases nowrap : b.head + size < 2 ^ 32
  · obtain ⟨b', hrun, adds⟩ := cbufferPushBack_adds wf src hs hroom nowrap
    have hgives :=
      givesBack_pushed_iff adds.wf hs adds.tail_eq adds.cap_eq adds.len_eq (adds.contents_eq wf)
    constructor
    · rintro ⟨c, hrun', gives⟩
      rw [hrun] at hrun'
      obtain ⟨-, rfl⟩ := ok_pair_inj hrun'
      obtain ⟨popped, seen, commutes⟩ := hgives.mp gives
      exact ⟨nowrap, popped, seen, commutes⟩
    · intro h
      exact ⟨b', hrun, hgives.mpr ⟨h.popped, h.seen, h.commutes⟩⟩
  · refine iff_of_false ?_ (fun h => nowrap h.pushed)
    rintro ⟨c, hrun, -⟩
    rw [cbufferPushBack_wraps wf src hs hroom (by omega)] at hrun
    cases hrun

theorem elementIn_data {offset : Nat} {b' : Cbuffer}
    (hrun : elementIn b offset size src = .ok b') : ∃ data, b' = { b with data := data } := by
  unfold elementIn at hrun
  split at hrun
  · obtain ⟨_, _, hstore⟩ := bind_eq_ok.mp hrun
    exact ⟨_, (Except.ok.inj hstore).symm⟩
  · obtain ⟨mid, hleft, hright⟩ := bind_eq_ok.mp hrun
    obtain ⟨_, _, hstore⟩ := bind_eq_ok.mp hleft
    cases hstore
    obtain ⟨_, _, hstore⟩ := bind_eq_ok.mp hright
    exact ⟨_, (Except.ok.inj hstore).symm⟩

theorem popTail_true {dest d : Bytes} {b' : Cbuffer}
    (hrun : popTail (some dest) size b = .ok (true, d, b')) :
    b' = { b with tail := u32 (b.tail + size) % b.cap, isfull := false } := by
  rw [popTail, nonNull, ok_bind] at hrun
  obtain ⟨_, _, hrun⟩ := bind_eq_ok.mp hrun
  obtain ⟨_, _, hrun⟩ := bind_eq_ok.mp hrun
  split at hrun
  · cases hrun
  · obtain ⟨_, _, hreply⟩ := bind_eq_ok.mp hrun
    exact (ok_triple_inj hreply).2.2.symm

/-- A cursor that wrapped past `2 ^ 32` never comes back to where it was. -/
theorem front_restores (wf : WellFormed b) (hs : 0 < size) (hroom : size ≤ b.cap - cbufferLen b)
    (h : EndOfDeque cbufferPushFront cbufferPeekFront cbufferPopFront src size b) :
    NoWrap b (.pushFront src size) := by
  have hcap := wf.cap_lt
  have hh := wf.head_lt
  have ht := wf.tail_lt
  have hle := wf.len_le
  obtain ⟨b', hrun, -, hpop⟩ := h
  have hcursor := front_cursor wf hs (show size ≤ b.cap by omega)
  by_cases hfits : b.tail + b.cap - size < 2 ^ 32
  · refine cbufferPushFront_inside wf hs hroom hrun ?_
    rw [cbufferPushFront_run wf src hs hroom (hcursor.mpr hfits)] at hrun
    obtain ⟨mid, -, hback⟩ := bind_eq_ok.mp hrun
    cases hback
    rfl
  exfalso
  have hwrong : sub32 (u32 (b.tail + b.cap)) size % b.cap = b.tail + b.cap - 2 ^ 32 - size := by
    rw [u32_wrapped (by omega) (by omega), sub32_of_le (by omega) (by omega),
      Nat.mod_eq_of_lt (by omega)]
  rw [cbufferPushFront_run wf src hs hroom hwrong] at hrun
  obtain ⟨mid, hin, hback⟩ := bind_eq_ok.mp hrun
  cases hback
  obtain ⟨data, rfl⟩ := elementIn_data hin
  obtain ⟨b'', hpopped, hcont⟩ := hpop fun _ => 0
  have hreach : b.tail + b.cap - 2 ^ 32 - size + size = b.tail + b.cap - 2 ^ 32 := by omega
  have hback := popTail_true hpopped
  dsimp only at hback
  rw [hreach, u32_of_lt (by omega), Nat.mod_eq_of_lt (by omega)] at hback
  have wf'' : WellFormed b'' := by
    rw [hback]
    exact ⟨wf.cap_pos, hcap, hh, by dsimp only; omega, fun h => Bool.noConfusion h⟩
  have hsame : cbufferLen b'' = cbufferLen b := by
    rw [← length_contents, hcont, length_contents]
  have hopen : b.isfull = false := wf.len_lt_iff.mp (by omega)
  rw [wf''.len_eq, wf.len_eq, hback, hopen] at hsame
  simp only [Bool.false_eq_true, if_false] at hsame
  split_ifs at hsame <;> omega

theorem front_iff (wf : WellFormed b) (hs : 0 < size) (hroom : size ≤ b.cap - cbufferLen b) :
    EndOfDeque cbufferPushFront cbufferPeekFront cbufferPopFront src size b ↔
      FrontAgrees b size := by
  have hle := wf.len_le
  have ht := wf.tail_lt
  have hl : (load src 0 size).length = size := length_load
  by_cases nowrap : NoWrap b (.pushFront src size)
  · have hfits := nowrap hroom
    have hwhere := retreated_cursor wf hs (show size ≤ b.cap by omega)
    have hend : (b.tail + b.cap - size) % b.cap + size < 2 ^ 32 := by
      rw [hwhere]
      have := wf.cap_lt
      split_ifs <;> omega
    obtain ⟨b', hrun, adds⟩ := cbufferPushFront_adds wf src hs hroom nowrap
    have htail := adds.tail_eq
    rw [hl] at htail
    have hgives :=
      givesBack_pushed_iff adds.wf hs htail adds.cap_eq adds.len_eq (adds.contents_eq wf)
    constructor
    · rintro ⟨c, hrun', gives⟩
      rw [hrun] at hrun'
      obtain ⟨-, rfl⟩ := ok_pair_inj hrun'
      exact ⟨hfits, (hgives.mp gives).2.1⟩
    · intro h
      exact ⟨b', hrun, hgives.mpr ⟨hend, h.seen, rfl⟩⟩
  · refine iff_of_false (fun h => nowrap (front_restores wf hs hroom h)) ?_
    intro h
    exact nowrap fun _ => h.pushed

/-- The buffer is the documented deque on an element if and only if that element
reads the same before and behind the stored bytes, and no sum wraps. -/
theorem deque_iff (wf : WellFormed b) (hs : 0 < size) (hroom : size ≤ b.cap - cbufferLen b) :
    EndOfDeque cbufferPushBack cbufferPeekBack cbufferPopBack src size b ∧
      EndOfDeque cbufferPushFront cbufferPeekFront cbufferPopFront src size b ↔
    BackAgrees b src size ∧ FrontAgrees b size :=
  and_congr (back_iff wf hs hroom) (front_iff wf hs hroom)

theorem oneByte_deque_iff :
    EndOfDeque cbufferPushBack cbufferPeekBack cbufferPopBack (fun _ => 9) 1 oneByte ∧
      EndOfDeque cbufferPushFront cbufferPeekFront cbufferPopFront (fun _ => 9) 1 oneByte ↔
    BackAgrees oneByte (fun _ => 9) 1 ∧ FrontAgrees oneByte 1 :=
  deque_iff oneByte_wf (by decide) (by decide)

/-- With `0` stored and `9` pushed to the back, the pop of the back returns `0`. -/
theorem oneByte_pops_front :
    WellFormed oneByte ∧ 1 ≤ oneByte.cap - cbufferLen oneByte ∧
      (∃ b' b'', cbufferPushBack (fun _ => 9) 1 oneByte = .ok (true, b') ∧
        cbufferPopBack (some fun _ => 7) 1 b' = .ok (true, store (fun _ => 7) 0 [0], b'') ∧
        contents b'' = [9]) ∧
      ¬ (EndOfDeque cbufferPushBack cbufferPeekBack cbufferPopBack (fun _ => 9) 1 oneByte ∧
        EndOfDeque cbufferPushFront cbufferPeekFront cbufferPopFront (fun _ => 9) 1 oneByte) := by
  have hone : 1 ≤ oneByte.cap - cbufferLen oneByte := by decide
  refine ⟨oneByte_wf, hone, ?_, ?_⟩
  · obtain ⟨b', hpush, adds⟩ := cbufferPushBack_adds oneByte_wf (fun _ => 9) Nat.one_pos hone
      (by decide)
    have hbytes : contents oneByte ++ load (fun _ => 9) 0 1 = [0, 9] := by decide
    have hcont := (adds.contents_eq oneByte_wf).trans hbytes
    have hlen : cbufferLen b' = 2 := by rw [← length_contents, hcont]; rfl
    have hpop := popTail_stored adds.wf Nat.one_pos (by omega)
      (by rw [adds.tail_eq]; decide) fun _ => 7
    rw [hcont] at hpop
    refine ⟨b', advanceTail b' 1, hpush, hpop, ?_⟩
    rw [contents_advanceTail adds.wf (by omega), hcont]
    rfl
  rintro ⟨hback, -⟩
  have hagrees := (back_iff oneByte_wf (by decide) (by decide)).mp hback
  exact absurd hagrees.commutes (by decide)

end Ends

end CircularBuffer
