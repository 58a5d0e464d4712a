import CSpecx.CircularBufferViews
import CSpecx.CircularBufferWraps

/-!
# Elements of the circular buffer

The pops test whether the buffer is empty, not whether it holds an element.
`cbuffer_get` compares an index in elements with a length in bytes, and tests
nothing when the buffer is full.
-/

namespace CircularBuffer

open CExec CellMemory

/-! ## The pops -/

/-- What a pop may do: without an element it changes nothing, and what it
returns was stored. -/
def PopsStored (pop : Option Bytes → Nat → Cbuffer → Outcome (Bool × Bytes × Cbuffer))
    (size : Nat) (b : Cbuffer) : Prop :=
  ∀ dest, ∃ ok d b', pop (some dest) size b = .ok (ok, d, b') ∧
    (cbufferLen b < size → ok = false ∧ d = dest ∧ b' = b) ∧
    (ok = true → cbufferLen b' + size = cbufferLen b ∧ load d 0 size <:+: contents b)

section Pops

variable {b : Cbuffer} {size : Nat}

theorem popTail_empty (wf : WellFormed b) (hs : 0 < size) (hempty : cbufferLen b = 0)
    (dest : Bytes) : popTail (some dest) size b = .ok (false, dest, b) := by
  obtain ⟨hhead, hopen⟩ := (len_eq_zero_iff wf).mp hempty
  rw [popTail, nonNull, ok_bind, assert_wf wf, ok_bind, assert_pos hs, ok_bind,
    if_pos ⟨hopen, hhead⟩]
  rfl

theorem popTail_some (wf : WellFormed b) (hs : 0 < size) (hsome : cbufferLen b ≠ 0)
    (dest : Bytes) : popTail (some dest) size b = do
      let d ← elementOut b b.tail size dest
      return (true, d, { b with tail := u32 (b.tail + size) % b.cap, isfull := false }) := by
  have hne : ¬ (b.isfull = false ∧ b.head = b.tail) := fun h =>
    hsome ((len_eq_zero_iff wf).mpr ⟨h.2, h.1⟩)
  rw [popTail, nonNull, ok_bind, assert_wf wf, ok_bind, assert_pos hs, ok_bind, if_neg hne]

/-- A pop of stored bytes takes the first ones. -/
theorem popTail_stored (wf : WellFormed b) (hs : 0 < size) (hlen : size ≤ cbufferLen b)
    (nowrap : b.tail + size < 2 ^ 32) (dest : Bytes) : popTail (some dest) size b =
      .ok (true, store dest 0 ((contents b).take size), advanceTail b size) :=
  cbufferPopFront_spec wf dest hs hlen nowrap

theorem load_popped (hlen : size ≤ cbufferLen b) (dest : Bytes) :
    load (store dest 0 ((contents b).take size)) 0 size = (contents b).take size := by
  have hl : ((contents b).take size).length = size := by
    rw [List.length_take, length_contents]
    omega
  have h : load (store dest 0 ((contents b).take size)) 0 ((contents b).take size).length =
      (contents b).take size := load_store
  rwa [hl] at h

theorem popTail_stored_iff (wf : WellFormed b) (hs : 0 < size) : PopsStored popTail size b ↔
    cbufferLen b = 0 ∨ (size ≤ cbufferLen b ∧ b.tail + size < 2 ^ 32) := by
  have hle := wf.len_le
  constructor
  · intro hpops
    by_contra hno
    have hsome : cbufferLen b ≠ 0 := fun h => hno (.inl h)
    obtain ⟨ok, d, b', hrun, hfew, -⟩ := hpops fun _ => 0
    rw [popTail_some wf hs hsome] at hrun
    obtain ⟨d', hout, hreply⟩ := bind_eq_ok.mp hrun
    cases hreply
    have henough : size ≤ cbufferLen b := by
      by_contra hlt
      exact Bool.noConfusion (hfew (by omega)).1
    rw [elementOut_wraps wf wf.tail_lt (by omega) (by omega)] at hout
    cases hout
  · rintro (hempty | ⟨hlen, nowrap⟩) dest
    · refine ⟨false, dest, b, popTail_empty wf hs hempty dest, fun _ => ⟨rfl, rfl, rfl⟩, ?_⟩
      intro h
      cases h
    · refine ⟨_, _, _, popTail_stored wf hs hlen nowrap dest, fun h => by omega, fun _ => ?_⟩
      constructor
      · rw [len_advanceTail wf hlen]
        omega
      · rw [load_popped hlen dest]
        exact (List.take_prefix size (contents b)).isInfix

/-- Both pops return only what was stored if and only if the buffer is empty or
holds an element, and the end of the element fits a `u32`. -/
theorem pops_stored_iff (wf : WellFormed b) (hs : 0 < size) :
    PopsStored cbufferPopFront size b ∧ PopsStored cbufferPopBack size b ↔
      cbufferLen b = 0 ∨ (size ≤ cbufferLen b ∧ b.tail + size < 2 ^ 32) := by
  have hiff := popTail_stored_iff wf hs
  exact ⟨fun h => hiff.mp h.1, fun h => ⟨hiff.mpr h, hiff.mpr h⟩⟩

/-- One byte in an array of three. -/
def oneByte : Cbuffer := ⟨fun i => UInt8.ofNat i, 3, 1, 0, false⟩

theorem oneByte_wf : WellFormed oneByte :=
  ⟨by decide, by decide, by decide, by decide, fun h => Bool.noConfusion h⟩

theorem oneByte_pops_stored_iff :
    PopsStored cbufferPopFront 1 oneByte ∧ PopsStored cbufferPopBack 1 oneByte ↔
      1 = 0 ∨ (1 ≤ 1 ∧ 0 + 1 < 2 ^ 32) :=
  pops_stored_iff oneByte_wf (by decide)

/-- Two bytes popped from one leave two behind. -/
theorem oneByte_pops_two :
    WellFormed oneByte ∧ cbufferLen oneByte = 1 ∧
      (∃ d b', cbufferPopFront (some fun _ => 0) 2 oneByte = .ok (true, d, b') ∧
        cbufferLen b' = 2) ∧
      ¬ (PopsStored cbufferPopFront 2 oneByte ∧ PopsStored cbufferPopBack 2 oneByte) := by
  refine ⟨oneByte_wf, by decide, ⟨_, _, rfl, by decide⟩, ?_⟩
  rintro ⟨hfront, -⟩
  exact absurd ((popTail_stored_iff oneByte_wf (by decide)).mp hfront) (by decide)

end Pops

/-! ## Indexed reads -/

/-- The element at `idx` is returned when there is one, and `false` otherwise. -/
def GetsInRange (b : Cbuffer) (size idx : Nat) : Prop :=
  ∀ dest, cbufferGet (some dest) size idx b =
    if idx < cbufferLen b / size then
      .ok (true, some (store dest 0 (((contents b).drop (idx * size)).take size)))
    else .ok (false, some dest)

/-- The number of bytes the guard computes from the cursors: the length, less
what a sum of `2 ^ 32` or more has lost. -/
def guardLen (b : Cbuffer) : Nat :=
  if b.tail ≤ b.head ∧ 2 ^ 32 ≤ b.cap + cbufferLen b then b.cap + cbufferLen b - 2 ^ 32
  else cbufferLen b

/-- The element at `start`, counted from the start of the array, is copied from
where it is, or from cells that hold the same bytes. -/
def ReadsElement (b : Cbuffer) (size start : Nat) : Prop :=
  (start < 2 ^ 32 ∧ start % b.cap + size < 2 ^ 32) ∨
    (2 ^ 32 ≤ start ∧ load b.data (start - 2 ^ 32) size = load b.data (start - b.cap) size)

section Gets

variable {b : Cbuffer} {size idx : Nat}

theorem guardLen_eq (wf : WellFormed b) (hopen : b.isfull = false) :
    sub32 (u32 (b.head + b.cap)) b.tail % b.cap = guardLen b := by
  have hcap := wf.cap_lt
  have hh := wf.head_lt
  have ht := wf.tail_lt
  have hlen := wf.len_eq
  rw [hopen, if_neg Bool.false_ne_true] at hlen
  unfold guardLen
  by_cases hsum : b.head + b.cap < 2 ^ 32
  · rw [u32_of_lt hsum, sub32_of_le (by omega) hsum, mod_once (by omega)]
    split_ifs at hlen ⊢ <;> omega
  rw [u32_wrapped (by omega) (by omega)]
  by_cases hback : b.head + b.cap - 2 ^ 32 < b.tail
  · have hsame : b.head + b.cap - 2 ^ 32 + 2 ^ 32 - b.tail = b.head + b.cap - b.tail := by omega
    rw [sub32_wrapped hback, hsame, mod_once (by omega)]
    split_ifs at hlen ⊢ <;> omega
  · rw [sub32_of_le (by omega) (by omega), Nat.mod_eq_of_lt (by omega)]
    split_ifs at hlen ⊢ <;> omega

theorem cbufferGet_refused (wf : WellFormed b) (hopen : b.isfull = false)
    (hguard : guardLen b ≤ idx) (dest : Bytes) :
    cbufferGet (some dest) size idx b = .ok (false, some dest) := by
  rw [cbufferGet, assert_wf wf, ok_bind, nonNull, ok_bind, guardLen_eq wf hopen,
    if_pos ⟨hopen, hguard⟩]
  rfl

theorem cbufferGet_accepted (wf : WellFormed b) (hguard : b.isfull = true ∨ idx < guardLen b)
    (dest : Bytes) : cbufferGet (some dest) size idx b = do
      return (true, ← cbufferGetNoCheck (some dest) size idx b) := by
  have hno : ¬ (b.isfull = false ∧
      sub32 (u32 (b.head + b.cap)) b.tail % b.cap ≤ idx) := by
    rintro ⟨hopen, hle⟩
    rw [guardLen_eq wf hopen] at hle
    rcases hguard with hfull | hlt
    · rw [hopen] at hfull
      cases hfull
    · omega
  rw [cbufferGet, assert_wf wf, ok_bind, nonNull, ok_bind, if_neg hno]

/-- Past the guard the copy runs only for an index in range. -/
theorem cbufferGetNoCheck_range (wf : WellFormed b) {dest : Bytes} {d : Option Bytes}
    (hrun : cbufferGetNoCheck (some dest) size idx b = .ok d) : idx < cbufferLen b / size := by
  rw [cbufferGetNoCheck, assert_wf wf, ok_bind] at hrun
  obtain ⟨_, _, hrun⟩ := bind_eq_ok.mp hrun
  obtain ⟨_, _, hrun⟩ := bind_eq_ok.mp hrun
  obtain ⟨_, hrange, -⟩ := bind_eq_ok.mp hrun
  exact assert_eq_ok_iff.mp hrange

theorem element_end (hidx : idx < cbufferLen b / size) :
    idx * size + size ≤ cbufferLen b := by
  have h := Nat.mul_le_mul_right size (Nat.succ_le_of_lt hidx)
  rw [Nat.succ_mul] at h
  exact h.trans (Nat.div_mul_le_self _ _)

theorem cbufferGetNoCheck_run (wf : WellFormed b) (hs : 0 < size)
    (hidx : idx < cbufferLen b / size) (dest : Bytes) :
    cbufferGetNoCheck (some dest) size idx b = do
      return some (← elementOut b (u32 (b.tail + idx * size) % b.cap) size dest) := by
  have hend := element_end hidx
  have hle := wf.len_le
  have hcap := wf.cap_lt
  rw [cbufferGetNoCheck, assert_wf wf, ok_bind, assert_pos hs, ok_bind,
    u32_of_lt (show idx * size < 2 ^ 32 by omega),
    assert_pos (show idx * size < b.cap by omega), ok_bind]
  dsimp only
  rw [assert_pos hidx, ok_bind]

theorem contents_element (hend : idx * size + size ≤ cbufferLen b) :
    ((contents b).drop (idx * size)).take size =
      ringLoad b.data b.cap (b.tail + idx * size) size := by
  rw [contents, drop_ringLoad, take_ringLoad, Nat.min_eq_left (by omega)]

theorem store_injective {m : Bytes} {xs ys : List UInt8} (hlen : xs.length = ys.length)
    (h : store m 0 xs = store m 0 ys) : xs = ys := by
  have hx : load (store m 0 xs) 0 ys.length = xs := load_store_of_length hlen
  rw [h, load_store] at hx
  exact hx.symm

/-- The copy from the cursor that the sum gives is the element's if and only if
the sum did not wrap, or the wrong cells hold the same bytes. -/
theorem elementOut_reads_iff (wf : WellFormed b) {start : Nat} (hs : size ≤ b.cap)
    (hend : start + size < 2 * b.cap) :
    (∀ dest, elementOut b (u32 start % b.cap) size dest =
      .ok (store dest 0 (ringLoad b.data b.cap start size))) ↔ ReadsElement b size start := by
  have hcap := wf.cap_lt
  by_cases hsum : start < 2 ^ 32
  · have hwhere : start % b.cap < b.cap := Nat.mod_lt _ wf.cap_pos
    rw [u32_of_lt hsum]
    by_cases hfits : start % b.cap + size < 2 ^ 32
    · refine iff_of_true (fun dest => ?_) (.inl ⟨hsum, hfits⟩)
      rw [elementOut_spec wf hwhere hs hfits, ringLoad_mod]
    · refine iff_of_false (fun h => ?_) ?_
      · have hrun := h fun _ => 0
        rw [elementOut_wraps wf hwhere hs (by omega)] at hrun
        cases hrun
      · rintro (⟨-, h⟩ | ⟨h, -⟩)
        · exact hfits h
        · omega
  · obtain ⟨wrong, hwrong⟩ : ∃ wrong, wrong = start - 2 ^ 32 := ⟨_, rfl⟩
    have hcopied : ∀ dest, elementOut b (u32 start % b.cap) size dest =
        .ok (store dest 0 (load b.data wrong size)) := by
      intro dest
      rw [u32_wrapped (by omega) (by omega), ← hwrong, Nat.mod_eq_of_lt (by omega), elementOut,
        u32_of_lt (by omega), if_pos (by omega), chunkOut_wf (by omega)]
      rfl
    have hright : ringLoad b.data b.cap start size = load b.data (start - b.cap) size := by
      rw [← ringLoad_mod, mod_once (by omega), if_neg (by omega), ringLoad_straight (by omega)]
    rw [ReadsElement, ← hwrong, hright]
    constructor
    · intro h
      have hsame := Except.ok.inj ((hcopied fun _ => 0).symm.trans (h fun _ => 0))
      exact .inr ⟨by omega, store_injective (by rw [length_load, length_load]) hsame⟩
    · rintro (⟨h, -⟩ | ⟨-, h⟩) dest
      · exact absurd h hsum
      · rw [hcopied dest, h]

theorem guard_decides : ¬ (b.isfull = true ∨ idx < guardLen b) ↔
    b.isfull = false ∧ guardLen b ≤ idx := by
  rw [not_or, not_lt, Bool.not_eq_true]

theorem getsInRange_element_iff (wf : WellFormed b) (hs : 0 < size)
    (hidx : idx < cbufferLen b / size) : GetsInRange b size idx ↔
      (b.isfull = true ∨ idx < guardLen b) ∧ ReadsElement b size (b.tail + idx * size) := by
  have hle := wf.len_le
  have ht := wf.tail_lt
  have hend := element_end hidx
  by_cases hguard : b.isfull = true ∨ idx < guardLen b
  · have hreads : (∀ dest, elementOut b (u32 (b.tail + idx * size) % b.cap) size dest =
        .ok (store dest 0 (ringLoad b.data b.cap (b.tail + idx * size) size))) ↔
          ReadsElement b size (b.tail + idx * size) :=
      elementOut_reads_iff wf (by omega) (by omega)
    rw [and_iff_right hguard, ← hreads]
    refine forall_congr' fun dest => ?_
    rw [cbufferGet_accepted wf hguard, cbufferGetNoCheck_run wf hs hidx, if_pos hidx,
      contents_element hend]
    cases elementOut b (u32 (b.tail + idx * size) % b.cap) size dest with
    | error e => exact iff_of_false nofun nofun
    | ok d =>
      constructor
      · intro h
        cases h
        rfl
      · intro h
        cases h
        rfl
  · obtain ⟨hopen, hbelow⟩ := guard_decides.mp hguard
    refine iff_of_false (fun h => ?_) (fun h => hguard h.1)
    have hrun := h fun _ => 0
    rw [cbufferGet_refused wf hopen hbelow, if_pos hidx] at hrun
    cases hrun

theorem getsInRange_beyond_iff (wf : WellFormed b) (hidx : cbufferLen b / size ≤ idx) :
    GetsInRange b size idx ↔ b.isfull = false ∧ guardLen b ≤ idx := by
  rw [← guard_decides]
  by_cases hguard : b.isfull = true ∨ idx < guardLen b
  · refine iff_of_false (fun h => ?_) (fun h => h hguard)
    have hrun := h fun _ => 0
    rw [cbufferGet_accepted wf hguard, if_neg (by omega)] at hrun
    obtain ⟨d, hget, -⟩ := bind_eq_ok.mp hrun
    have := cbufferGetNoCheck_range wf hget
    omega
  · obtain ⟨hopen, hbelow⟩ := guard_decides.mp hguard
    refine iff_of_true (fun dest => ?_) hguard
    rw [cbufferGet_refused wf hopen hbelow, if_neg (by omega)]

/-- An index is answered right if and only if the guard decides it right and the
copy starts at the element. -/
theorem gets_in_range_iff (wf : WellFormed b) (hs : 0 < size) : GetsInRange b size idx ↔
    (idx < cbufferLen b / size ∧ (b.isfull = true ∨ idx < guardLen b) ∧
      ReadsElement b size (b.tail + idx * size)) ∨
    (cbufferLen b / size ≤ idx ∧ b.isfull = false ∧ guardLen b ≤ idx) := by
  by_cases hidx : idx < cbufferLen b / size
  · rw [getsInRange_element_iff wf hs hidx, and_iff_right hidx]
    exact ⟨.inl, fun h => h.resolve_right fun h' => absurd h'.1 (by omega)⟩
  · rw [getsInRange_beyond_iff wf (by omega)]
    exact ⟨fun h => .inr ⟨by omega, h⟩, fun h => (h.resolve_left fun h' => hidx h'.1).2⟩

/-- Three bytes in an array of four: one element of two bytes. -/
def threeBytes : Cbuffer := ⟨fun i => UInt8.ofNat i, 4, 3, 0, false⟩

theorem threeBytes_wf : WellFormed threeBytes :=
  ⟨by decide, by decide, by decide, by decide, fun h => Bool.noConfusion h⟩

theorem threeBytes_gets_in_range_iff : GetsInRange threeBytes 2 0 ↔
    (0 < 1 ∧ (false = true ∨ 0 < guardLen threeBytes) ∧ ReadsElement threeBytes 2 0) ∨
      (1 ≤ 0 ∧ false = false ∧ guardLen threeBytes ≤ 0) :=
  gets_in_range_iff threeBytes_wf (by decide)

/-- The second element is out of range, and asking for it trips an assertion. -/
theorem threeBytes_get_asserts :
    WellFormed threeBytes ∧ cbufferLen threeBytes / 2 = 1 ∧
      cbufferGet (some fun _ => 0) 2 1 threeBytes = .error .assertion ∧
      ¬ GetsInRange threeBytes 2 1 := by
  have hrun : cbufferGet (some fun _ => 0) 2 1 threeBytes = .error .assertion := rfl
  refine ⟨threeBytes_wf, by decide, hrun, ?_⟩
  intro h
  have hget := h fun _ => 0
  rw [hrun] at hget
  cases hget

end Gets

end CircularBuffer
