import CSpecx.CircularBufferFifo

/-!
# Transfers between two circular buffers

`cbuffer_cbuffer_move` and `cbuffer_cbuffer_copy`, on two buffers whose backing
arrays do not overlap. The bytes of the source are one chunk, or a second one
from the start of the array, and each chunk is written to the destination.
-/

namespace CircularBuffer

open CExec CellMemory

/-- How many elements there are and there is room for. -/
def elementsToMove (dest : Cbuffer) (sz cnt : Nat) (src : Cbuffer) : Outcome Nat := do
  cbufferAssert dest
  cbufferAssert src
  assert (0 < sz ∧ 0 < cnt)
  let srcElems := cbufferLen src / sz
  let dstSpace := (← cbufferAvail dest) / sz
  let n := if cnt < srcElems then cnt else srcElems
  return if dstSpace < n then dstSpace else n

/-- From the read cursor up to the end of the data or of the array. -/
def firstChunk (src : Cbuffer) (nbytes : Nat) : Nat :=
  let first := if src.isfull = true ∨ src.head ≤ src.tail then sub32 src.cap src.tail
    else sub32 src.head src.tail
  if nbytes < first then nbytes else first

/-- `cbuffer_write (src->data + pos, 1, n, dest)`. -/
def writeChunk (src : Cbuffer) (pos n : Nat) (dest : Cbuffer) : Outcome Cbuffer := do
  access (pos + n ≤ src.cap)
  let (_, dest) ← cbufferWrite (some fun i => src.data (pos + i)) 1 n dest
  return dest

def cbufferCbufferMove (dest : Cbuffer) (sz cnt : Nat) (src : Cbuffer) :
    Outcome (Nat × Cbuffer × Cbuffer) := do
  let n ← elementsToMove dest sz cnt src
  if n = 0 then return (0, dest, src)
  else do
    let nbytes := u32 (n * sz)
    let first := firstChunk src nbytes
    let dest ← writeChunk src src.tail first dest
    let src := { src with tail := u32 (src.tail + first) % src.cap, isfull := false }
    let nbytes := sub32 nbytes first
    if 0 < nbytes then do
      let dest ← writeChunk src src.tail nbytes dest
      return (n, dest, { src with tail := u32 (src.tail + nbytes) % src.cap })
    else return (n, dest, src)

def cbufferCbufferCopy (dest : Cbuffer) (sz cnt : Nat) (src : Cbuffer) :
    Outcome (Nat × Cbuffer) := do
  let n ← elementsToMove dest sz cnt src
  if n = 0 then return (0, dest)
  else do
    let nbytes := u32 (n * sz)
    let first := firstChunk src nbytes
    let dest ← writeChunk src src.tail first dest
    let pos := u32 (src.tail + first) % src.cap
    let nbytes := sub32 nbytes first
    if 0 < nbytes then do
      let dest ← writeChunk src pos nbytes dest
      return (n, dest)
    else return (n, dest)

section Chunks

variable {dest src : Cbuffer} {sz cnt n k pos : Nat}

theorem elementsToMove_spec (wfd : WellFormed dest) (wfs : WellFormed src) (hsz : 0 < sz)
    (hcnt : 0 < cnt) : elementsToMove dest sz cnt src =
      .ok (min cnt (min (cbufferLen src / sz) ((dest.cap - cbufferLen dest) / sz))) := by
  have hmin : min ((dest.cap - cbufferLen dest) / sz) (min cnt (cbufferLen src / sz)) =
      min cnt (min (cbufferLen src / sz) ((dest.cap - cbufferLen dest) / sz)) := by omega
  simp only [elementsToMove, assert_wf wfd, assert_wf wfs, ok_bind, avail_wf wfd,
    assert_pos (And.intro hsz hcnt), ite_lt_eq_min, hmin]
  rfl

theorem firstChunk_eq (wfs : WellFormed src) : firstChunk src k = min (readable src) k := by
  have hcap := wfs.cap_lt
  have hh := wfs.head_lt
  have ht := wfs.tail_lt
  unfold firstChunk readable
  by_cases hstraight : src.isfull = false ∧ src.tail < src.head
  · have hif : ¬ (src.isfull = true ∨ src.head ≤ src.tail) := by
      rw [hstraight.1]
      simp [hstraight.2]
    rw [if_neg hif, if_pos hstraight, sub32_of_le (le_of_lt hstraight.2) (by omega)]
    exact (ite_lt_eq_min _ _).trans (Nat.min_comm _ _)
  · have hif : src.isfull = true ∨ src.head ≤ src.tail := by
      cases hf : src.isfull with
      | true => exact .inl rfl
      | false => exact .inr (not_lt.mp fun h => hstraight ⟨hf, h⟩)
    rw [if_pos hif, if_neg hstraight, sub32_of_le (le_of_lt ht) hcap]
    exact (ite_lt_eq_min _ _).trans (Nat.min_comm _ _)

theorem writeChunk_spec (wfd : WellFormed dest) (hn : 0 < n)
    (hroom : n ≤ dest.cap - cbufferLen dest) (inside : pos + n ≤ src.cap) :
    ∃ dest', writeChunk src pos n dest = .ok dest' ∧ WellFormed dest' ∧ dest'.cap = dest.cap ∧
      contents dest' = contents dest ++ load src.data pos n := by
  obtain ⟨dest', hrun, wf', hcap', hcont⟩ :=
    cbufferWrite_spec wfd (fun i => src.data (pos + i)) Nat.one_pos hn
  have hall : min n ((dest.cap - cbufferLen dest) / 1) * 1 = n := by
    rw [Nat.mul_one, Nat.div_one, Nat.min_eq_left hroom]
  have hload : load (fun i => src.data (pos + i)) 0 n = load src.data pos n :=
    load_eq fun i _ => by rw [Nat.zero_add]
  rw [hall, hload] at hcont
  refine ⟨dest', ?_, wf', hcap', hcont⟩
  rw [writeChunk, access_pos inside, ok_bind, hrun, ok_bind]
  rfl

/-- A second chunk begins at the start of the array. -/
theorem second_chunk (wfs : WellFormed src) (hk : k ≤ cbufferLen src) (hmore : readable src < k) :
    readable src = src.cap - src.tail ∧ (advanceTail src (readable src)).tail = 0 := by
  have hh := wfs.head_lt
  have ht := wfs.tail_lt
  have hlen := wfs.len_eq
  unfold readable at hmore ⊢
  by_cases hstraight : src.isfull = false ∧ src.tail < src.head
  · rw [if_pos hstraight] at hmore
    rw [hstraight.1, if_neg Bool.false_ne_true, if_pos (le_of_lt hstraight.2)] at hlen
    omega
  · rw [if_neg hstraight]
    refine ⟨rfl, ?_⟩
    show (src.tail + (src.cap - src.tail)) % src.cap = 0
    rw [Nat.add_sub_of_le (le_of_lt ht), Nat.mod_self]

/-- What both functions do with `k` bytes: the destination receives them in at
most two chunks, and the cursor behind them is the advanced one. -/
theorem chunks_spec (wfd : WellFormed dest) (wfs : WellFormed src) (hk : 0 < k)
    (hlen : k ≤ cbufferLen src) (hroom : k ≤ dest.cap - cbufferLen dest) :
    ∃ dest₁ dest', writeChunk src src.tail (firstChunk src k) dest = .ok dest₁ ∧
      WellFormed dest' ∧ dest'.cap = dest.cap ∧
      contents dest' = contents dest ++ (contents src).take k ∧
      0 < firstChunk src k ∧ src.tail + firstChunk src k ≤ src.cap ∧
      ((firstChunk src k = k ∧ dest' = dest₁) ∨
        (firstChunk src k < k ∧ (advanceTail src (firstChunk src k)).tail = 0 ∧
          writeChunk src 0 (k - firstChunk src k) dest₁ = .ok dest')) := by
  have hr := readable_bounds wfs
  rw [firstChunk_eq wfs]
  obtain ⟨first, hfirst⟩ : ∃ first, first = min (readable src) k := ⟨_, rfl⟩
  rw [← hfirst]
  have hpos : 0 < first := by omega
  have hinside : src.tail + first ≤ src.cap := by omega
  have htake := take_contents (b := src) (n := first) (by omega) hinside
  obtain ⟨dest₁, hrun₁, wf₁, hcap₁, hcont₁⟩ :=
    writeChunk_spec wfd hpos (show first ≤ dest.cap - cbufferLen dest by omega) hinside
  by_cases hmore : readable src < k
  · have heq : first = readable src := by omega
    obtain ⟨hread, hzero⟩ := second_chunk wfs hlen hmore
    rw [← heq] at hzero
    have hlen₁ : cbufferLen dest₁ = cbufferLen dest + first := by
      rw [← length_contents, hcont₁, List.length_append, length_contents, length_load]
    have hle := wfs.len_le
    obtain ⟨dest', hrun', wf', hcap', hcont'⟩ : ∃ dest',
        writeChunk src 0 (k - first) dest₁ = .ok dest' ∧ WellFormed dest' ∧
          dest'.cap = dest₁.cap ∧ contents dest' = contents dest₁ ++ load src.data 0 (k - first) :=
      writeChunk_spec wf₁ (by omega) (by omega) (by omega)
    have hrest : ((contents src).drop first).take (k - first) = load src.data 0 (k - first) := by
      have hfl : first ≤ cbufferLen src := by omega
      have hadv := take_contents (b := advanceTail src first) (n := k - first)
        (by rw [len_advanceTail wfs hfl]; omega)
        (by rw [hzero]; show 0 + (k - first) ≤ src.cap; omega)
      rw [contents_advanceTail wfs hfl, hzero] at hadv
      exact hadv
    refine ⟨dest₁, dest', hrun₁, wf', hcap'.trans hcap₁, ?_, hpos, hinside,
      .inr ⟨by omega, hzero, hrun'⟩⟩
    have hsplit : (contents src).take k =
        (contents src).take first ++ ((contents src).drop first).take (k - first) := by
      rw [← List.take_add, Nat.add_sub_of_le (by omega)]
    rw [hcont', hcont₁, hsplit, htake, hrest, List.append_assoc]
  · have heq : first = k := by omega
    refine ⟨dest₁, dest₁, hrun₁, wf₁, hcap₁, ?_, hpos, hinside, .inl ⟨heq, rfl⟩⟩
    rw [hcont₁, ← htake, heq]

end Chunks

section Transfers

variable {dest src : Cbuffer} {sz cnt n : Nat}

/-- The elements to move are stored, and there is room for them. -/
theorem elements_fit
    (hn : n = min cnt (min (cbufferLen src / sz) ((dest.cap - cbufferLen dest) / sz))) :
    n * sz ≤ cbufferLen src ∧ n * sz ≤ dest.cap - cbufferLen dest :=
  ⟨(Nat.mul_le_mul_right sz (by omega)).trans (Nat.div_mul_le_self _ sz),
    (Nat.mul_le_mul_right sz (by omega)).trans (Nat.div_mul_le_self _ sz)⟩

theorem cbufferCbufferMove_spec (wfd : WellFormed dest) (wfs : WellFormed src) (hsz : 0 < sz)
    (hcnt : 0 < cnt)
    (hn : n = min cnt (min (cbufferLen src / sz) ((dest.cap - cbufferLen dest) / sz))) :
    ∃ dest', cbufferCbufferMove dest sz cnt src = .ok (n, dest', advanceTail src (n * sz)) ∧
      WellFormed dest' ∧ dest'.cap = dest.cap ∧
      contents dest' = contents dest ++ (contents src).take (n * sz) := by
  have hcount := elementsToMove_spec wfd wfs hsz hcnt
  rw [← hn] at hcount
  rw [cbufferCbufferMove, hcount, ok_bind]
  by_cases hzero : n = 0
  · rw [if_pos hzero, hzero, Nat.zero_mul, List.take_zero, List.append_nil]
    refine ⟨dest, ?_, wfd, rfl, rfl⟩
    simp only [advanceTail, Nat.add_zero, Nat.mod_eq_of_lt wfs.tail_lt, Nat.lt_irrefl, if_false]
    rfl
  have hcap := wfs.cap_lt
  have hle := wfs.len_le
  obtain ⟨hlen, hroom⟩ := elements_fit hn
  have hk : 0 < n * sz := Nat.mul_pos (Nat.pos_of_ne_zero hzero) hsz
  obtain ⟨dest₁, dest', hfirst, wf', hcap', hcont, hpos, hinside, hmore⟩ :=
    chunks_spec wfd wfs hk hlen hroom
  refine ⟨dest', ?_, wf', hcap', hcont⟩
  rw [if_neg hzero, u32_of_lt (show n * sz < 2 ^ 32 by omega)]
  dsimp only
  rw [hfirst, ok_bind, u32_of_lt (show src.tail + firstChunk src (n * sz) < 2 ^ 32 by omega)]
  generalize firstChunk src (n * sz) = first at *
  rcases hmore with ⟨hall, rfl⟩ | ⟨hlt, htail, hsecond⟩
  · rw [hall, sub32_of_le (le_refl (n * sz)) (by omega), Nat.sub_self, if_neg (Nat.lt_irrefl 0)]
    simp only [advanceTail, if_pos hk]
    rfl
  · have hrest : 0 < n * sz - first := by omega
    have htail' : (src.tail + first) % src.cap = 0 := htail
    have hend : (0 + (n * sz - first)) % src.cap = (src.tail + n * sz) % src.cap := by
      rw [← htail', Nat.mod_add_mod, Nat.add_assoc, Nat.add_sub_of_le (le_of_lt hlt)]
    have hsame : writeChunk { src with tail := 0, isfull := false } 0 (n * sz - first) dest₁ =
        .ok dest' := hsecond
    rw [sub32_of_le (le_of_lt hlt) (by omega), if_pos hrest, htail', hsame, ok_bind,
      u32_of_lt (show 0 + (n * sz - first) < 2 ^ 32 by omega), hend]
    simp only [advanceTail, if_pos hk]
    rfl

theorem cbufferCbufferCopy_spec (wfd : WellFormed dest) (wfs : WellFormed src) (hsz : 0 < sz)
    (hcnt : 0 < cnt)
    (hn : n = min cnt (min (cbufferLen src / sz) ((dest.cap - cbufferLen dest) / sz))) :
    ∃ dest', cbufferCbufferCopy dest sz cnt src = .ok (n, dest') ∧
      WellFormed dest' ∧ dest'.cap = dest.cap ∧
      contents dest' = contents dest ++ (contents src).take (n * sz) := by
  have hcount := elementsToMove_spec wfd wfs hsz hcnt
  rw [← hn] at hcount
  rw [cbufferCbufferCopy, hcount, ok_bind]
  by_cases hzero : n = 0
  · rw [if_pos hzero, hzero, Nat.zero_mul, List.take_zero, List.append_nil]
    exact ⟨dest, rfl, wfd, rfl, rfl⟩
  have hcap := wfs.cap_lt
  have hle := wfs.len_le
  obtain ⟨hlen, hroom⟩ := elements_fit hn
  have hk : 0 < n * sz := Nat.mul_pos (Nat.pos_of_ne_zero hzero) hsz
  obtain ⟨dest₁, dest', hfirst, wf', hcap', hcont, hpos, hinside, hmore⟩ :=
    chunks_spec wfd wfs hk hlen hroom
  refine ⟨dest', ?_, wf', hcap', hcont⟩
  rw [if_neg hzero, u32_of_lt (show n * sz < 2 ^ 32 by omega)]
  dsimp only
  rw [hfirst, ok_bind, u32_of_lt (show src.tail + firstChunk src (n * sz) < 2 ^ 32 by omega)]
  generalize firstChunk src (n * sz) = first at *
  rcases hmore with ⟨hall, rfl⟩ | ⟨hlt, htail, hsecond⟩
  · rw [hall, sub32_of_le (le_refl (n * sz)) (by omega), Nat.sub_self, if_neg (Nat.lt_irrefl 0)]
    rfl
  · have hrest : 0 < n * sz - first := by omega
    have htail' : (src.tail + first) % src.cap = 0 := htail
    rw [sub32_of_le (le_of_lt hlt) (by omega), if_pos hrest, htail', hsecond, ok_bind]
    rfl

/-- The list a move appends to one queue is the list it takes from the other. -/
theorem transfers_conserve (wfd : WellFormed dest) (wfs : WellFormed src) (hsz : 0 < sz)
    (hcnt : 0 < cnt)
    (hn : n = min cnt (min (cbufferLen src / sz) ((dest.cap - cbufferLen dest) / sz))) :
    (∃ dest' src', cbufferCbufferMove dest sz cnt src = .ok (n, dest', src') ∧
      WellFormed dest' ∧ WellFormed src' ∧ dest'.cap = dest.cap ∧ src'.cap = src.cap ∧
      contents dest' = contents dest ++ (contents src).take (n * sz) ∧
      contents src' = (contents src).drop (n * sz)) ∧
    ∃ dest', cbufferCbufferCopy dest sz cnt src = .ok (n, dest') ∧
      WellFormed dest' ∧ dest'.cap = dest.cap ∧
      contents dest' = contents dest ++ (contents src).take (n * sz) := by
  constructor
  · obtain ⟨dest', hmove, wf', hcap', hcont⟩ := cbufferCbufferMove_spec wfd wfs hsz hcnt hn
    exact ⟨dest', advanceTail src (n * sz), hmove, wf', advanceTail_wf wfs, hcap', rfl, hcont,
      contents_advanceTail wfs (elements_fit hn).1⟩
  · exact cbufferCbufferCopy_spec wfd wfs hsz hcnt hn

end Transfers

/-- Three bytes lie across the end of the source, and there is room for two
elements of one byte across the end of the destination. -/
theorem transfers_conserve_straddling :
    (∃ dest' src', cbufferCbufferMove ⟨fun _ => 1, 4, 3, 1, false⟩ 1 5
        ⟨fun _ => 7, 5, 1, 3, false⟩ = .ok (2, dest', src') ∧
      WellFormed dest' ∧ WellFormed src' ∧ dest'.cap = 4 ∧ src'.cap = 5 ∧
      contents dest' = [1, 1, 7, 7] ∧ contents src' = [7]) ∧
    ∃ dest', cbufferCbufferCopy ⟨fun _ => 1, 4, 3, 1, false⟩ 1 5
        ⟨fun _ => 7, 5, 1, 3, false⟩ = .ok (2, dest') ∧
      WellFormed dest' ∧ dest'.cap = 4 ∧ contents dest' = [1, 1, 7, 7] :=
  transfers_conserve ⟨by decide, by decide, by decide, by decide, nofun⟩
    ⟨by decide, by decide, by decide, by decide, nofun⟩ (by decide) (by decide) (by decide)

end CircularBuffer
