import CSpecx.ChunkAllocRuns

/-!
# When a request is answered

In the debug build a request fails without a reason, or an assertion fails, or a
chunk is linked for nothing, exactly when a new chunk is needed and the clamps
leave no byte beside the request, when the size of the chunk does not fit the
types, or when the allocator is full already.
-/

namespace ChunkAllocator

open CExec Errors LinearAllocator BumpBlocks

/-- The reasons a request may fail for. -/
def ChunkAlloc.Excused (ca : ChunkAlloc) (r : Request) (block : Option Nat) : Prop :=
  ¬ ca.Admits r ∨ (0 < ca.settings.maxChunks ∧ ca.settings.maxChunks < ca.numChunks + 1) ∨
    (0 < ca.settings.maxTotalSize ∧
      ca.settings.maxTotalSize < ca.totalAllocated + ca.newSize r) ∨ block = none

/-- The call returns, and `NULL` only for a reason and with nothing changed. -/
def ChunkAlloc.Answers (ca : ChunkAlloc) (r : Request) : Prop :=
  ∀ (block : Option Nat) (e : ErrorObject), ∃ ptr ca' e',
    chunkMalloc .debug ca r.req r.size block e = .ok (ptr, ca', e') ∧
      (ptr = none → ca.Excused r block ∧ ca' = ca)

/-- What the entry assertion adds to the counters being right. -/
def ChunkAlloc.Intact (ca : ChunkAlloc) : Prop :=
  (ca.settings.maxChunks = 0 ∨ ca.numChunks < ca.settings.maxChunks) ∧
    ca.chunks.length ≤ 100000 ∧ ca.totalUsed ≤ ca.totalAllocated

/-- No clamp cuts the new chunk down to the request. -/
def Settings.Widens (s : Settings) (n : Nat) : Prop :=
  (n < s.targetChunkMult.product n ∨ n < s.minChunkSize) ∧
    (s.maxChunkSize = 0 ∨ n < s.maxChunkSize)

/-- A new chunk can be sized for the request, and is refused or larger than it. -/
def ChunkAlloc.OpensFor (ca : ChunkAlloc) (r : Request) : Prop :=
  ca.settings.targetChunkMult.product r.bytes < 2 ^ 32 ∧
    (ca.settings.maxChunkSize = 0 ∨ r.bytes ≤ ca.settings.maxChunkSize) ∧
    ((0 < ca.settings.maxTotalSize ∧
        ca.settings.maxTotalSize < u32 (ca.totalAllocated + ca.newSize r)) ∨
      (headerSize + ca.newSize r < 2 ^ 32 ∧ ca.settings.Widens r.bytes))

section Calls

variable {build : Build} {settings : Settings} {s : Session} {ca ca' : ChunkAlloc} {r : Request}
  {block ptr : Option Nat} {e e' : ErrorObject} {addr size : Nat}

theorem Session.Kept.valid_iff (accepted : settings.Accepted) (kept : s.Kept settings) :
    s.ca.Valid ↔ s.ca.Intact := by
  obtain ⟨rfl, sound, tallied, -, -⟩ := kept
  constructor
  · rintro ⟨-, -, hused, -, hchunks, -, -, hlength, -, -, -⟩
    exact ⟨hchunks, hlength, hused⟩
  · rintro ⟨hchunks, hlength, hused⟩
    have hcount : s.ca.numChunks = s.ca.chunks.length := tallied.count.trans (u32_of_lt (by omega))
    refine ⟨accepted, ?_, hused, ?_, hchunks, fun c hc => (sound c hc).valid, by omega, hlength,
      hcount.symm, tallied.allocated.symm, tallied.used.symm⟩
    · by_cases hempty : s.ca.chunks = []
      · rw [hcount, hempty]
        exact Or.inr rfl
      · exact Or.inl hempty
    · have hle := tallied.allocated_le
      omega

theorem chunkMalloc_refused (valid : build = .debug → ca.Valid) (hadmits : ¬ ca.Admits r) :
    ∃ e', chunkMalloc build ca r.req r.size block e = .ok (none, ca, e') := by
  rw [chunkMalloc, check_pos valid, ok_bind]
  simp only [mul_overflows_iff]
  by_cases hover : 2 ^ 32 ≤ r.req * r.size
  · rw [if_pos hover]
    exact ⟨_, rfl⟩
  · have hbytes : u32 (r.req * r.size) = r.bytes := u32_of_lt (not_le.mp hover)
    have hmax : 0 < ca.settings.maxAllocSize ∧ ca.settings.maxAllocSize < u32 (r.req * r.size) := by
      have hsmall : r.bytes < 2 ^ 32 := not_le.mp hover
      have hlarge : ¬ (ca.settings.maxAllocSize = 0 ∨ r.bytes ≤ ca.settings.maxAllocSize) :=
        fun h => hadmits ⟨hsmall, h⟩
      omega
    rw [if_neg hover, if_pos hmax]
    exact ⟨_, rfl⟩

/-- A request that the head chunk has no room for goes on to a new chunk. -/
theorem chunkMalloc_new (valid : build = .debug → ca.Valid) (sound : ca.Sound)
    (admits : ca.Admits r) (full : ¬ ca.head.Fits r.bytes) (positive : r.Positive build) :
    chunkMalloc build ca r.req r.size block e = mallocNew build ca r.req r.size block e := by
  have hbytes : u32 (r.req * r.size) = r.req * r.size := u32_of_lt admits.1
  have hover : ¬ 2 ^ 32 ≤ r.req * r.size := not_le.mpr admits.1
  have hmax : ¬ (0 < ca.settings.maxAllocSize ∧ ca.settings.maxAllocSize < r.req * r.size) := by
    have hmax : ca.settings.maxAllocSize = 0 ∨ r.req * r.size ≤ ca.settings.maxAllocSize := admits.2
    omega
  rw [chunkMalloc, check_pos valid, ok_bind]
  simp only [mul_overflows_iff, hbytes, if_neg hover, if_neg hmax]
  obtain ⟨settings, chunks, numChunks, totalAllocated, totalUsed⟩ := ca
  cases chunks with
  | nil => rw [if_pos rfl]
  | cons c cs =>
    obtain ⟨⟨hdata, hused, -⟩, hlimit⟩ := sound c List.mem_cons_self
    have hvalid : c.alloc.Valid := ⟨by rw [hdata, headerSize]; omega, hused⟩
    obtain ⟨eo, hmalloc⟩ := lmalloc_full (e := none) hvalid hlimit positive (not_lt.mp full)
    rw [if_neg (List.cons_ne_nil c cs)]
    simp only [mallocHead, hmalloc, ok_bind]

/-- A new chunk that is large enough serves the request. -/
theorem mallocHead_push {eo : Option ErrorObject} (hlt : size < 2 ^ 32) (hn : r.bytes < size)
    (positive : r.Positive build) : ∃ ca',
    mallocHead build (ca.push addr size) r.req r.size eo =
      .ok (some (addr + headerSize), ca', eo) := by
  have hfits : r.req * r.size < size - 0 := hn
  have hvalid : Lalloc.Valid ⟨0, size, addr + headerSize⟩ := by
    refine ⟨?_, Nat.zero_le _⟩
    show 0 < addr + 32
    omega
  have hmalloc := lmalloc_fits (e := eo) hvalid hlt positive hfits
  simp only [mallocHead, ChunkAlloc.push, hmalloc, ok_bind]
  exact ⟨_, rfl⟩

/-- What a call that makes or refuses a chunk needs. -/
theorem mallocNew_sized (accepted : ca.settings.Accepted) (admits : ca.Admits r)
    (hrun : mallocNew .debug ca r.req r.size block e = .ok (ptr, ca', e'))
    (hchunks : ca.settings.maxChunks = 0 ∨ ca.numChunks < ca.settings.maxChunks) :
    ca.settings.targetChunkMult.product r.bytes < 2 ^ 32 ∧
      (ca.settings.maxChunkSize = 0 ∨ r.bytes ≤ ca.settings.maxChunkSize) := by
  have hbytes : u32 (r.req * r.size) = r.bytes := u32_of_lt admits.1
  obtain ⟨newSize, hcompute, hrun⟩ := bind_eq_ok.mp hrun
  obtain ⟨_, -, hcompute⟩ := bind_eq_ok.mp hcompute
  obtain ⟨_, hproduct, hcompute⟩ := bind_eq_ok.mp hcompute
  rw [hbytes] at hproduct hcompute
  obtain rfl := Except.ok.inj hcompute
  obtain ⟨added, hadd, -⟩ := bind_eq_ok.mp hrun
  obtain ⟨_, -, hadd⟩ := bind_eq_ok.mp hadd
  rw [if_neg (by omega)] at hadd
  obtain ⟨_, -, hadd⟩ := bind_eq_ok.mp hadd
  obtain ⟨_, hmax, -⟩ := bind_eq_ok.mp hadd
  exact ⟨access_eq_ok_iff.mp hproduct,
    (newChunkSize_le_max_iff accepted).mp (check_eq_ok_iff.mp hmax rfl)⟩

theorem chunkCreate_none (hheader : headerSize + size < 2 ^ 32) :
    ∃ e', chunkCreate build size none e = .ok (none, e') ∧ e'.causeCode ≠ success := by
  have hsmall : u32 (headerSize + size) = headerSize + size := u32_of_lt hheader
  have hpos : 0 < headerSize + size := Nat.add_pos_left (by decide) _
  rw [chunkCreate, hsmall, iMallocBlock, check_pos fun _ => hpos, ok_bind]
  exact ⟨_, rfl, errorCausef_failed (by decide)⟩

theorem chunkCreate_some (hheader : headerSize + size < 2 ^ 32) (hsize : 0 < size) :
    chunkCreate build size (some addr) e =
      .ok (some ⟨addr, { used := 0, limit := size, data := addr + headerSize }⟩, e) := by
  have hsmall : u32 (headerSize + size) = headerSize + size := u32_of_lt hheader
  have hpos : 0 < headerSize + size := Nat.add_pos_left (by decide) _
  have hdata : 0 < addr + headerSize := Nat.add_pos_right _ (by decide)
  have hvalid : Lalloc.Valid ⟨0, size, addr + headerSize⟩ := ⟨hdata, Nat.zero_le _⟩
  have hchunk : Chunk.Valid ⟨addr, ⟨0, size, addr + headerSize⟩⟩ := ⟨rfl, Nat.zero_le _, hsize⟩
  rw [chunkCreate, hsmall, iMallocBlock, check_pos fun _ => hpos, ok_bind, ok_bind]
  dsimp only
  rw [access_pos (Nat.le_add_right _ _), ok_bind, lallocCreate, check_pos fun _ => hsize, ok_bind,
    check_pos fun _ => hvalid, ok_bind, ok_bind, check_pos fun _ => hchunk, ok_bind]

/-- A new chunk is refused, or made and served from. -/
theorem mallocNew_opens (accepted : ca.settings.Accepted) (valid : ca.Valid) (admits : ca.Admits r)
    (positive : r.Positive .debug) (opens : ca.OpensFor r) :
    ∃ ptr ca' e', mallocNew .debug ca r.req r.size block e = .ok (ptr, ca', e') ∧
      (ptr = none → ca.Excused r block ∧ ca' = ca) := by
  obtain ⟨hproduct, hmax, hroom⟩ := opens
  have hbytes : u32 (r.req * r.size) = r.bytes := u32_of_lt admits.1
  have hchunks : ¬ (0 < ca.settings.maxChunks ∧ ca.settings.maxChunks ≤ ca.numChunks) := by
    have := valid.2.2.2.2.1
    omega
  have hcompute : computeNewChunkSize .debug ca (u32 (r.req * r.size)) = .ok (ca.newSize r) := by
    rw [hbytes, computeNewChunkSize, check_pos fun _ => valid, ok_bind,
      access_pos hproduct, ok_bind]
    rfl
  have hmin : ca.settings.minChunkSize ≤ ca.newSize r := min_le_newChunkSize accepted
  have hle : ca.settings.maxChunkSize = 0 ∨ ca.newSize r ≤ ca.settings.maxChunkSize :=
    (newChunkSize_le_max_iff accepted).mpr hmax
  rw [mallocNew, hcompute, ok_bind, chunkAllocAddNewChunk, check_pos fun _ => valid, ok_bind,
    if_neg hchunks, check_pos fun _ => hmin, ok_bind, check_pos fun _ => hle, ok_bind]
  by_cases htotal : 0 < ca.settings.maxTotalSize ∧
      ca.settings.maxTotalSize < u32 (ca.totalAllocated + ca.newSize r)
  · rw [if_pos htotal]
    refine ⟨_, _, _, rfl, fun _ => ⟨Or.inr (Or.inr (Or.inl ⟨htotal.1, ?_⟩)), rfl⟩⟩
    exact Nat.lt_of_lt_of_le htotal.2 (Nat.mod_le _ _)
  · obtain ⟨hheader, hwidens⟩ := hroom.resolve_left htotal
    have hn : r.bytes < ca.newSize r := (lt_newChunkSize_iff accepted).mpr hwidens
    rw [if_neg htotal]
    cases block with
    | none =>
      obtain ⟨e', hcreate, hcode⟩ : ∃ e',
          chunkCreate .debug (ca.newSize r) none e = .ok (none, e') ∧ e'.causeCode ≠ success :=
        chunkCreate_none hheader
      rw [hcreate]
      refine ⟨none, ca, e', ?_, fun _ => ⟨Or.inr (Or.inr (Or.inr rfl)), rfl⟩⟩
      exact if_pos hcode
    | some addr =>
      have hsize : ca.newSize r < 2 ^ 32 := by omega
      obtain ⟨ca', hserved⟩ : ∃ ca', mallocHead .debug (ca.push addr (ca.newSize r)) r.req r.size
          (some e) = .ok (some (addr + headerSize), ca', some e) :=
        mallocHead_push hsize hn positive
      rw [chunkCreate_some hheader (by omega)]
      refine ⟨some (addr + headerSize), ca', e, ?_, fun h => by cases h⟩
      show (mallocHead .debug (ca.push addr (ca.newSize r)) r.req r.size (some e) >>= _) = _
      rw [hserved]
      rfl

/-- A call that needs a chunk and answers was able to open one. -/
theorem Answers.opensFor (accepted : ca.settings.Accepted) (valid : ca.Valid) (sound : ca.Sound)
    (admits : ca.Admits r) (full : ¬ ca.head.Fits r.bytes) (positive : r.Positive .debug)
    (answers : ca.Answers r) : ca.OpensFor r := by
  obtain ⟨ptr, ca', e', hrun, hreason⟩ := answers (some 0) errorCreate
  rw [chunkMalloc_new (fun _ => valid) sound admits full positive] at hrun
  have hchunks := valid.2.2.2.2.1
  obtain ⟨hproduct, hmax⟩ := mallocNew_sized accepted admits hrun hchunks
  refine ⟨hproduct, hmax, ?_⟩
  have hlt : ca.newSize r < 2 ^ 32 := newChunkSize_lt admits.1 hproduct
  cases mallocNew_cases accepted sound admits full hrun with
  | refused hwhy =>
    rcases hwhy with hadmits | (hcount | htotal) | hblock
    · exact absurd admits hadmits
    · exact absurd hcount (by omega)
    · exact Or.inl htotal
    · cases hblock
  | served _ hfits => exact absurd hfits full
  | grown grows hn =>
    have hheader : headerSize + ca.newSize r < 2 ^ 32 := by
      have hheader := grows.header
      rw [headerSize, u32] at hheader
      rw [headerSize]
      omega
    exact Or.inr ⟨hheader, (lt_newChunkSize_iff accepted).mp hn⟩
  | wasted grows hn =>
    obtain ⟨-, hsame⟩ := hreason rfl
    have hlength := congrArg (fun ca => ca.chunks.length) hsame
    exact absurd hlength (Nat.succ_ne_self _)

end Calls

/-- A request is answered exactly when the clamps leave room for it. -/
theorem every_request_answered_iff {settings : Settings} {s : Session} {r : Request}
    (accepted : settings.Accepted) (run : Run .debug settings s) (hreq : 0 < r.req)
    (hsize : 0 < r.size) :
    s.ca.Answers r ↔ s.ca.Intact ∧
      (¬ s.ca.Admits r ∨ s.ca.head.Fits r.bytes ∨ s.ca.OpensFor r) := by
  have kept := run.kept accepted
  have accepted' : s.ca.settings.Accepted := kept.settings ▸ accepted
  have positive : r.Positive .debug := fun _ => ⟨hreq, hsize⟩
  rw [← kept.valid_iff accepted]
  constructor
  · intro answers
    have valid : s.ca.Valid := by
      obtain ⟨ptr, ca', e', hrun, -⟩ := answers none errorCreate
      obtain ⟨_, hvalid, -⟩ := bind_eq_ok.mp hrun
      exact check_eq_ok_iff.mp hvalid rfl
    refine ⟨valid, ?_⟩
    by_cases hadmits : s.ca.Admits r
    · by_cases hfits : s.ca.head.Fits r.bytes
      · exact Or.inr (Or.inl hfits)
      · exact Or.inr (Or.inr
          (Answers.opensFor accepted' valid kept.sound hadmits hfits positive answers))
    · exact Or.inl hadmits
  · rintro ⟨valid, hwhy⟩ block e
    by_cases hadmits : s.ca.Admits r
    · by_cases hfits : s.ca.head.Fits r.bytes
      · obtain ⟨ptr, hrun⟩ : ∃ ptr, chunkMalloc .debug s.ca r.req r.size block e =
            .ok (some ptr, s.ca.serve r.bytes, e) :=
          chunkMalloc_served (fun _ => valid) kept.sound hadmits hfits positive
        exact ⟨some ptr, _, e, hrun, fun h => by cases h⟩
      · rw [chunkMalloc_new (fun _ => valid) kept.sound hadmits hfits positive]
        have opens := (hwhy.resolve_left (not_not.mpr hadmits)).resolve_left hfits
        exact mallocNew_opens accepted' valid hadmits positive opens
    · obtain ⟨e', hrun⟩ : ∃ e',
          chunkMalloc .debug s.ca r.req r.size block e = .ok (none, s.ca, e') :=
        chunkMalloc_refused (fun _ => valid) hadmits
      exact ⟨none, s.ca, e', hrun, fun _ => ⟨Or.inl hadmits, rfl⟩⟩

def byTen : ChunkAlloc := ⟨defaultSettings, [], 0, 0, 0⟩

theorem every_request_answered_fresh :
    byTen.Answers ⟨1, 64⟩ ↔ byTen.Intact ∧ (¬ byTen.Admits ⟨1, 64⟩ ∨
      byTen.head.Fits (Request.bytes ⟨1, 64⟩) ∨ byTen.OpensFor ⟨1, 64⟩) := by
  have created : Run .debug defaultSettings ⟨byTen, errorCreate, []⟩ := .create rfl
  exact every_request_answered_iff (r := ⟨1, 64⟩) (by decide) created (by decide) (by decide)

/-- Chunks of exactly the bytes of a request, and of at least 10. -/
def exactSettings : Settings := { defaultSettings with targetChunkMult := ⟨true, fun n => n⟩ }

/-- A chunk of 10 bytes is linked and then refuses 10 bytes. -/
theorem exact_chunk_refuses : ¬ ∀ (settings : Settings) (s : Session) (r : Request),
    settings.Accepted → Run .debug settings s → 0 < r.req → 0 < r.size → s.ca.Answers r := by
  intro h
  have created : Run .debug exactSettings ⟨⟨exactSettings, [], 0, 0, 0⟩, errorCreate, []⟩ :=
    .create rfl
  obtain ⟨ptr, ca', e', hrun, hreason⟩ :=
    h exactSettings _ ⟨1, 10⟩ (by decide) created (by decide) (by decide) (some 1000) errorCreate
  have hcalled : (chunkMalloc .debug ⟨exactSettings, [], 0, 0, 0⟩ 1 10 (some 1000) errorCreate).map
      (fun result => (result.1, result.2.1.numChunks)) = .ok (none, 1) := by decide
  rw [hrun] at hcalled
  obtain ⟨hptr, hcount⟩ := ok_pair_inj hcalled
  obtain ⟨-, hsame⟩ := hreason hptr
  rw [hsame] at hcount
  cases hcount

end ChunkAllocator
