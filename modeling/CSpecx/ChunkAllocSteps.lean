import CSpecx.BumpBlocks
import CSpecx.ChunkAlloc

/-!
# The steps of the chunk allocator

Each call either leaves the allocator as it is, or serves the request from the
head chunk, or links a new chunk first.
-/

namespace ChunkAllocator

open CExec Errors LinearAllocator BumpBlocks

/-- A chunk as the code makes it. -/
structure Chunk.Sound (c : Chunk) : Prop where
  valid : c.Valid
  limit_lt : c.alloc.limit < 2 ^ 32

def ChunkAlloc.Sound (ca : ChunkAlloc) : Prop := ∀ c ∈ ca.chunks, c.Sound

/-- The head chunk as a block. -/
def ChunkAlloc.head (ca : ChunkAlloc) : Block :=
  match ca.chunks with
  | [] => Block.none
  | c :: _ => ⟨c.alloc.limit, c.alloc.used⟩

def Chunk.serve (n : Nat) (c : Chunk) : Chunk :=
  { c with alloc := { c.alloc with used := c.alloc.used + n } }

/-- A request of `n` bytes is served from the head chunk. -/
def ChunkAlloc.serve (ca : ChunkAlloc) (n : Nat) : ChunkAlloc :=
  { ca with chunks := ca.chunks.modifyHead (Chunk.serve n), totalUsed := u32 (ca.totalUsed + n) }

/-- A new chunk is linked. -/
def ChunkAlloc.push (ca : ChunkAlloc) (addr size : Nat) : ChunkAlloc :=
  { ca with
    chunks := ⟨addr, { used := 0, limit := size, data := addr + headerSize }⟩ :: ca.chunks
    numChunks := u32 (ca.numChunks + 1)
    totalAllocated := u32 (ca.totalAllocated + size) }

def Chunk.cleared (c : Chunk) : Chunk := { c with alloc := { c.alloc with used := 0 } }

/-- The allocator after a reset. -/
def ChunkAlloc.cleared (ca : ChunkAlloc) : ChunkAlloc :=
  { ca with chunks := ca.chunks.map Chunk.cleared, totalUsed := 0 }

/-- `req` units of `size` bytes. -/
structure Request where
  req : Nat
  size : Nat
  deriving DecidableEq, Repr

def Request.bytes (r : Request) : Nat := r.req * r.size

/-- What `lmalloc` asserts. -/
def Request.Positive (build : Build) (r : Request) : Prop := build = .debug → 0 < r.req ∧ 0 < r.size

/-- The size of the chunk that is made for a request. -/
def ChunkAlloc.newSize (ca : ChunkAlloc) (r : Request) : Nat := newChunkSize ca.settings r.bytes

/-- Why `chunk_alloc_add_new_chunk` does not add a chunk. -/
def ChunkAlloc.Limited (ca : ChunkAlloc) (size : Nat) : Prop :=
  (0 < ca.settings.maxChunks ∧ ca.settings.maxChunks ≤ ca.numChunks) ∨
    (0 < ca.settings.maxTotalSize ∧ ca.settings.maxTotalSize < u32 (ca.totalAllocated + size))

/-- The checks on the bytes of a request alone. -/
def ChunkAlloc.Admits (ca : ChunkAlloc) (r : Request) : Prop :=
  r.bytes < 2 ^ 32 ∧ (ca.settings.maxAllocSize = 0 ∨ r.bytes ≤ ca.settings.maxAllocSize)

/-- A chunk at `addr` is added for the request. -/
structure ChunkAlloc.Grows (ca : ChunkAlloc) (r : Request) (addr : Nat) : Prop where
  admits : ca.Admits r
  full : ¬ ca.head.Fits r.bytes
  free : ¬ ca.Limited (ca.newSize r)
  header : headerSize ≤ u32 (headerSize + ca.newSize r)
  small : ca.newSize r < 2 ^ 32

/-- What a call of `chunk_malloc` that returns does; `wasted` links a chunk and returns `NULL`. -/
inductive Malloc (build : Build) (ca : ChunkAlloc) (r : Request) :
    Option Nat → Option Nat → ChunkAlloc → Prop where
  | refused {block : Option Nat} :
      ¬ ca.Admits r ∨ ca.Limited (ca.newSize r) ∨ block = none → Malloc build ca r block none ca
  | served {block : Option Nat} {c : Chunk} :
      ca.Admits r → ca.head.Fits r.bytes → c ∈ ca.chunks.head? → r.Positive build →
        Malloc build ca r block (some (c.alloc.data + c.alloc.used)) (ca.serve r.bytes)
  | grown {addr : Nat} :
      ca.Grows r addr → r.bytes < ca.newSize r → r.Positive build →
        Malloc build ca r (some addr) (some (addr + headerSize))
          ((ca.push addr (ca.newSize r)).serve r.bytes)
  | wasted {addr : Nat} :
      ca.Grows r addr → ca.newSize r ≤ r.bytes →
        Malloc build ca r (some addr) none (ca.push addr (ca.newSize r))

section Steps

variable {build : Build} {ca ca' : ChunkAlloc} {s : Settings} {r : Request} {req size n : Nat}
  {block res : Option Nat} {e e' : ErrorObject} {eo eo' : Option ErrorObject} {code : Int}

theorem newChunkSize_lt (hn : n < 2 ^ 32) (hproduct : s.targetChunkMult.product n < 2 ^ 32) :
    newChunkSize s n < 2 ^ 32 := by
  have hmin := s.min_lt
  unfold newChunkSize
  dsimp only
  split <;> split <;> split <;> omega

theorem min_le_newChunkSize (accepted : s.Accepted) : s.minChunkSize ≤ newChunkSize s n := by
  obtain ⟨-, hmin, hmax⟩ := accepted
  unfold newChunkSize
  dsimp only
  split <;> split <;> split <;> omega

/-- Only a request larger than the largest chunk gets a larger one. -/
theorem newChunkSize_le_max_iff (accepted : s.Accepted) :
    s.maxChunkSize = 0 ∨ newChunkSize s n ≤ s.maxChunkSize ↔
      s.maxChunkSize = 0 ∨ n ≤ s.maxChunkSize := by
  obtain ⟨-, hmin, hmax⟩ := accepted
  unfold newChunkSize
  dsimp only
  split <;> split <;> split <;> omega

/-- A new chunk has more bytes than the request unless a clamp cuts it to the request. -/
theorem lt_newChunkSize_iff (accepted : s.Accepted) :
    n < newChunkSize s n ↔ (n < s.targetChunkMult.product n ∨ n < s.minChunkSize) ∧
      (s.maxChunkSize = 0 ∨ n < s.maxChunkSize) := by
  obtain ⟨-, hmin, hmax⟩ := accepted
  unfold newChunkSize
  dsimp only
  split <;> split <;> split <;> omega

theorem mallocHead_cases (sound : ca.Sound)
    (hrun : mallocHead build ca r.req r.size eo = .ok (res, ca', eo')) :
    (ca.head.Fits r.bytes ∧ ca' = ca.serve r.bytes ∧ r.Positive build ∧
      ∃ c ∈ ca.chunks.head?, res = some (c.alloc.data + c.alloc.used)) ∨
    (¬ ca.head.Fits r.bytes ∧ ca' = ca ∧ res = none) := by
  obtain ⟨settings, chunks, numChunks, totalAllocated, totalUsed⟩ := ca
  cases chunks with
  | nil => cases hrun
  | cons c cs =>
    obtain ⟨⟨-, hused, -⟩, hlimit⟩ := sound c List.mem_cons_self
    obtain ⟨⟨ptr, alloc, eo₁⟩, hmalloc, hrun⟩ := bind_eq_ok.mp hrun
    rcases lmalloc_cases hused hlimit hmalloc with ⟨hfits, rfl, rfl, hpos⟩ | ⟨hfull, rfl, rfl⟩
    · obtain ⟨rfl, hstate, -⟩ := ok_triple_inj hrun
      have hsmall : u32 (r.req * r.size) = r.req * r.size := u32_of_lt (by omega)
      rw [hsmall] at hstate
      exact Or.inl ⟨hfits, hstate.symm, hpos, c, rfl, rfl⟩
    · obtain ⟨rfl, hstate, -⟩ := ok_triple_inj hrun
      exact Or.inr ⟨not_lt.mpr hfull, hstate.symm, rfl⟩

theorem chunkCreate_cases {size : Nat} {newChunk : Option Chunk}
    (hrun : chunkCreate build size block e = .ok (newChunk, e')) :
    (block = none ∧ newChunk = none ∧ e'.causeCode ≠ success) ∨
    ∃ addr, block = some addr ∧ headerSize ≤ u32 (headerSize + size) ∧ e' = e ∧
      newChunk = some ⟨addr, { used := 0, limit := size, data := addr + headerSize }⟩ := by
  obtain ⟨⟨ret, e₁⟩, hmalloc, hrun⟩ := bind_eq_ok.mp hrun
  obtain ⟨_, -, hmalloc⟩ := bind_eq_ok.mp hmalloc
  cases block with
  | none =>
    obtain ⟨rfl, rfl⟩ := ok_pair_inj hmalloc
    obtain ⟨rfl, rfl⟩ := ok_pair_inj hrun
    exact Or.inl ⟨rfl, rfl, errorCausef_failed (by decide)⟩
  | some addr =>
    obtain ⟨rfl, rfl⟩ := ok_pair_inj hmalloc
    obtain ⟨_, hheader, hrun⟩ := bind_eq_ok.mp hrun
    obtain ⟨alloc, hcreate, hrun⟩ := bind_eq_ok.mp hrun
    obtain ⟨_, -, hcreate⟩ := bind_eq_ok.mp hcreate
    obtain ⟨_, -, hcreate⟩ := bind_eq_ok.mp hcreate
    obtain ⟨_, -, hrun⟩ := bind_eq_ok.mp hrun
    obtain ⟨rfl, rfl⟩ := ok_pair_inj hrun
    refine Or.inr ⟨addr, rfl, access_eq_ok_iff.mp hheader, rfl, ?_⟩
    rw [← Except.ok.inj hcreate]

theorem addNewChunk_cases
    (hrun : chunkAllocAddNewChunk build ca size block e = .ok (code, ca', e')) :
    (code ≠ success ∧ ca' = ca ∧ (ca.Limited size ∨ block = none)) ∨
    (code = success ∧ ¬ ca.Limited size ∧ headerSize ≤ u32 (headerSize + size) ∧
      ∃ addr, block = some addr ∧ ca' = ca.push addr size ∧ e' = e) := by
  obtain ⟨_, -, hrun⟩ := bind_eq_ok.mp hrun
  split at hrun
  · next hchunks =>
    obtain ⟨rfl, hstate, -⟩ := ok_triple_inj hrun
    exact Or.inl ⟨by decide, hstate.symm, Or.inl (Or.inl hchunks)⟩
  · next hchunks =>
    obtain ⟨_, -, hrun⟩ := bind_eq_ok.mp hrun
    obtain ⟨_, -, hrun⟩ := bind_eq_ok.mp hrun
    split at hrun
    · next htotal =>
      obtain ⟨rfl, hstate, -⟩ := ok_triple_inj hrun
      exact Or.inl ⟨by decide, hstate.symm, Or.inl (Or.inr htotal)⟩
    · next htotal =>
      obtain ⟨⟨newChunk, e₁⟩, hcreate, hrun⟩ := bind_eq_ok.mp hrun
      rcases chunkCreate_cases hcreate with ⟨hnone, rfl, hcode⟩ | ⟨addr, hblock, hheader, rfl, rfl⟩
      · obtain ⟨rfl, hstate, -⟩ := ok_triple_inj hrun
        exact Or.inl ⟨hcode, hstate.symm, Or.inr hnone⟩
      · obtain ⟨rfl, hstate, herror⟩ := ok_triple_inj hrun
        exact Or.inr ⟨rfl, fun h => h.elim hchunks htotal, hheader, addr, hblock,
          hstate.symm, herror.symm⟩

theorem ChunkAlloc.Sound.push (sound : ca.Sound) {addr size : Nat} (hpos : 0 < size)
    (hlt : size < 2 ^ 32) : (ca.push addr size).Sound := by
  intro c hc
  rcases List.mem_cons.mp hc with rfl | hc
  · exact ⟨⟨rfl, Nat.zero_le _, hpos⟩, hlt⟩
  · exact sound c hc

theorem ChunkAlloc.Sound.serve (sound : ca.Sound) (hfits : ca.head.Fits n) :
    (ca.serve n).Sound := by
  obtain ⟨settings, chunks, numChunks, totalAllocated, totalUsed⟩ := ca
  cases chunks with
  | nil => exact sound
  | cons c cs =>
    have hn : n < c.alloc.limit - c.alloc.used := hfits
    intro d hd
    rcases List.mem_cons.mp hd with rfl | hd
    · obtain ⟨⟨hdata, hused, hlimit⟩, hlt⟩ := sound c List.mem_cons_self
      have hused' : c.alloc.used + n ≤ c.alloc.limit := by omega
      exact ⟨⟨hdata, hused', hlimit⟩, hlt⟩
    · exact sound d (List.mem_cons_of_mem c hd)

theorem mul_overflows_iff : 0 < req ∧ (2 ^ 32 - 1) / req < size ↔ 2 ^ 32 ≤ req * size := by
  constructor
  · rintro ⟨hreq, hlt⟩
    rw [Nat.div_lt_iff_lt_mul hreq, Nat.mul_comm] at hlt
    omega
  · intro hle
    have hreq : 0 < req := by
      refine Nat.pos_of_ne_zero fun hzero => ?_
      rw [hzero, Nat.zero_mul] at hle
      omega
    rw [Nat.div_lt_iff_lt_mul hreq, Nat.mul_comm]
    exact ⟨hreq, by omega⟩

theorem mallocNew_cases (accepted : ca.settings.Accepted) (sound : ca.Sound)
    (admits : ca.Admits r) (full : ¬ ca.head.Fits r.bytes)
    (hrun : mallocNew build ca r.req r.size block e = .ok (res, ca', e')) :
    Malloc build ca r block res ca' := by
  obtain ⟨newSize, hcompute, hrun⟩ := bind_eq_ok.mp hrun
  obtain ⟨_, -, hcompute⟩ := bind_eq_ok.mp hcompute
  obtain ⟨_, hproduct, hcompute⟩ := bind_eq_ok.mp hcompute
  have hbytes : u32 (r.req * r.size) = r.bytes := u32_of_lt admits.1
  rw [hbytes] at hcompute hproduct
  have hlt := newChunkSize_lt admits.1 (access_eq_ok_iff.mp hproduct)
  have hsize : ca.newSize r = newSize := Except.ok.inj hcompute
  have hpos : 0 < ca.newSize r :=
    Nat.lt_of_lt_of_le accepted.2.1 (min_le_newChunkSize accepted)
  subst hsize
  obtain ⟨⟨code, ca₁, e₁⟩, hadd, hadded⟩ := bind_eq_ok.mp hrun
  rcases addNewChunk_cases hadd with ⟨hcode, rfl, hwhy⟩ | ⟨rfl, hfree, hheader, addr, rfl, rfl, rfl⟩
  · simp only [ne_eq, hcode, not_false_eq_true, if_true] at hadded
    obtain ⟨rfl, hstate, -⟩ := ok_triple_inj hadded
    rw [← hstate]
    exact .refused (Or.inr hwhy)
  · simp only [ne_eq, not_true_eq_false, if_false] at hadded
    obtain ⟨⟨ptr, ca₂, eo⟩, hmalloc, hserved⟩ := bind_eq_ok.mp hadded
    obtain ⟨rfl, hstate, -⟩ := ok_triple_inj hserved
    rw [← hstate]
    have grows : ca.Grows r addr := ⟨admits, full, hfree, hheader, hlt⟩
    rcases mallocHead_cases (sound.push hpos hlt) hmalloc with
      ⟨hfits, rfl, hpositive, c, hc, rfl⟩ | ⟨hfull, rfl, rfl⟩
    · have hn : r.bytes < ca.newSize r - 0 := hfits
      obtain rfl := Option.some.inj hc
      exact .grown grows hn hpositive
    · have hn : ¬ r.bytes < ca.newSize r - 0 := hfull
      exact .wasted grows (not_lt.mp hn)

theorem chunkMalloc_cases (accepted : ca.settings.Accepted) (sound : ca.Sound)
    (hrun : chunkMalloc build ca r.req r.size block e = .ok (res, ca', e')) :
    Malloc build ca r block res ca' := by
  obtain ⟨_, -, hrun⟩ := bind_eq_ok.mp hrun
  simp only [mul_overflows_iff] at hrun
  split at hrun
  · next hover =>
    obtain ⟨rfl, hstate, -⟩ := ok_triple_inj hrun
    rw [← hstate]
    exact .refused (Or.inl fun admits => absurd hover (not_le.mpr admits.1))
  · next hover =>
    rw [u32_of_lt (not_le.mp hover)] at hrun
    split at hrun
    · next hmax =>
      obtain ⟨rfl, hstate, -⟩ := ok_triple_inj hrun
      rw [← hstate]
      refine .refused (Or.inl fun admits => ?_)
      have hmax' : ca.settings.maxAllocSize < r.bytes := hmax.2
      have := admits.2
      omega
    · next hmax =>
      have admits : ca.Admits r := by
        have hmax' : ¬ (0 < ca.settings.maxAllocSize ∧ ca.settings.maxAllocSize < r.bytes) := hmax
        exact ⟨not_le.mp hover, by omega⟩
      split at hrun
      · next hempty =>
        refine mallocNew_cases accepted sound admits ?_ hrun
        have hhead : ca.head = Block.none := by
          rw [ChunkAlloc.head, hempty]
        rw [hhead]
        exact Nat.not_lt_zero _
      · obtain ⟨⟨ptr, ca₁, eo⟩, hmalloc, htried⟩ := bind_eq_ok.mp hrun
        rcases mallocHead_cases sound hmalloc with
          ⟨hfits, rfl, hpositive, c, hc, rfl⟩ | ⟨hfull, rfl, rfl⟩
        · obtain ⟨rfl, hstate, -⟩ := ok_triple_inj htried
          rw [← hstate]
          exact .served admits hfits hc hpositive
        · exact mallocNew_cases accepted sound admits hfull htried

theorem Malloc.sound {ptr : Option Nat} (accepted : ca.settings.Accepted) (sound : ca.Sound)
    (step : Malloc build ca r block ptr ca') : ca'.Sound := by
  have hpos : 0 < ca.newSize r := Nat.lt_of_lt_of_le accepted.2.1 (min_le_newChunkSize accepted)
  cases step with
  | refused => exact sound
  | served _ hfits => exact sound.serve hfits
  | grown grows hn =>
    refine (sound.push hpos grows.small).serve ?_
    have hfits : r.bytes < ca.newSize r - 0 := hn
    exact hfits
  | wasted grows => exact sound.push hpos grows.small

theorem Malloc.settings {ptr : Option Nat} (step : Malloc build ca r block ptr ca') :
    ca'.settings = ca.settings := by
  cases step <;> rfl

/-- A request that the head chunk has room for is served from it, whatever `malloc` would do. -/
theorem chunkMalloc_served (valid : build = .debug → ca.Valid) (sound : ca.Sound)
    (admits : ca.Admits r) (hfits : ca.head.Fits r.bytes) (positive : r.Positive build) :
    ∃ ptr, chunkMalloc build ca r.req r.size block e = .ok (some ptr, ca.serve r.bytes, e) := by
  obtain ⟨settings, chunks, numChunks, totalAllocated, totalUsed⟩ := ca
  cases chunks with
  | nil => exact absurd hfits (Nat.not_lt_zero _)
  | cons c cs =>
    obtain ⟨⟨hdata, hused, -⟩, hlimit⟩ := sound c List.mem_cons_self
    have hvalid : c.alloc.Valid := ⟨by rw [hdata, headerSize]; omega, hused⟩
    have hmalloc := lmalloc_fits (e := none) hvalid hlimit positive hfits
    have hbytes : u32 (r.req * r.size) = r.req * r.size := u32_of_lt admits.1
    have hover : ¬ 2 ^ 32 ≤ r.req * r.size := not_le.mpr admits.1
    have hmax : ¬ (0 < settings.maxAllocSize ∧ settings.maxAllocSize < r.req * r.size) := by
      have hmax : settings.maxAllocSize = 0 ∨ r.req * r.size ≤ settings.maxAllocSize := admits.2
      omega
    refine ⟨c.alloc.data + c.alloc.used, ?_⟩
    rw [chunkMalloc, check_pos valid, ok_bind]
    simp only [mul_overflows_iff, hbytes, if_neg hover, if_neg hmax, reduceCtorEq, if_false,
      mallocHead, hmalloc, ok_bind]
    rfl

theorem resetChunks_eq {cs cs' : List Chunk} (hrun : resetChunks build cs = .ok cs') :
    cs' = cs.map Chunk.cleared := by
  induction cs generalizing cs' with
  | nil => exact (Except.ok.inj hrun).symm
  | cons c cs ih =>
    obtain ⟨_, -, hrun⟩ := bind_eq_ok.mp hrun
    obtain ⟨alloc, hreset, hrun⟩ := bind_eq_ok.mp hrun
    obtain ⟨_, -, hreset⟩ := bind_eq_ok.mp hreset
    obtain ⟨cs₁, hrest, hrun⟩ := bind_eq_ok.mp hrun
    rw [← Except.ok.inj hrun, ← Except.ok.inj hreset, ih hrest]
    rfl

theorem resetAll_cases (hrun : chunkAllocResetAll build ca = .ok ca') :
    (build = .debug → ca.Valid) ∧ ca' = ca.cleared := by
  obtain ⟨_, hvalid, hrun⟩ := bind_eq_ok.mp hrun
  obtain ⟨cs, hreset, hrun⟩ := bind_eq_ok.mp hrun
  refine ⟨check_eq_ok_iff.mp hvalid, ?_⟩
  rw [← Except.ok.inj hrun, resetChunks_eq hreset]
  rfl

theorem freeAll_cases (hrun : chunkAllocFreeAll build ca = .ok ca') :
    (build = .debug → ca.Valid) ∧
      ca' = { ca with chunks := [], numChunks := 0, totalAllocated := 0, totalUsed := 0 } := by
  obtain ⟨_, hvalid, hrun⟩ := bind_eq_ok.mp hrun
  obtain ⟨_, -, hrun⟩ := bind_eq_ok.mp hrun
  exact ⟨check_eq_ok_iff.mp hvalid, (Except.ok.inj hrun).symm⟩

theorem create_cases {settings : Settings} (hrun : chunkAllocCreate build settings = .ok ca) :
    (build = .debug → settings.Accepted) ∧ ca = ⟨settings, [], 0, 0, 0⟩ := by
  obtain ⟨_, haccepted, hrun⟩ := bind_eq_ok.mp hrun
  obtain ⟨_, -, hrun⟩ := bind_eq_ok.mp hrun
  exact ⟨check_eq_ok_iff.mp haccepted, (Except.ok.inj hrun).symm⟩

theorem resetChunks_ok {cs : List Chunk} (h : ∀ c ∈ cs, c.Sound) :
    resetChunks build cs = .ok (cs.map Chunk.cleared) := by
  induction cs with
  | nil => rfl
  | cons c cs ih =>
    obtain ⟨hdata, hused, hlimit⟩ := (h c List.mem_cons_self).valid
    have hvalid : c.alloc.Valid := ⟨by rw [hdata, headerSize]; omega, hused⟩
    rw [resetChunks, check_pos fun _ => ⟨hdata, hused, hlimit⟩, ok_bind, lallocReset,
      check_pos fun _ => hvalid, ok_bind, ok_bind, ih fun d hd => h d (List.mem_cons_of_mem c hd)]
    rfl

theorem resetAll_ok (valid : build = .debug → ca.Valid) (sound : ca.Sound) :
    chunkAllocResetAll build ca = .ok ca.cleared := by
  rw [chunkAllocResetAll, check_pos valid, ok_bind, resetChunks_ok sound]
  rfl

theorem ChunkAlloc.Sound.cleared (sound : ca.Sound) : ca.cleared.Sound := by
  intro d hd
  obtain ⟨c, hc, rfl⟩ := List.mem_map.mp hd
  obtain ⟨⟨hdata, hused, hlimit⟩, hlt⟩ := sound c hc
  exact ⟨⟨hdata, Nat.zero_le _, hlimit⟩, hlt⟩

theorem head_cleared : ca.cleared.head = ⟨ca.head.limit, 0⟩ := by
  obtain ⟨settings, chunks, numChunks, totalAllocated, totalUsed⟩ := ca
  cases chunks with
  | nil => rfl
  | cons c cs => rfl

theorem chunks_ne_nil (hfits : ca.head.Fits n) : ca.chunks ≠ [] := by
  intro hempty
  rw [ChunkAlloc.head, hempty] at hfits
  exact Nat.not_lt_zero _ hfits

theorem head_serve (hchunks : ca.chunks ≠ []) :
    (ca.serve n).head = ⟨ca.head.limit, ca.head.used + n⟩ := by
  obtain ⟨settings, chunks, numChunks, totalAllocated, totalUsed⟩ := ca
  cases chunks with
  | nil => exact absurd rfl hchunks
  | cons c cs => rfl

theorem useds_serve (hchunks : ca.chunks ≠ []) : (ca.serve n).useds = ca.useds + n := by
  obtain ⟨settings, chunks, numChunks, totalAllocated, totalUsed⟩ := ca
  cases chunks with
  | nil => exact absurd rfl hchunks
  | cons c cs =>
    show ((c.used + n) :: cs.map Chunk.used).sum = (c.used :: cs.map Chunk.used).sum + n
    rw [List.sum_cons, List.sum_cons]
    omega

theorem limits_serve : (ca.serve n).limits = ca.limits := by
  obtain ⟨settings, chunks, numChunks, totalAllocated, totalUsed⟩ := ca
  cases chunks with
  | nil => rfl
  | cons c cs => rfl

theorem length_serve : (ca.serve n).chunks.length = ca.chunks.length := List.length_modifyHead

theorem useds_push {addr : Nat} : (ca.push addr size).useds = ca.useds := Nat.zero_add _

theorem limits_push {addr : Nat} : (ca.push addr size).limits = size + ca.limits := rfl

theorem useds_cleared : ca.cleared.useds = 0 := by
  refine List.sum_eq_zero fun n hn => ?_
  rw [ChunkAlloc.cleared, List.map_map] at hn
  obtain ⟨c, -, rfl⟩ := List.mem_map.mp hn
  rfl

theorem limits_cleared : ca.cleared.limits = ca.limits := by
  rw [ChunkAlloc.limits, ChunkAlloc.cleared, List.map_map]
  rfl

/-- A request that is served puts its bytes into the newest block. -/
theorem Malloc.put {ptr : Nat} (step : Malloc build ca r block (some ptr) ca') :
    ca'.head = BumpBlocks.put (newChunkSize ca.settings) ca.head r.bytes ∧
      ca'.chunks.length = ca.chunks.length + (if ca.head.Fits r.bytes then 0 else 1) ∧
      ca'.useds = ca.useds + r.bytes ∧ ca.Admits r ∧ r.Positive build := by
  cases step with
  | served admits hfits _ positive =>
    have hchunks := chunks_ne_nil hfits
    rw [BumpBlocks.put, if_pos hfits, if_pos hfits, head_serve hchunks,
      useds_serve hchunks, length_serve]
    exact ⟨rfl, rfl, rfl, admits, positive⟩
  | @grown addr grows hn positive =>
    have hchunks : (ca.push addr (ca.newSize r)).chunks ≠ [] := List.cons_ne_nil _ _
    rw [BumpBlocks.put, if_neg grows.full, if_neg grows.full, head_serve hchunks,
      useds_serve hchunks, length_serve, useds_push]
    refine ⟨?_, rfl, rfl, grows.admits, positive⟩
    show (⟨ca.newSize r, 0 + r.bytes⟩ : Block) = _
    rw [Nat.zero_add]
    rfl

/-- The counters, as far as 32 bits hold them. -/
structure ChunkAlloc.Tallied (ca : ChunkAlloc) : Prop where
  used : ca.totalUsed = u32 ca.useds
  allocated : ca.totalAllocated = u32 ca.limits
  allocated_le : ca.settings.maxTotalSize ≠ 0 → ca.totalAllocated ≤ ca.settings.maxTotalSize
  count : ca.numChunks = u32 ca.chunks.length
  count_le : ca.settings.maxChunks ≠ 0 → ca.numChunks ≤ ca.settings.maxChunks

theorem ChunkAlloc.Tallied.serve (tallied : ca.Tallied) (hfits : ca.head.Fits n) :
    (ca.serve n).Tallied := by
  constructor
  · show u32 (ca.totalUsed + n) = u32 (ca.serve n).useds
    rw [useds_serve (chunks_ne_nil hfits), tallied.used, u32_add]
  · rw [limits_serve]
    exact tallied.allocated
  · exact tallied.allocated_le
  · rw [length_serve]
    exact tallied.count
  · exact tallied.count_le

theorem ChunkAlloc.Tallied.push {addr : Nat} (tallied : ca.Tallied) (free : ¬ ca.Limited size) :
    (ca.push addr size).Tallied := by
  obtain ⟨hchunks, htotal⟩ := not_or.mp free
  constructor
  · rw [useds_push]
    exact tallied.used
  · show u32 (ca.totalAllocated + size) = u32 (ca.push addr size).limits
    rw [tallied.allocated, u32_add, limits_push, Nat.add_comm]
  · intro hmax
    have hmax : ca.settings.maxTotalSize ≠ 0 := hmax
    show u32 (ca.totalAllocated + size) ≤ ca.settings.maxTotalSize
    omega
  · show u32 (ca.numChunks + 1) = u32 (ca.chunks.length + 1)
    rw [tallied.count, u32_add]
  · intro hmax
    have hmax : ca.settings.maxChunks ≠ 0 := hmax
    show u32 (ca.numChunks + 1) ≤ ca.settings.maxChunks
    have hle : u32 (ca.numChunks + 1) ≤ ca.numChunks + 1 := Nat.mod_le _ _
    omega

theorem ChunkAlloc.Tallied.cleared (tallied : ca.Tallied) : ca.cleared.Tallied := by
  constructor
  · rw [useds_cleared]
    rfl
  · rw [limits_cleared]
    exact tallied.allocated
  · exact tallied.allocated_le
  · rw [ChunkAlloc.cleared, List.length_map]
    exact tallied.count
  · exact tallied.count_le

theorem ChunkAlloc.Tallied.empty : ChunkAlloc.Tallied ⟨s, [], 0, 0, 0⟩ :=
  ⟨rfl, rfl, fun _ => Nat.zero_le _, rfl, fun _ => Nat.zero_le _⟩

end Steps

end ChunkAllocator
