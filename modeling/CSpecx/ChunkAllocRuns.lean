import CSpecx.ChunkAllocSteps
import CSpecx.Regions
import Mathlib.Algebra.Order.BigOperators.Group.List
import Mathlib.Algebra.Order.Group.Nat

/-!
# Runs of the chunk allocator

A session keeps, beside the allocator, the regions handed out since the last
reset or free. Blocks from `malloc` are apart from the blocks of the chunks in
the list. The regions in a chunk lie below its bump pointer.
-/

namespace ChunkAllocator

open CExec Errors LinearAllocator BumpBlocks Regions

structure Session where
  ca : ChunkAlloc
  e : ErrorObject
  regions : List Region

/-- With the block that `malloc` returns should the allocator ask for one. -/
inductive Op where
  | malloc (r : Request) (block : Option Nat)
  | calloc (r : Request) (block : Option Nat)
  | resetAll
  | freeAll

/-- The regions after a request was answered. -/
def handOut (regions : List Region) (r : Request) : Option Nat → List Region
  | none => regions
  | some ptr => ⟨ptr, r.bytes⟩ :: regions

def step (build : Build) (s : Session) : Op → Outcome Session
  | .malloc r block => do
    let (ptr, ca, e) ← chunkMalloc build s.ca r.req r.size block s.e
    .ok ⟨ca, e, handOut s.regions r ptr⟩
  | .calloc r block => do
    let (ptr, ca, e) ← chunkCalloc build s.ca r.req r.size block s.e
    .ok ⟨ca, e, handOut s.regions r ptr⟩
  | .resetAll => do
    let ca ← chunkAllocResetAll build s.ca
    .ok ⟨ca, s.e, []⟩
  | .freeAll => do
    let ca ← chunkAllocFreeAll build s.ca
    .ok ⟨ca, s.e, []⟩

/-- The block of a chunk, its header included. -/
def Chunk.block (c : Chunk) : Region := ⟨c.addr, headerSize + c.alloc.limit⟩

def Chunk.data (c : Chunk) : Region := ⟨c.alloc.data, c.alloc.limit⟩

/-- The bytes below the bump pointer. -/
def Chunk.taken (c : Chunk) : Region := ⟨c.alloc.data, c.alloc.used⟩

/-- `malloc` returns memory that is not in use. -/
def FreshBlock (ca : ChunkAlloc) (r : Request) (block : Option Nat) : Prop :=
  ∀ addr ∈ block, ∀ c ∈ ca.chunks, Region.Apart ⟨addr, headerSize + ca.newSize r⟩ c.block

def Permitted (s : Session) : Op → Prop
  | .malloc r block => 0 < r.req ∧ 0 < r.size ∧ FreshBlock s.ca r block
  | .calloc r block => 0 < r.req ∧ 0 < r.size ∧ FreshBlock s.ca r block
  | .resetAll => True
  | .freeAll => True

/-- The sessions that a run reaches. -/
inductive Run (build : Build) (settings : Settings) : Session → Prop where
  | create {ca : ChunkAlloc} {e : ErrorObject} :
      chunkAllocCreate build settings = .ok ca → Run build settings ⟨ca, e, []⟩
  | next {s s' : Session} {op : Op} :
      Run build settings s → Permitted s op → step build s op = .ok s' → Run build settings s'

/-- Where the chunks and the regions are. -/
structure Layout (chunks : List Chunk) (regions : List Region) : Prop where
  blocks : chunks.Pairwise fun c d => c.block.Apart d.block
  apart : regions.Pairwise Region.Apart
  taken : ∀ r ∈ regions, ∃ c ∈ chunks, r.Inside c.taken

section Layouts

variable {chunks cs : List Chunk} {regions : List Region} {c : Chunk} {n addr size : Nat}

theorem Chunk.Sound.taken_inside (sound : c.Sound) : c.taken.Inside c.data :=
  ⟨le_rfl, Nat.add_le_add_left sound.valid.2.1 _⟩

theorem Chunk.Sound.data_inside (sound : c.Sound) : c.data.Inside c.block := by
  obtain ⟨hdata, -, -⟩ := sound.valid
  constructor
  · show c.addr ≤ c.alloc.data
    omega
  · show c.alloc.data + c.alloc.limit ≤ c.addr + (headerSize + c.alloc.limit)
    omega

theorem Layout.serve (layout : Layout (c :: cs) regions) (sound : ∀ d ∈ c :: cs, d.Sound)
    (hfits : n < c.alloc.limit - c.alloc.used) :
    Layout (c.serve n :: cs) (⟨c.alloc.data + c.alloc.used, n⟩ :: regions) := by
  obtain ⟨hblocks, hrest⟩ := List.pairwise_cons.mp layout.blocks
  have hgrows : c.taken.Inside (c.serve n).taken := by
    refine ⟨le_rfl, ?_⟩
    show c.alloc.data + c.alloc.used ≤ c.alloc.data + (c.alloc.used + n)
    omega
  have hnew : Region.Inside ⟨c.alloc.data + c.alloc.used, n⟩ (c.serve n).taken := by
    constructor
    · show c.alloc.data ≤ c.alloc.data + c.alloc.used
      omega
    · show c.alloc.data + c.alloc.used + n ≤ c.alloc.data + (c.alloc.used + n)
      omega
  have hdata : Region.Inside ⟨c.alloc.data + c.alloc.used, n⟩ c.data := by
    constructor
    · show c.alloc.data ≤ c.alloc.data + c.alloc.used
      omega
    · show c.alloc.data + c.alloc.used + n ≤ c.alloc.data + c.alloc.limit
      omega
  refine ⟨List.pairwise_cons.mpr ⟨hblocks, hrest⟩,
    List.pairwise_cons.mpr ⟨fun r hr => ?_, layout.apart⟩, fun r hr => ?_⟩
  · obtain ⟨d, hd, hin⟩ := layout.taken r hr
    rcases List.mem_cons.mp hd with rfl | hd
    · exact Or.inr hin.2
    · have hd' := sound d (List.mem_cons_of_mem c hd)
      exact (hblocks d hd).inside (hdata.trans (sound c List.mem_cons_self).data_inside)
        (hin.trans (hd'.taken_inside.trans hd'.data_inside))
  · rcases List.mem_cons.mp hr with rfl | hr
    · exact ⟨c.serve n, List.mem_cons_self, hnew⟩
    · obtain ⟨d, hd, hin⟩ := layout.taken r hr
      rcases List.mem_cons.mp hd with rfl | hd
      · exact ⟨d.serve n, List.mem_cons_self, hin.trans hgrows⟩
      · exact ⟨d, List.mem_cons_of_mem _ hd, hin⟩

theorem Layout.push (layout : Layout chunks regions)
    (hfresh : ∀ d ∈ chunks, c.block.Apart d.block) : Layout (c :: chunks) regions := by
  refine ⟨List.pairwise_cons.mpr ⟨hfresh, layout.blocks⟩, layout.apart, fun r hr => ?_⟩
  obtain ⟨d, hd, hin⟩ := layout.taken r hr
  exact ⟨d, List.mem_cons_of_mem c hd, hin⟩

theorem Layout.cleared (layout : Layout chunks regions) :
    Layout (chunks.map Chunk.cleared) [] := by
  refine ⟨List.pairwise_map.mpr ?_, List.Pairwise.nil, fun _ hr => absurd hr List.not_mem_nil⟩
  exact layout.blocks

theorem Layout.nil : Layout [] [] :=
  ⟨List.Pairwise.nil, List.Pairwise.nil, fun _ hr => absurd hr List.not_mem_nil⟩

end Layouts

/-- What holds after every step of a session. -/
structure Session.Kept (settings : Settings) (s : Session) : Prop where
  settings : s.ca.settings = settings
  sound : s.ca.Sound
  tallied : s.ca.Tallied
  layout : Layout s.ca.chunks s.regions
  requested : s.ca.useds = (s.regions.map Region.bytes).sum

section Runs

variable {build : Build} {settings : Settings} {ca ca' : ChunkAlloc} {r : Request} {c : Chunk}
  {block ptr : Option Nat} {e e' : ErrorObject} {regions : List Region} {s s' : Session} {op : Op}
  {n addr size : Nat}

theorem useds_le_limits (sound : ca.Sound) : ca.useds ≤ ca.limits :=
  List.sum_le_sum fun c hc => (sound c hc).valid.2.1

theorem length_le_limits (sound : ca.Sound) : ca.chunks.length ≤ ca.limits := by
  have hlength : ca.chunks.length = (ca.chunks.map Chunk.limit).length := (List.length_map _).symm
  rw [hlength]
  refine List.length_le_sum_of_one_le _ fun n hn => ?_
  obtain ⟨c, hc, rfl⟩ := List.mem_map.mp hn
  exact (sound c hc).valid.2.2

theorem Session.Kept.serve (kept : Session.Kept settings ⟨ca, e, regions⟩) (hfits : ca.head.Fits n)
    (hc : c ∈ ca.chunks.head?) :
    Session.Kept settings ⟨ca.serve n, e', ⟨c.alloc.data + c.alloc.used, n⟩ :: regions⟩ := by
  obtain ⟨hsettings, sound, tallied, layout, hrequested⟩ := kept
  refine ⟨hsettings, sound.serve hfits, tallied.serve hfits, ?_, ?_⟩
  · obtain ⟨_, chunks, numChunks, totalAllocated, totalUsed⟩ := ca
    cases chunks with
    | nil => cases hc
    | cons d cs =>
      obtain rfl := Option.some.inj hc
      exact Layout.serve layout sound hfits
  · have hrequested : ca.useds = (regions.map Region.bytes).sum := hrequested
    rw [List.map_cons, List.sum_cons, ← hrequested, useds_serve (chunks_ne_nil hfits)]
    exact Nat.add_comm _ _

theorem Session.Kept.push (kept : Session.Kept settings ⟨ca, e, regions⟩) (hpos : 0 < size)
    (hsize : size < 2 ^ 32) (free : ¬ ca.Limited size)
    (fresh : ∀ d ∈ ca.chunks, Region.Apart ⟨addr, headerSize + size⟩ d.block) :
    Session.Kept settings ⟨ca.push addr size, e', regions⟩ := by
  obtain ⟨hsettings, sound, tallied, layout, hrequested⟩ := kept
  exact ⟨hsettings, sound.push hpos hsize, tallied.push free, layout.push fresh,
    useds_push.trans hrequested⟩

theorem Session.Kept.cleared (kept : Session.Kept settings ⟨ca, e, regions⟩) :
    Session.Kept settings ⟨ca.cleared, e', []⟩ := by
  obtain ⟨hsettings, sound, tallied, layout, -⟩ := kept
  exact ⟨hsettings, sound.cleared, tallied.cleared, layout.cleared, useds_cleared⟩

/-- Before the first request, and after every free. -/
theorem Session.Kept.empty : Session.Kept settings ⟨⟨settings, [], 0, 0, 0⟩, e, []⟩ :=
  ⟨rfl, fun _ hc => absurd hc List.not_mem_nil, ChunkAlloc.Tallied.empty, Layout.nil, rfl⟩

/-- A call of `chunk_malloc` keeps the session. -/
theorem Malloc.kept (accepted : settings.Accepted) (kept : Session.Kept settings ⟨ca, e, regions⟩)
    (fresh : FreshBlock ca r block) (called : Malloc build ca r block ptr ca') :
    Session.Kept settings ⟨ca', e', handOut regions r ptr⟩ := by
  have accepted : ca.settings.Accepted := kept.settings ▸ accepted
  have hpos : 0 < ca.newSize r := Nat.lt_of_lt_of_le accepted.2.1 (min_le_newChunkSize accepted)
  cases called with
  | refused => exact ⟨kept.settings, kept.sound, kept.tallied, kept.layout, kept.requested⟩
  | served admits hfits hc => exact kept.serve hfits hc
  | @grown addr grows hn =>
    have pushed : Session.Kept settings ⟨ca.push addr (ca.newSize r), e, regions⟩ :=
      kept.push hpos grows.small grows.free (fresh addr rfl)
    exact pushed.serve hn rfl
  | @wasted addr grows => exact kept.push hpos grows.small grows.free (fresh addr rfl)

theorem Malloc.in_chunk {ptr : Nat} (called : Malloc build ca r block (some ptr) ca') :
    ∃ c ∈ ca'.chunks, c.alloc.data ≤ ptr ∧
      ptr + u32 (r.req * r.size) ≤ c.alloc.data + c.alloc.limit := by
  cases called with
  | @served _ c admits hfits hc =>
    have hbytes : u32 (r.req * r.size) = r.bytes := u32_of_lt admits.1
    obtain ⟨_, chunks, numChunks, totalAllocated, totalUsed⟩ := ca
    cases chunks with
    | nil => cases hc
    | cons d cs =>
      obtain rfl := Option.some.inj hc
      have hn : r.bytes < d.alloc.limit - d.alloc.used := hfits
      refine ⟨d.serve r.bytes, List.mem_cons_self, Nat.le_add_right _ _, ?_⟩
      show d.alloc.data + d.alloc.used + u32 (r.req * r.size) ≤ d.alloc.data + d.alloc.limit
      omega
  | @grown addr grows hn =>
    have hbytes : u32 (r.req * r.size) = r.bytes := u32_of_lt grows.admits.1
    refine ⟨_, List.mem_cons_self, le_rfl, ?_⟩
    show addr + headerSize + u32 (r.req * r.size) ≤ addr + headerSize + ca.newSize r
    omega

/-- `chunk_calloc` allocates as `chunk_malloc` does, and its `memset` stays inside the chunk. -/
theorem chunkCalloc_eq (accepted : ca.settings.Accepted) (sound : ca.Sound) :
    chunkCalloc build ca r.req r.size block e = chunkMalloc build ca r.req r.size block e := by
  cases hmalloc : chunkMalloc build ca r.req r.size block e with
  | error fault =>
    rw [chunkCalloc, hmalloc]
    by_cases hvalid : build = .debug → ca.Valid
    · rw [check_pos hvalid]
      rfl
    · obtain ⟨rfl, hinvalid⟩ := Classical.not_imp.mp hvalid
      have hcheck : Build.check .debug ca.Valid = .error .assertion := if_neg hinvalid
      rw [chunkMalloc, hcheck, error_bind] at hmalloc
      rw [hcheck, error_bind, ← Except.error.inj hmalloc]
  | ok result =>
    obtain ⟨ptr, ca', e'⟩ := result
    have hvalid : build.check ca.Valid = .ok () := (bind_eq_ok.mp hmalloc).choose_spec.1
    rw [chunkCalloc, hvalid, ok_bind, hmalloc, ok_bind]
    cases ptr with
    | none => rfl
    | some addr =>
      have called := chunkMalloc_cases accepted sound hmalloc
      dsimp only
      rw [access_pos called.in_chunk, ok_bind]

/-- One step keeps the session. -/
theorem step_kept (accepted : settings.Accepted) (kept : s.Kept settings)
    (permitted : Permitted s op)
    (hstep : step build s op = .ok s') : s'.Kept settings := by
  obtain ⟨ca, e, regions⟩ := s
  have accepted' : ca.settings.Accepted := kept.settings ▸ accepted
  cases op with
  | malloc r block =>
    obtain ⟨⟨ptr, ca', e'⟩, hmalloc, hstep⟩ := bind_eq_ok.mp hstep
    obtain rfl := Except.ok.inj hstep
    have called := chunkMalloc_cases accepted' kept.sound hmalloc
    exact called.kept accepted kept permitted.2.2
  | calloc r block =>
    obtain ⟨⟨ptr, ca', e'⟩, hcalloc, hstep⟩ := bind_eq_ok.mp hstep
    obtain rfl := Except.ok.inj hstep
    rw [chunkCalloc_eq accepted' kept.sound] at hcalloc
    have called := chunkMalloc_cases accepted' kept.sound hcalloc
    exact called.kept accepted kept permitted.2.2
  | resetAll =>
    obtain ⟨ca', hreset, hstep⟩ := bind_eq_ok.mp hstep
    obtain rfl := Except.ok.inj hstep
    obtain ⟨-, rfl⟩ := resetAll_cases hreset
    exact kept.cleared
  | freeAll =>
    obtain ⟨ca', hfree, hstep⟩ := bind_eq_ok.mp hstep
    obtain rfl := Except.ok.inj hstep
    obtain ⟨-, rfl⟩ := freeAll_cases hfree
    obtain rfl := kept.settings
    exact Session.Kept.empty

theorem Run.kept (accepted : settings.Accepted) (run : Run build settings s) : s.Kept settings := by
  induction run with
  | create hcreate =>
    obtain ⟨-, rfl⟩ := create_cases hcreate
    exact Session.Kept.empty
  | next _ permitted hstep ih => exact step_kept accepted ih permitted hstep

end Runs

/-- The accounting and the disjointness over whole runs. -/
theorem regions_and_counters_kept {build : Build} {settings : Settings} {s : Session}
    (accepted : settings.Accepted) (run : Run build settings s) (hlimits : s.ca.limits < 2 ^ 32) :
    s.regions.Pairwise Region.Apart ∧ (∀ r ∈ s.regions, ∃ c ∈ s.ca.chunks, r.Inside c.data) ∧
      s.ca.totalUsed = s.ca.useds ∧ s.ca.totalUsed = (s.regions.map Region.bytes).sum ∧
      s.ca.totalAllocated = s.ca.limits ∧
      (settings.maxTotalSize ≠ 0 → s.ca.totalAllocated ≤ settings.maxTotalSize) ∧
      s.ca.numChunks = s.ca.chunks.length ∧
      (settings.maxChunks ≠ 0 → s.ca.numChunks ≤ settings.maxChunks) := by
  obtain ⟨rfl, sound, tallied, layout, hrequested⟩ := run.kept accepted
  have hlength := length_le_limits sound
  have huseds := useds_le_limits sound
  have hused : s.ca.totalUsed = s.ca.useds := tallied.used.trans (u32_of_lt (by omega))
  refine ⟨layout.apart, ?_, hused, hused.trans hrequested, ?_, tallied.allocated_le, ?_,
    tallied.count_le⟩
  · intro r hr
    obtain ⟨c, hc, hin⟩ := layout.taken r hr
    exact ⟨c, hc, hin.trans (sound c hc).taken_inside⟩
  · exact tallied.allocated.trans (u32_of_lt hlimits)
  · exact tallied.count.trans (u32_of_lt (by omega))

/-- One byte, then nine more in a chunk of their own. -/
def twoChunks : Session :=
  ⟨⟨defaultSettings, [⟨2000, ⟨9, 90, 2032⟩⟩, ⟨1000, ⟨1, 10, 1032⟩⟩], 2, 100, 10⟩, errorCreate,
    [⟨2032, 9⟩, ⟨1032, 1⟩]⟩

theorem regions_and_counters_kept_two :
    twoChunks.regions.Pairwise Region.Apart ∧
      (∀ r ∈ twoChunks.regions, ∃ c ∈ twoChunks.ca.chunks, r.Inside c.data) ∧
      twoChunks.ca.totalUsed = twoChunks.ca.useds ∧
      twoChunks.ca.totalUsed = (twoChunks.regions.map Region.bytes).sum ∧
      twoChunks.ca.totalAllocated = twoChunks.ca.limits ∧
      (defaultSettings.maxTotalSize ≠ 0 →
        twoChunks.ca.totalAllocated ≤ defaultSettings.maxTotalSize) ∧
      twoChunks.ca.numChunks = twoChunks.ca.chunks.length ∧
      (defaultSettings.maxChunks ≠ 0 → twoChunks.ca.numChunks ≤ defaultSettings.maxChunks) := by
  have created : Run .debug defaultSettings ⟨⟨defaultSettings, [], 0, 0, 0⟩, errorCreate, []⟩ :=
    .create rfl
  have first : Run .debug defaultSettings
      ⟨⟨defaultSettings, [⟨1000, ⟨1, 10, 1032⟩⟩], 1, 10, 1⟩, errorCreate, [⟨1032, 1⟩]⟩ := by
    refine .next created (?_ : Permitted _ (.malloc ⟨1, 1⟩ (some 1000))) ?_
    · exact ⟨by decide, by decide, fun _ _ c hc => absurd hc List.not_mem_nil⟩
    · rfl
  have second : Run .debug defaultSettings twoChunks := by
    refine .next first (?_ : Permitted _ (.calloc ⟨9, 1⟩ (some 2000))) ?_
    · refine ⟨by decide, by decide, ?_⟩
      intro addr haddr c hc
      obtain rfl := Option.some.inj haddr
      obtain rfl := List.mem_singleton.mp hc
      exact Or.inr (by decide)
    · rfl
  exact regions_and_counters_kept (by decide) second (by decide)

end ChunkAllocator
