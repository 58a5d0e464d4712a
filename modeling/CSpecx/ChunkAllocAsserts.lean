import CSpecx.ChunkAllocLimits

/-!
# The assertion of the chunk allocator

`chunk_alloc_assert__` asks for fewer chunks than `max_chunks`, where
`chunk_alloc_add_new_chunk` allows that many, and for at most 100000 in the list.
Each state that a run reaches satisfies it exactly as long as every chunk was
linked with one place to spare.
-/

namespace ChunkAllocator

open CExec Errors LinearAllocator BumpBlocks

/-- The request is past every check, and `malloc` has a block for its chunk. -/
def ChunkAlloc.LinksFor (ca : ChunkAlloc) (r : Request) (block : Option Nat) : Prop :=
  ca.Admits r ∧ ¬ ca.head.Fits r.bytes ∧ ¬ ca.Limited (ca.newSize r) ∧ block ≠ none

/-- The call goes on to link a chunk. -/
def Links (s : Session) : Op → Prop
  | .malloc r block | .calloc r block => s.ca.LinksFor r block
  | .resetAll | .freeAll => False

/-- One more chunk leaves a place below both limits of the assertion. -/
def ChunkAlloc.Spare (ca : ChunkAlloc) : Prop :=
  (ca.settings.maxChunks = 0 ∨ ca.numChunks + 1 < ca.settings.maxChunks) ∧
    ca.numChunks + 1 ≤ 100000

/-- The runs whose every new chunk had a place to spare. -/
inductive SpareRun (build : Build) (settings : Settings) : Session → Prop where
  | create {ca : ChunkAlloc} {e : ErrorObject} :
      chunkAllocCreate build settings = .ok ca → SpareRun build settings ⟨ca, e, []⟩
  | next {s s' : Session} {op : Op} :
      SpareRun build settings s → Permitted s op → (Links s op → s.ca.Spare) →
        step build s op = .ok s' → SpareRun build settings s'

/-- The limits that the assertion sets to the list. -/
def ChunkAlloc.Short (ca : ChunkAlloc) : Prop :=
  (ca.settings.maxChunks = 0 ∨ ca.chunks.length < ca.settings.maxChunks) ∧
    ca.chunks.length ≤ 100000

section Lists

variable {build : Build} {settings : Settings} {s s' : Session} {ca ca' : ChunkAlloc} {r : Request}
  {block ptr : Option Nat} {op : Op}

theorem SpareRun.run (run : SpareRun build settings s) : Run build settings s := by
  induction run with
  | create hcreate => exact .create hcreate
  | next _ permitted _ hstep ih => exact .next ih permitted hstep

/-- With the sizes summed below `2 ^ 32` only the length of the list is in question. -/
theorem Session.Kept.valid_iff_short (accepted : settings.Accepted) (kept : s.Kept settings)
    (hlimits : s.ca.limits < 2 ^ 32) : s.ca.Valid ↔ s.ca.Short := by
  have hlength := length_le_limits kept.sound
  have huseds := useds_le_limits kept.sound
  have hcount : s.ca.numChunks = s.ca.chunks.length :=
    kept.tallied.count.trans (u32_of_lt (by omega))
  have hused : s.ca.totalUsed ≤ s.ca.totalAllocated := by
    rw [kept.tallied.used, kept.tallied.allocated, u32_of_lt hlimits, u32_of_lt (by omega)]
    exact huseds
  rw [kept.valid_iff accepted, ChunkAlloc.Intact, ChunkAlloc.Short, hcount, and_iff_left hused]

/-- The list grows by the chunk that the call links, and by no other. -/
theorem Malloc.length (called : Malloc build ca r block ptr ca') :
    (ca.LinksFor r block → ca'.chunks.length = ca.chunks.length + 1) ∧
      (¬ ca.LinksFor r block → ca'.chunks.length = ca.chunks.length) := by
  cases called with
  | refused hwhy =>
    refine ⟨fun links => ?_, fun _ => rfl⟩
    obtain ⟨admits, -, free, hblock⟩ := links
    rcases hwhy with h | h | h
    · exact absurd admits h
    · exact absurd h free
    · exact absurd h hblock
  | served _ hfits => exact ⟨fun links => absurd hfits links.2.1, fun _ => length_serve⟩
  | @grown addr grows =>
    have links : ca.LinksFor r (some addr) :=
      ⟨grows.admits, grows.full, grows.free, Option.some_ne_none addr⟩
    exact ⟨fun _ => length_serve, fun h => absurd links h⟩
  | @wasted addr grows =>
    have links : ca.LinksFor r (some addr) :=
      ⟨grows.admits, grows.full, grows.free, Option.some_ne_none addr⟩
    exact ⟨fun _ => rfl, fun h => absurd links h⟩

theorem step_length (accepted : settings.Accepted) (kept : s.Kept settings)
    (hstep : step build s op = .ok s') :
    (Links s op → s'.ca.chunks.length = s.ca.chunks.length + 1) ∧
      (¬ Links s op → s'.ca.chunks.length ≤ s.ca.chunks.length) := by
  have accepted' : s.ca.settings.Accepted := kept.settings ▸ accepted
  cases op with
  | malloc r block =>
    obtain ⟨⟨ptr, ca', e'⟩, hmalloc, hstep⟩ := bind_eq_ok.mp hstep
    obtain rfl := Except.ok.inj hstep
    obtain ⟨hlinks, hkeeps⟩ := (chunkMalloc_cases accepted' kept.sound hmalloc).length
    exact ⟨hlinks, fun h => (hkeeps h).le⟩
  | calloc r block =>
    obtain ⟨⟨ptr, ca', e'⟩, hcalloc, hstep⟩ := bind_eq_ok.mp hstep
    obtain rfl := Except.ok.inj hstep
    rw [chunkCalloc_eq accepted' kept.sound] at hcalloc
    obtain ⟨hlinks, hkeeps⟩ := (chunkMalloc_cases accepted' kept.sound hcalloc).length
    exact ⟨hlinks, fun h => (hkeeps h).le⟩
  | resetAll =>
    obtain ⟨ca', hreset, hstep⟩ := bind_eq_ok.mp hstep
    obtain rfl := Except.ok.inj hstep
    obtain ⟨-, rfl⟩ := resetAll_cases hreset
    exact ⟨False.elim, fun _ => (List.length_map _).le⟩
  | freeAll =>
    obtain ⟨ca', hfree, hstep⟩ := bind_eq_ok.mp hstep
    obtain rfl := Except.ok.inj hstep
    obtain ⟨-, rfl⟩ := freeAll_cases hfree
    exact ⟨False.elim, fun _ => Nat.zero_le _⟩

/-- One step from a short list. -/
theorem step_short_iff (accepted : settings.Accepted) (kept : s.Kept settings)
    (kept' : s'.Kept settings) (short : s.ca.Short) (hstep : step build s op = .ok s') :
    s'.ca.Short ↔ (Links s op → s.ca.Spare) := by
  obtain ⟨hlinks, hkeeps⟩ := step_length accepted kept hstep
  obtain ⟨hmax, hlength⟩ := short
  have hcount : s.ca.numChunks = s.ca.chunks.length :=
    kept.tallied.count.trans (u32_of_lt (by omega))
  have hsame : s'.ca.settings = s.ca.settings := kept'.settings.trans kept.settings.symm
  rw [ChunkAlloc.Short, ChunkAlloc.Spare, hsame, hcount]
  by_cases links : Links s op
  · rw [hlinks links]
    exact ⟨fun h _ => h, fun h => h links⟩
  · have hle := hkeeps links
    refine iff_of_true ⟨by omega, by omega⟩ ?_
    intro h
    exact absurd h links

theorem SpareRun.short (accepted : settings.Accepted) (run : SpareRun build settings s) :
    s.ca.Short := by
  induction run with
  | create hcreate =>
    obtain ⟨-, rfl⟩ := create_cases hcreate
    exact ⟨Nat.eq_zero_or_pos _, Nat.zero_le _⟩
  | next before permitted spare hstep ih =>
    have kept := before.run.kept accepted
    have kept' := step_kept accepted kept permitted hstep
    exact (step_short_iff accepted kept kept' ih hstep).mpr spare

end Lists

/-- The assertion holds along every run that links each chunk with a place to
spare, and a step to the first state without one breaks it. -/
theorem assertion_kept {build : Build} {settings : Settings} (accepted : settings.Accepted) :
    (∀ s, SpareRun build settings s → s.ca.limits < 2 ^ 32 → s.ca.Valid) ∧
      ∀ s op s', Run build settings s → s.ca.limits < 2 ^ 32 → s.ca.Valid → Permitted s op →
        step build s op = .ok s' → s'.ca.limits < 2 ^ 32 →
          (s'.ca.Valid ↔ (Links s op → s.ca.Spare)) := by
  constructor
  · intro s run hlimits
    have kept := run.run.kept accepted
    exact (kept.valid_iff_short accepted hlimits).mpr (run.short accepted)
  · intro s op s' run hlimits valid permitted hstep hlimits'
    have kept := run.kept accepted
    have kept' := step_kept accepted kept permitted hstep
    have short := (kept.valid_iff_short accepted hlimits).mp valid
    rw [kept'.valid_iff_short accepted hlimits']
    exact step_short_iff accepted kept kept' short hstep

/-- One byte in a chunk of ten. -/
def servedOne : Session :=
  ⟨⟨defaultSettings, [⟨1000, ⟨1, 10, 1032⟩⟩], 1, 10, 1⟩, errorCreate, [⟨1032, 1⟩]⟩

theorem assertion_kept_one : servedOne.ca.Valid ∧
    (servedOne.ca.Valid ↔
      (Links ⟨byTen, errorCreate, []⟩ (.malloc ⟨1, 1⟩ (some 1000)) → byTen.Spare)) := by
  have permitted : Permitted ⟨byTen, errorCreate, []⟩ (.malloc ⟨1, 1⟩ (some 1000)) :=
    ⟨by decide, by decide, fun _ _ c hc => absurd hc List.not_mem_nil⟩
  have spare : byTen.Spare := ⟨Or.inl rfl, by decide⟩
  have served : SpareRun .debug defaultSettings servedOne :=
    .next (.create rfl) permitted (fun _ => spare) rfl
  have hdefault : defaultSettings.Accepted := by decide
  obtain ⟨hruns, hsteps⟩ := @assertion_kept .debug _ hdefault
  exact ⟨hruns servedOne served (by decide),
    hsteps _ _ servedOne (.create rfl) (by decide) (by decide) permitted rfl (by decide)⟩

/-- One chunk is allowed. -/
def oneChunkSettings : Settings := { defaultSettings with maxChunks := 1 }

/-- The first request leaves one chunk of one, which the assertion refuses. -/
theorem first_chunk_breaks_assertion : ¬ ∀ (settings : Settings) (s : Session),
    settings.Accepted → Run .debug settings s → s.ca.limits < 2 ^ 32 → s.ca.Valid := by
  intro h
  have created : Run .debug oneChunkSettings ⟨⟨oneChunkSettings, [], 0, 0, 0⟩, errorCreate, []⟩ :=
    .create rfl
  have first : Run .debug oneChunkSettings
      ⟨⟨oneChunkSettings, [⟨1000, ⟨1, 10, 1032⟩⟩], 1, 10, 1⟩, errorCreate, [⟨1032, 1⟩]⟩ := by
    refine .next created (?_ : Permitted _ (.malloc ⟨1, 1⟩ (some 1000))) ?_
    · exact ⟨by decide, by decide, fun _ _ c hc => absurd hc List.not_mem_nil⟩
    · rfl
  have valid := h oneChunkSettings _ (by decide) first (by decide)
  exact absurd valid (by decide)

end ChunkAllocator
