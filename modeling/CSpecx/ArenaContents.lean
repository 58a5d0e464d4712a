import CSpecx.CellMemory
import CSpecx.ChunkAllocRuns
import CSpecx.Component

/-!
# The bytes of a chunk allocator

The regions of a session lie in one memory, of which the callers read and write
their parts. `chunk_calloc` clears what it hands out and `chunk_alloc_move_mem`
copies into it. The headers of the chunks are kept in `Chunk` and not in the
memory.
-/

namespace ChunkAllocator

open CExec CellMemory Component Errors LinearAllocator Regions

structure Arena where
  session : Session
  memory : Nat → UInt8

instance (r s : Region) : Decidable (r.Apart s) := inferInstanceAs (Decidable (_ ∨ _))

/-- `chunk_calloc` with the bytes that its `memset` clears. -/
def chunkCallocBytes (build : Build) (ca : ChunkAlloc) (memory : Nat → UInt8) (req size : Nat)
    (block : Option Nat) (e : ErrorObject) :
    Outcome (Option Nat × ChunkAlloc × (Nat → UInt8) × ErrorObject) := do
  let (ptr, ca, e) ← chunkCalloc build ca req size block e
  match ptr with
  | none => .ok (none, ca, memory, e)
  | some ptr => .ok (some ptr, ca, store memory ptr (List.replicate (u32 (req * size)) 0), e)

def chunkAllocMoveMem (build : Build) (ca : ChunkAlloc) (memory : Nat → UInt8) (ptr size : Nat)
    (block : Option Nat) (e : ErrorObject) :
    Outcome (Option Nat × ChunkAlloc × (Nat → UInt8) × ErrorObject) := do
  let (dest, ca, e) ← chunkMalloc build ca size 1 block e
  match dest with
  | none => .ok (none, ca, memory, e)
  | some dest => do
    access (Region.Apart ⟨ptr, size⟩ ⟨dest, size⟩)
    .ok (some dest, ca, store memory dest (load memory ptr size), e)

/-- What callers do with an arena; the regions are counted from the latest. -/
inductive Use where
  | malloc (r : Request) (block : Option Nat)
  | calloc (r : Request) (block : Option Nat)
  | moveMem (ptr : Nat) (bytes : List UInt8) (block : Option Nat)
  | read (i o n : Nat)
  | write (i o : Nat) (bytes : List UInt8)
  | resetAll
  | freeAll

inductive Answer where
  | ptr (p : Option Nat)
  | bytes (xs : List UInt8)
  | none
  deriving DecidableEq, Repr

def Arena.handOut (a : Arena) (r : Request) (ptr : Option Nat) (ca : ChunkAlloc)
    (memory : Nat → UInt8) (e : ErrorObject) : Arena :=
  ⟨⟨ca, e, ChunkAllocator.handOut a.session.regions r ptr⟩, memory⟩

def use (build : Build) (a : Arena) : Use → Outcome (Answer × Arena)
  | .malloc r block => do
    let (ptr, ca, e) ← chunkMalloc build a.session.ca r.req r.size block a.session.e
    .ok (.ptr ptr, a.handOut r ptr ca a.memory e)
  | .calloc r block => do
    let (ptr, ca, memory, e) ←
      chunkCallocBytes build a.session.ca a.memory r.req r.size block a.session.e
    .ok (.ptr ptr, a.handOut r ptr ca memory e)
  | .moveMem ptr bytes block => do
    let (dest, ca, memory, e) ←
      chunkAllocMoveMem build a.session.ca a.memory ptr bytes.length block a.session.e
    .ok (.ptr dest, a.handOut ⟨bytes.length, 1⟩ dest ca memory e)
  | .read i o n =>
    match a.session.regions[i]? with
    | none => .error .undefined
    | some r => do
      access (o + n ≤ r.bytes)
      .ok (.bytes (load a.memory (r.base + o) n), a)
  | .write i o bytes =>
    match a.session.regions[i]? with
    | none => .error .undefined
    | some r => do
      access (o + bytes.length ≤ r.bytes)
      .ok (.none, ⟨a.session, store a.memory (r.base + o) bytes⟩)
  | .resetAll => do
    let ca ← chunkAllocResetAll build a.session.ca
    .ok (.none, ⟨⟨ca, a.session.e, []⟩, a.memory⟩)
  | .freeAll => do
    let ca ← chunkAllocFreeAll build a.session.ca
    .ok (.none, ⟨⟨ca, a.session.e, []⟩, a.memory⟩)

/-- The source of a copy is a part of a region, or memory that belongs to no chunk. -/
def Source (s : Session) (r : Request) (block : Option Nat) (src : Region) : Prop :=
  (∃ own ∈ s.regions, src.Inside own) ∨
    (∀ c ∈ s.ca.chunks, src.Apart c.block) ∧
      ∀ addr ∈ block, src.Apart ⟨addr, headerSize + s.ca.newSize r⟩

/-- What the callers and `malloc` are held to. -/
def Lawful (a : Arena) : Use → Prop
  | .malloc r block => 0 < r.req ∧ 0 < r.size ∧ FreshBlock a.session.ca r block
  | .calloc r block => 0 < r.req ∧ 0 < r.size ∧ FreshBlock a.session.ca r block
  | .moveMem ptr bytes block => 0 < bytes.length ∧ load a.memory ptr bytes.length = bytes ∧
      FreshBlock a.session.ca ⟨bytes.length, 1⟩ block ∧
      Source a.session ⟨bytes.length, 1⟩ block ⟨ptr, bytes.length⟩
  | .read _ _ _ => True
  | .write _ _ _ => True
  | .resetAll => True
  | .freeAll => True

def arena (build : Build) : Interface Arena Use Answer where
  pre := Lawful
  step := use build

/-- `bytes` written over an object at `o`. -/
def overwrite (o : Nat) (bytes object : List UInt8) : List UInt8 :=
  object.take o ++ bytes ++ object.drop (o + bytes.length)

/-- What an arena is for: it keeps byte strings, the latest first, until all are dropped. -/
inductive Keeps (objects : List (List UInt8)) : Use → Answer → List (List UInt8) → Prop where
  | refused {u : Use} : Keeps objects u (.ptr none) objects
  | malloc {r : Request} {block : Option Nat} {p : Nat} (junk : List UInt8) :
      junk.length = r.bytes → Keeps objects (.malloc r block) (.ptr (some p)) (junk :: objects)
  | calloc {r : Request} {block : Option Nat} {p : Nat} :
      Keeps objects (.calloc r block) (.ptr (some p)) (List.replicate r.bytes 0 :: objects)
  | moveMem {ptr p : Nat} {bytes : List UInt8} {block : Option Nat} :
      Keeps objects (.moveMem ptr bytes block) (.ptr (some p)) (bytes :: objects)
  | read {i o n : Nat} {object : List UInt8} : objects[i]? = some object → o + n ≤ object.length →
      Keeps objects (.read i o n) (.bytes ((object.drop o).take n)) objects
  | write {i o : Nat} {bytes object : List UInt8} :
      objects[i]? = some object → o + bytes.length ≤ object.length →
      Keeps objects (.write i o bytes) .none (objects.set i (overwrite o bytes object))
  | resetAll : Keeps objects .resetAll .none []
  | freeAll : Keeps objects .freeAll .none []

/-- The bytes of the regions. -/
def contents (memory : Nat → UInt8) (regions : List Region) : List (List UInt8) :=
  regions.map fun r => load memory r.base r.bytes

/-- The objects are what the regions hold. -/
structure Holds (settings : Settings) (a : Arena) (objects : List (List UInt8)) : Prop where
  kept : a.session.Kept settings
  objects : contents a.memory a.session.regions = objects

section Contents

variable {memory : Nat → UInt8} {regions : List Region} {r : Region} {i o n b : Nat}
  {xs : List UInt8}

theorem store_load : store memory o (load memory o n) = memory := by
  funext i
  by_cases hin : o ≤ i ∧ i < o + n
  · obtain ⟨k, rfl⟩ : ∃ k, i = o + k := ⟨i - o, by omega⟩
    have hk : k < (load memory o n).length := by rw [length_load]; omega
    rw [store_inside hk, getElem_load]
  · exact store_outside (by rw [length_load]; omega)

theorem contents_apart (h : ∀ r ∈ regions, r.Apart ⟨o, xs.length⟩) :
    contents (store memory o xs) regions = contents memory regions :=
  List.map_congr_left fun r hr => load_store_of_disjoint (h r hr)

theorem load_overwrite (hle : o + xs.length ≤ n) :
    load (store memory (b + o) xs) b n = overwrite o xs (load memory b n) := by
  obtain ⟨k, rfl⟩ : ∃ k, n = o + (xs.length + k) := ⟨n - (o + xs.length), by omega⟩
  have hfront : load (store memory (b + o) xs) b o = load memory b o :=
    load_store_of_disjoint (Or.inl le_rfl)
  have hback : load (store memory (b + o) xs) (b + o + xs.length) k =
      load memory (b + o + xs.length) k := load_store_of_disjoint (Or.inr le_rfl)
  rw [load_add, load_add, hfront, load_store, hback, overwrite, take_load, drop_load,
    Nat.min_eq_left (Nat.le_add_right _ _), List.append_assoc]
  congr 3
  · omega
  · omega

/-- A write into a region changes its own object only. -/
theorem contents_write (memory : Nat → UInt8) (apart : regions.Pairwise Region.Apart)
    (hr : regions[i]? = some r) (hle : o + xs.length ≤ r.bytes) :
    contents (store memory (r.base + o) xs) regions =
      (contents memory regions).set i (overwrite o xs (load memory r.base r.bytes)) := by
  have hpart : Region.Inside ⟨r.base + o, xs.length⟩ r := by
    refine ⟨Nat.le_add_right _ _, ?_⟩
    show r.base + o + xs.length ≤ r.base + r.bytes
    omega
  have hself : ∀ {s : Region}, s.Inside s := ⟨le_rfl, le_rfl⟩
  induction regions generalizing i with
  | nil => cases hr
  | cons s regions ih =>
    obtain ⟨hs, hrest⟩ := List.pairwise_cons.mp apart
    cases i with
    | zero =>
      obtain rfl := Option.some.inj hr
      have htail : contents (store memory (s.base + o) xs) regions = contents memory regions :=
        contents_apart fun q hq => (hs q hq).symm.inside hself hpart
      simp only [contents, List.map_cons, List.set_cons_zero, load_overwrite hle] at htail ⊢
      rw [htail]
    | succ i =>
      rw [List.getElem?_cons_succ] at hr
      have hhead : load (store memory (r.base + o) xs) s.base s.bytes =
          load memory s.base s.bytes :=
        load_store_of_disjoint ((hs r (List.mem_of_getElem? hr)).inside hself hpart)
      have htail := ih hrest hr
      simp only [contents, List.map_cons, List.set_cons_succ, hhead] at htail ⊢
      rw [htail]

theorem load_part (hle : o + n ≤ r.bytes) :
    load memory (r.base + o) n = ((load memory r.base r.bytes).drop o).take n := by
  rw [drop_load, take_load, Nat.min_eq_left (by omega)]

theorem contents_get (memory : Nat → UInt8) (hr : regions[i]? = some r) :
    (contents memory regions)[i]? = some (load memory r.base r.bytes) := by
  rw [contents, List.getElem?_map, hr]
  rfl

end Contents

section Steps

variable {build : Build} {settings : Settings} {ca ca' : ChunkAlloc} {r : Request}
  {block ptr : Option Nat} {p : Nat} {a a' : Arena} {u : Use} {answer : Answer}
  {objects : List (List UInt8)} {e : ErrorObject} {xs : List UInt8}

theorem Malloc.bytes_lt (called : Malloc build ca r block (some p) ca') : r.bytes < 2 ^ 32 := by
  cases called with
  | served admits _ _ _ => exact admits.1
  | grown grows _ _ => exact grows.admits.1

/-- The chunks behind a request are those before it and perhaps a new one. -/
theorem Malloc.blocks (called : Malloc build ca r block ptr ca') :
    ∀ c ∈ ca'.chunks, (∃ d ∈ ca.chunks, c.block = d.block) ∨
      ∃ addr ∈ block, c.block = ⟨addr, headerSize + ca.newSize r⟩ := by
  have serve : ∀ (ca : ChunkAlloc) (n : Nat), ∀ c ∈ (ca.serve n).chunks,
      ∃ d ∈ ca.chunks, c.block = d.block := by
    rintro ⟨_, cs, _, _, _⟩ n c hc
    cases cs with
    | nil => cases hc
    | cons d cs =>
      rcases List.mem_cons.mp hc with rfl | hc
      · exact ⟨d, List.mem_cons_self, rfl⟩
      · exact ⟨c, List.mem_cons_of_mem d hc, rfl⟩
  have push : ∀ {addr : Nat}, ∀ d ∈ (ca.push addr (ca.newSize r)).chunks, d ∈ ca.chunks ∨
      d.block = ⟨addr, headerSize + ca.newSize r⟩ := by
    intro addr d hd
    rcases List.mem_cons.mp hd with rfl | hd
    · exact Or.inr rfl
    · exact Or.inl hd
  cases called with
  | refused _ => exact fun c hc => Or.inl ⟨c, hc, rfl⟩
  | served _ _ _ _ => exact fun c hc => Or.inl (serve ca _ c hc)
  | grown grows _ _ =>
    intro c hc
    obtain ⟨d, hd, hblock⟩ := serve _ _ c hc
    rcases push d hd with hd | hd
    · exact Or.inl ⟨d, hd, hblock⟩
    · exact Or.inr ⟨_, rfl, hblock.trans hd⟩
  | wasted grows _ =>
    intro c hc
    rcases push c hc with hd | hd
    · exact Or.inl ⟨c, hd, rfl⟩
    · exact Or.inr ⟨_, rfl, hd⟩

/-- What is stored in a region just handed out is its object, and the others stay. -/
theorem Holds.handOut (accepted : settings.Accepted) (holds : Holds settings a objects)
    (fresh : FreshBlock a.session.ca r block)
    (called : Malloc build a.session.ca r block (some p) ca') (hlength : xs.length = r.bytes) :
    Holds settings (a.handOut r (some p) ca' (store a.memory p xs) e) (xs :: objects) := by
  have kept : Session.Kept settings ⟨ca', e, ChunkAllocator.handOut a.session.regions r (some p)⟩ :=
    called.kept accepted holds.kept fresh
  refine ⟨kept, ?_⟩
  have hapart := (List.pairwise_cons.mp kept.layout.apart).1
  show contents (store a.memory p xs) (⟨p, r.bytes⟩ :: a.session.regions) = _
  have hothers : contents (store a.memory p xs) a.session.regions = objects :=
    (contents_apart fun q hq => hlength ▸ (hapart q hq).symm).trans holds.objects
  rw [← hothers, contents, List.map_cons, load_store_of_length hlength]
  rfl

theorem Holds.refused (accepted : settings.Accepted) (holds : Holds settings a objects)
    (fresh : FreshBlock a.session.ca r block)
    (called : Malloc build a.session.ca r block none ca') :
    Holds settings (a.handOut r none ca' a.memory e) objects :=
  ⟨called.kept accepted holds.kept fresh, holds.objects⟩

/-- Source and destination of a copy never overlap. -/
theorem Source.apart {src : Region} (accepted : settings.Accepted)
    (kept : a.session.Kept settings) (fresh : FreshBlock a.session.ca r block)
    (called : Malloc build a.session.ca r block (some p) ca')
    (source : Source a.session r block src) :
    src.Apart ⟨p, r.bytes⟩ := by
  have kept' : Session.Kept settings ⟨ca', a.session.e, handOut a.session.regions r (some p)⟩ :=
    called.kept accepted kept fresh
  rcases source with ⟨own, hown, hin⟩ | ⟨hold, hnew⟩
  · have hapart := (List.pairwise_cons.mp kept'.layout.apart).1 own hown
    exact hapart.symm.inside hin ⟨le_rfl, le_rfl⟩
  · obtain ⟨c, hc, hin⟩ := kept'.layout.taken _ List.mem_cons_self
    have sound := kept'.sound c hc
    have hblock := hin.trans (sound.taken_inside.trans sound.data_inside)
    have hsrc : src.Apart c.block := by
      rcases called.blocks c hc with ⟨d, hd, hcd⟩ | ⟨addr, haddr, hcd⟩
      · exact hcd ▸ hold d hd
      · exact hcd ▸ hnew addr haddr
    exact hsrc.inside ⟨le_rfl, le_rfl⟩ hblock

theorem arena_refines (accepted : settings.Accepted) :
    Refines (arena build) Keeps (Holds settings) := by
  intro a objects u answer a' holds lawful hstep
  have accepted' : a.session.ca.settings.Accepted := holds.kept.settings ▸ accepted
  cases u with
  | malloc r block =>
    obtain ⟨⟨ptr, ca', e'⟩, hmalloc, hstep⟩ := bind_eq_ok.mp hstep
    obtain ⟨rfl, rfl⟩ := ok_pair_inj hstep
    have called := chunkMalloc_cases accepted' holds.kept.sound hmalloc
    cases ptr with
    | none => exact ⟨objects, .refused, holds.refused accepted lawful.2.2 called⟩
    | some p =>
      have hjunk : (load a.memory p r.bytes).length = r.bytes := length_load
      have hsame : store a.memory p (load a.memory p r.bytes) = a.memory := store_load
      have holds' := holds.handOut (e := e') accepted lawful.2.2 called hjunk
      rw [hsame] at holds'
      exact ⟨_, .malloc _ hjunk, holds'⟩
  | calloc r block =>
    obtain ⟨⟨ptr, ca', memory, e'⟩, hcalloc, hstep⟩ := bind_eq_ok.mp hstep
    obtain ⟨rfl, rfl⟩ := ok_pair_inj hstep
    obtain ⟨⟨ptr', ca'', e''⟩, hmalloc, hclear⟩ := bind_eq_ok.mp hcalloc
    rw [chunkCalloc_eq accepted' holds.kept.sound] at hmalloc
    have called := chunkMalloc_cases accepted' holds.kept.sound hmalloc
    cases ptr' with
    | none =>
      cases hclear
      exact ⟨objects, .refused, holds.refused accepted lawful.2.2 called⟩
    | some p =>
      cases hclear
      have hbytes : u32 (r.req * r.size) = r.bytes := u32_of_lt called.bytes_lt
      rw [hbytes]
      exact ⟨_, .calloc, holds.handOut accepted lawful.2.2 called List.length_replicate⟩
  | moveMem src bytes block =>
    obtain ⟨hpos, hload, fresh, source⟩ := lawful
    obtain ⟨⟨ptr, ca', memory, e'⟩, hmove, hstep⟩ := bind_eq_ok.mp hstep
    obtain ⟨rfl, rfl⟩ := ok_pair_inj hstep
    obtain ⟨⟨ptr', ca'', e''⟩, hmalloc, hcopy⟩ := bind_eq_ok.mp hmove
    have called := chunkMalloc_cases (r := ⟨bytes.length, 1⟩) accepted' holds.kept.sound hmalloc
    cases ptr' with
    | none =>
      cases hcopy
      exact ⟨objects, .refused, holds.refused accepted fresh called⟩
    | some p =>
      obtain ⟨-, -, hcopy⟩ := bind_eq_ok.mp hcopy
      cases hcopy
      rw [hload]
      exact ⟨_, .moveMem, holds.handOut accepted fresh called (Nat.mul_one _).symm⟩
  | read i o n =>
    cases hr : a.session.regions[i]? with
    | none =>
      simp only [arena, use, hr] at hstep
      cases hstep
    | some r =>
      simp only [arena, use, hr] at hstep
      obtain ⟨_, hle, hstep⟩ := bind_eq_ok.mp hstep
      obtain ⟨rfl, rfl⟩ := ok_pair_inj hstep
      have hle := access_eq_ok_iff.mp hle
      have hobject := contents_get a.memory hr
      rw [holds.objects] at hobject
      refine ⟨objects, ?_, holds⟩
      rw [load_part hle]
      exact .read hobject (by rwa [length_load])
  | write i o bytes =>
    cases hr : a.session.regions[i]? with
    | none =>
      simp only [arena, use, hr] at hstep
      cases hstep
    | some r =>
      simp only [arena, use, hr] at hstep
      obtain ⟨_, hle, hstep⟩ := bind_eq_ok.mp hstep
      obtain ⟨rfl, rfl⟩ := ok_pair_inj hstep
      have hle := access_eq_ok_iff.mp hle
      have hobject := contents_get a.memory hr
      have hwrite := contents_write a.memory holds.kept.layout.apart hr hle
      rw [holds.objects] at hobject hwrite
      exact ⟨_, .write hobject (by rwa [length_load]), holds.kept, hwrite⟩
  | resetAll =>
    obtain ⟨ca', hreset, hstep⟩ := bind_eq_ok.mp hstep
    obtain ⟨rfl, rfl⟩ := ok_pair_inj hstep
    obtain ⟨-, rfl⟩ := resetAll_cases hreset
    exact ⟨[], .resetAll, holds.kept.cleared, rfl⟩
  | freeAll =>
    obtain ⟨ca', hfree, hstep⟩ := bind_eq_ok.mp hstep
    obtain ⟨rfl, rfl⟩ := ok_pair_inj hstep
    obtain ⟨-, rfl⟩ := freeAll_cases hfree
    refine ⟨[], .freeAll, ?_, rfl⟩
    obtain ⟨hsettings, -⟩ := holds.kept
    rw [hsettings]
    exact Session.Kept.empty

end Steps

/-- Over whole runs every object keeps its bytes until the arena is reset, whatever is handed out,
cleared, copied or written meanwhile; and a copy fails only where the allocation for it does. -/
theorem arena_keeps_bytes {build : Build} {settings : Settings} {ca : ChunkAlloc} {e : ErrorObject}
    {memory : Nat → UInt8} {a : Arena} {tr : List (Use × Answer)} (accepted : settings.Accepted)
    (created : chunkAllocCreate build settings = .ok ca)
    (run : Trace (arena build) ⟨⟨ca, e, []⟩, memory⟩ tr a) :
    SpecTrace Keeps [] tr (contents a.memory a.session.regions) ∧
      ∀ ptr bytes block, Lawful a (.moveMem ptr bytes block) →
        ∀ dest ca' e', chunkMalloc build a.session.ca bytes.length 1 block a.session.e =
            .ok (dest, ca', e') →
          ∃ a', use build a (.moveMem ptr bytes block) = .ok (.ptr dest, a') := by
  obtain ⟨-, rfl⟩ := create_cases created
  have empty : Holds settings ⟨⟨⟨settings, [], 0, 0, 0⟩, e, []⟩, memory⟩ [] :=
    ⟨Session.Kept.empty, rfl⟩
  obtain ⟨objects, hspec, holds⟩ := (arena_refines accepted).trace empty run
  refine ⟨holds.objects ▸ hspec, ?_⟩
  rintro ptr bytes block ⟨-, -, fresh, source⟩ dest ca' e' hmalloc
  have accepted' : a.session.ca.settings.Accepted := holds.kept.settings ▸ accepted
  have called := chunkMalloc_cases (r := ⟨bytes.length, 1⟩) accepted' holds.kept.sound hmalloc
  cases dest with
  | none => exact ⟨_, by simp only [use, chunkAllocMoveMem, hmalloc, ok_bind]; rfl⟩
  | some p =>
    have happart := source.apart accepted holds.kept fresh called
    rw [Request.bytes, Nat.mul_one] at happart
    exact ⟨_, by simp only [use, chunkAllocMoveMem, hmalloc, ok_bind, access_pos happart]; rfl⟩

/-- An object is cleared, written and copied, and read again behind the copy. -/
theorem arena_keeps_bytes_copied :
    SpecTrace Keeps [] [(.calloc ⟨2, 1⟩ (some 1000), .ptr (some 1032)), (.write 0 0 [7], .none),
      (.moveMem 1032 [7, 0] none, .ptr (some 1034)), (.read 1 0 2, .bytes [7, 0])]
      [[7, 0], [7, 0]] := by
  have run : ∃ a,
      Trace (arena .debug) ⟨⟨⟨defaultSettings, [], 0, 0, 0⟩, errorCreate, []⟩, fun _ => 9⟩
      [(.calloc ⟨2, 1⟩ (some 1000), .ptr (some 1032)), (.write 0 0 [7], .none),
        (.moveMem 1032 [7, 0] none, .ptr (some 1034)), (.read 1 0 2, .bytes [7, 0])] a ∧
      contents a.memory a.session.regions = [[7, 0], [7, 0]] := by
    refine ⟨_, .cons ?_ rfl (.cons trivial rfl (.cons ?_ rfl (.cons trivial rfl (.nil _)))), rfl⟩
    · exact ⟨by decide, by decide, fun _ _ c hc => absurd hc List.not_mem_nil⟩
    · exact ⟨by decide, rfl, nofun, Or.inl ⟨_, List.mem_cons_self, by decide, by decide⟩⟩
  obtain ⟨a, run, hcontents⟩ := run
  have accepted : defaultSettings.Accepted := by decide
  exact hcontents ▸ (arena_keeps_bytes accepted rfl run).1

end ChunkAllocator
