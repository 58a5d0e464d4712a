import CSpecx.ChunkAllocSteps

/-!
# Rounds of requests on a chunk allocator

A round makes the same requests and ends with a reset. After a reset only the
head chunk serves requests, so a round makes no new chunk exactly when all its
requests together leave a byte of the chunk that was made last.
-/

namespace ChunkAllocator

open CExec Errors LinearAllocator BumpBlocks

/-- A request, and what `malloc` returns should the allocator ask for a block. -/
abbrev Call := Request × Option Nat

def mallocs (build : Build) : ChunkAlloc → ErrorObject → List Call →
    Outcome (List (Option Nat) × ChunkAlloc × ErrorObject)
  | ca, e, [] => .ok ([], ca, e)
  | ca, e, (r, block) :: calls => do
    let (ptr, ca, e) ← chunkMalloc build ca r.req r.size block e
    let (ptrs, ca, e) ← mallocs build ca e calls
    .ok (ptr :: ptrs, ca, e)

/-- The end of a round and the rounds after it. -/
def laterRounds (build : Build) : ChunkAlloc → ErrorObject → List (List Call) →
    Outcome (List (Option Nat) × ChunkAlloc)
  | ca, _, [] => do
    let ca ← chunkAllocResetAll build ca
    .ok ([], ca)
  | ca, e, calls :: later => do
    let ca ← chunkAllocResetAll build ca
    let (ptrs, ca, e) ← mallocs build ca e calls
    let (ptrs', ca) ← laterRounds build ca e later
    .ok (ptrs ++ ptrs', ca)

def requests (calls : List Call) : List Request := calls.map Prod.fst

def sizes (rs : List Request) : List Nat := rs.map Request.bytes

/-- All requests are served, and no chunk is made. -/
def MakesNothing (ca : ChunkAlloc) : Outcome (List (Option Nat) × ChunkAlloc) → Prop
  | .error _ => False
  | .ok (ptrs, ca') => none ∉ ptrs ∧ ca'.chunks.length = ca.chunks.length ∧
      ca'.numChunks = ca.numChunks ∧ ca'.totalAllocated = ca.totalAllocated

/-- The size of the chunk made last when the requests are made of a new allocator. -/
def lastChunkSize (s : Settings) (rs : List Request) : Nat :=
  (newest (newChunkSize s) Block.none (sizes rs)).limit

section Rounds

variable {build : Build} {settings : Settings} {ca ca' : ChunkAlloc} {e e' : ErrorObject}
  {calls : List Call} {ptrs : List (Option Nat)} {rs : List Request} {n : Nat}

/-- What requests that are all served leave behind. -/
structure Filled (build : Build) (ca : ChunkAlloc) (rs : List Request)
    (ca' : ChunkAlloc) : Prop where
  settings : ca'.settings = ca.settings
  sound : ca'.Sound
  head : ca'.head = newest (newChunkSize ca.settings) ca.head (sizes rs)
  length : ca'.chunks.length =
    ca.chunks.length + opened (newChunkSize ca.settings) ca.head (sizes rs)
  useds : ca'.useds = ca.useds + (sizes rs).sum
  admits : ∀ r ∈ rs, ca.Admits r
  positive : ∀ r ∈ rs, r.Positive build

theorem mallocs_filled (accepted : ca.settings.Accepted) (sound : ca.Sound)
    (hrun : mallocs build ca e calls = .ok (ptrs, ca', e')) (hserved : none ∉ ptrs) :
    Filled build ca (requests calls) ca' := by
  induction calls generalizing ca e ptrs with
  | nil =>
    obtain ⟨rfl, rfl, rfl⟩ := ok_triple_inj hrun
    exact ⟨rfl, sound, rfl, rfl, rfl, fun r hr => absurd hr List.not_mem_nil,
      fun r hr => absurd hr List.not_mem_nil⟩
  | cons call calls ih =>
    obtain ⟨r, block⟩ := call
    obtain ⟨⟨ptr, ca₁, e₁⟩, hmalloc, hrun⟩ := bind_eq_ok.mp hrun
    obtain ⟨⟨ptrs₁, ca₂, e₂⟩, hcalls, hrun⟩ := bind_eq_ok.mp hrun
    obtain ⟨rfl, rfl, rfl⟩ := ok_triple_inj hrun
    have step := chunkMalloc_cases accepted sound hmalloc
    cases ptr with
    | none => exact absurd List.mem_cons_self hserved
    | some ptr =>
      have hsettings := step.settings
      obtain ⟨hhead, hlength, huseds, hadmits, hpositive⟩ := step.put
      have filled := ih (hsettings ▸ accepted) (step.sound accepted sound) hcalls
        (fun h => hserved (List.mem_cons_of_mem _ h))
      have hadmits' : ∀ q, ca₁.Admits q ↔ ca.Admits q := by
        intro q
        rw [ChunkAlloc.Admits, hsettings]
        rfl
      refine ⟨filled.settings.trans hsettings, filled.sound, ?_, ?_, ?_, fun q hq => ?_,
        fun q hq => ?_⟩
      · rw [filled.head, hsettings, hhead]
        rfl
      · rw [filled.length, hlength, hsettings, hhead, Nat.add_assoc]
        rfl
      · rw [filled.useds, huseds, Nat.add_assoc]
        rfl
      · rcases List.mem_cons.mp hq with rfl | hq
        · exact hadmits
        · exact (hadmits' q).mp (filled.admits q hq)
      · rcases List.mem_cons.mp hq with rfl | hq
        · exact hpositive
        · exact filled.positive q hq

theorem serve_serve {m : Nat} : (ca.serve m).serve n = ca.serve (m + n) := by
  obtain ⟨settings, chunks, numChunks, totalAllocated, totalUsed⟩ := ca
  have hused : u32 (u32 (totalUsed + m) + n) = u32 (totalUsed + (m + n)) := by
    rw [u32, u32, u32, Nat.mod_add_mod, Nat.add_assoc]
  cases chunks with
  | nil => simp only [ChunkAlloc.serve, hused, List.modifyHead_nil]
  | cons c cs =>
    simp only [ChunkAlloc.serve, hused, List.modifyHead_cons, Chunk.serve, Nat.add_assoc]

theorem cleared_serve_zero : ca.cleared.serve 0 = ca.cleared := by
  obtain ⟨settings, chunks, numChunks, totalAllocated, totalUsed⟩ := ca
  cases chunks with
  | nil => rfl
  | cons c cs => rfl

theorem cleared_of_serve : (ca.cleared.serve n).cleared = ca.cleared := by
  obtain ⟨settings, chunks, numChunks, totalAllocated, totalUsed⟩ := ca
  have hcleared : ∀ cs : List Chunk, (cs.map Chunk.cleared).map Chunk.cleared =
      cs.map Chunk.cleared := by
    intro cs
    rw [List.map_map]
    rfl
  cases chunks with
  | nil => rfl
  | cons c cs =>
    simp only [ChunkAlloc.cleared, ChunkAlloc.serve, List.map_cons, List.modifyHead_cons, hcleared]
    rfl

/-- The predicate of the debug build while a later round goes on. -/
theorem valid_cleared_serve (valid : ca.Valid) (sound : ca.Sound) (hn : n ≤ ca.useds)
    (hroom : ca.useds < ca.head.limit) : (ca.cleared.serve n).Valid := by
  obtain ⟨accepted, -, hused, htotal, hchunks, -, hlen, hcount, hnum, hlimits, huseds⟩ := valid
  have hfits : ca.cleared.head.Fits n := by
    rw [head_cleared]
    show n < ca.head.limit - 0
    omega
  have hne := chunks_ne_nil hfits
  have hsmall : ca.head.limit < 2 ^ 32 := by
    obtain ⟨settings, chunks, numChunks, totalAllocated, totalUsed⟩ := ca
    cases chunks with
    | nil => exact absurd hroom (Nat.not_lt_zero _)
    | cons c cs => exact (sound c List.mem_cons_self).limit_lt
  have hlength : (ca.cleared.serve n).chunks.length = ca.chunks.length := by
    rw [length_serve, ChunkAlloc.cleared, List.length_map]
  have hbytes : u32 (0 + n) = n := by
    rw [Nat.zero_add]
    exact u32_of_lt (by omega)
  have htotalUsed : ca.useds = ca.totalUsed := by
    rw [← huseds]
    exact (u32_of_lt (by omega)).symm
  have hbound : n ≤ ca.totalAllocated := by omega
  refine ⟨accepted, Or.inl ?_, ?_, htotal, hchunks,
    fun c hc => ((sound.cleared.serve hfits) c hc).valid, ?_, ?_, ?_, ?_, ?_⟩
  · intro hempty
    rw [hempty] at hlength
    have hpos := List.length_pos_iff.mpr hne
    rw [ChunkAlloc.cleared, List.length_map] at hpos
    rw [← hlength] at hpos
    exact absurd hpos (Nat.lt_irrefl 0)
  · show u32 (0 + n) ≤ ca.totalAllocated
    rw [hbytes]
    exact hbound
  · rw [hlength]
    exact hlen
  · rw [hlength]
    exact hcount
  · rw [hlength]
    exact hnum
  · rw [limits_serve, limits_cleared]
    exact hlimits
  · rw [useds_serve hne, useds_cleared]
    rfl

/-- A round with room in the head chunk. -/
theorem mallocs_room (valid : ∀ m ≤ n + (sizes (requests calls)).sum, build = .debug →
      (ca.cleared.serve m).Valid) (sound : ca.Sound)
    (hroom : calls ≠ [] → n + (sizes (requests calls)).sum < ca.head.limit)
    (admits : ∀ r ∈ requests calls, ca.Admits r)
    (positive : ∀ r ∈ requests calls, r.Positive build) :
    ∃ ptrs, mallocs build (ca.cleared.serve n) e calls =
      .ok (ptrs, ca.cleared.serve (n + (sizes (requests calls)).sum), e) ∧ none ∉ ptrs := by
  induction calls generalizing n with
  | nil => exact ⟨[], rfl, List.not_mem_nil⟩
  | cons call calls ih =>
    obtain ⟨r, block⟩ := call
    have hsum : (sizes (requests ((r, block) :: calls))).sum =
        r.bytes + (sizes (requests calls)).sum :=
      List.sum_cons
    rw [hsum] at valid hroom ⊢
    have hroom := hroom (List.cons_ne_nil _ _)
    have hfits₀ : ∀ m, n + m < ca.head.limit → ca.cleared.head.Fits (n + m) := by
      intro m hm
      rw [head_cleared]
      show n + m < ca.head.limit - 0
      omega
    have hne := chunks_ne_nil (hfits₀ 0 (by omega))
    have hfits : (ca.cleared.serve n).head.Fits r.bytes := by
      rw [head_serve hne, head_cleared]
      show r.bytes < ca.head.limit - (0 + n)
      omega
    have sound' : (ca.cleared.serve n).Sound := sound.cleared.serve (hfits₀ 0 (by omega))
    obtain ⟨ptr, hmalloc⟩ : ∃ ptr, chunkMalloc build (ca.cleared.serve n) r.req r.size block e =
        .ok (some ptr, (ca.cleared.serve n).serve r.bytes, e) :=
      chunkMalloc_served (valid n (by omega)) sound' (admits r List.mem_cons_self) hfits
        (positive r List.mem_cons_self)
    obtain ⟨ptrs, hrest, hserved⟩ := ih (n := n + r.bytes) (fun m hm => valid m (by omega))
      (fun _ => by omega) (fun q hq => admits q (List.mem_cons_of_mem _ hq))
      (fun q hq => positive q (List.mem_cons_of_mem _ hq))
    refine ⟨some ptr :: ptrs, ?_, ?_⟩
    · simp only [mallocs, hmalloc, ok_bind, serve_serve, hrest, Nat.add_assoc]
    · intro hmem
      rcases List.mem_cons.mp hmem with h | h
      · cases h
      · exact hserved h

theorem valid_cleared (valid : ca.Valid) : ca.cleared.Valid := by
  obtain ⟨accepted, hempty, -, htotal, hchunks, hvalid, hlen, hcount, hnum, hlimits, -⟩ := valid
  have hlength : ca.cleared.chunks.length = ca.chunks.length := List.length_map _
  refine ⟨accepted, hempty.imp_left fun hne h => hne (List.map_eq_nil_iff.mp h),
    Nat.zero_le _, htotal, hchunks, fun d hd => ?_, ?_, ?_, ?_, ?_, ?_⟩
  · obtain ⟨c, hc, rfl⟩ := List.mem_map.mp hd
    obtain ⟨hdata, -, hlimit⟩ := hvalid c hc
    exact ⟨hdata, Nat.zero_le _, hlimit⟩
  · rw [hlength]
    exact hlen
  · rw [hlength]
    exact hcount
  · rw [hlength]
    exact hnum
  · rw [limits_cleared]
    exact hlimits
  · rw [useds_cleared]
    rfl

/-- Every later round starts from the cleared allocator and comes back to it. -/
theorem laterRounds_room {later : List (List Call)}
    (valid : ∀ m ≤ (sizes rs).sum, build = .debug → (ca.cleared.serve m).Valid)
    (sound : ca.Sound) (served : (ca.cleared.serve (sizes rs).sum).Sound)
    (hroom : rs ≠ [] → (sizes rs).sum < ca.head.limit) (admits : ∀ r ∈ rs, ca.Admits r)
    (positive : ∀ r ∈ rs, r.Positive build) (hlater : ∀ calls ∈ later, requests calls = rs)
    (valid' : build = .debug → ca'.Valid) (sound' : ca'.Sound) (hsame : ca'.cleared = ca.cleared) :
    ∃ ptrs, laterRounds build ca' e later = .ok (ptrs, ca.cleared) ∧ none ∉ ptrs := by
  have hreset : chunkAllocResetAll build ca' = .ok ca.cleared := by
    rw [resetAll_ok valid' sound', hsame]
  induction later generalizing ca' e with
  | nil => exact ⟨[], by rw [laterRounds, hreset, ok_bind], List.not_mem_nil⟩
  | cons calls later ih =>
    have hcalls := hlater calls List.mem_cons_self
    have hrounds : calls ≠ [] → 0 + (sizes (requests calls)).sum < ca.head.limit := by
      intro hne
      rw [hcalls, Nat.zero_add]
      refine hroom fun hempty => hne ?_
      rw [hempty] at hcalls
      exact List.map_eq_nil_iff.mp hcalls
    have hvalid : ∀ m ≤ 0 + (sizes (requests calls)).sum, build = .debug →
        (ca.cleared.serve m).Valid := by
      intro m hm
      rw [hcalls, Nat.zero_add] at hm
      exact valid m hm
    obtain ⟨ptrs, hround, hserved⟩ := mallocs_room (e := e) hvalid sound hrounds (hcalls ▸ admits)
      (hcalls ▸ positive)
    rw [cleared_serve_zero, hcalls, Nat.zero_add] at hround
    have hlast := valid (sizes rs).sum le_rfl
    have hback : chunkAllocResetAll build (ca.cleared.serve (sizes rs).sum) = .ok ca.cleared := by
      rw [resetAll_ok hlast served, cleared_of_serve]
    obtain ⟨ptrs', hrest, hserved'⟩ :=
      ih (e := e) (fun c hc => hlater c (List.mem_cons_of_mem _ hc))
      hlast served cleared_of_serve hback
    refine ⟨ptrs ++ ptrs', ?_, fun h => (List.mem_append.mp h).elim hserved hserved'⟩
    simp only [laterRounds, hreset, ok_bind, hround, hrest]

theorem MakesNothing.valid (h : MakesNothing ca (laterRounds build ca e [])) :
    build = .debug → ca.Valid := by
  rw [laterRounds] at h
  cases hreset : chunkAllocResetAll build ca with
  | error fault =>
    rw [hreset] at h
    exact h.elim
  | ok ca' => exact (resetAll_cases hreset).1

/-- A second round that makes no chunk opens no block. -/
theorem MakesNothing.opened_eq_zero (h : MakesNothing ca (laterRounds build ca e [calls]))
    (accepted : ca.settings.Accepted) (sound : ca.Sound) :
    opened (newChunkSize ca.settings) ca.cleared.head (sizes (requests calls)) = 0 := by
  cases hrun : laterRounds build ca e [calls] with
  | error fault =>
    rw [hrun] at h
    exact h.elim
  | ok result =>
    obtain ⟨ptrs, ca'⟩ := result
    rw [hrun] at h
    obtain ⟨hserved, hlength, -⟩ := h
    obtain ⟨ca₁, hreset, hrun⟩ := bind_eq_ok.mp hrun
    obtain ⟨-, rfl⟩ := resetAll_cases hreset
    obtain ⟨⟨ptrs₁, ca₂, e₂⟩, hround, hrun⟩ := bind_eq_ok.mp hrun
    obtain ⟨⟨ptrs₂, ca₃⟩, hend, hrun⟩ := bind_eq_ok.mp hrun
    obtain ⟨rfl, rfl⟩ := ok_pair_inj hrun
    obtain ⟨ca₄, hreset', hend⟩ := bind_eq_ok.mp hend
    obtain ⟨-, rfl⟩ := resetAll_cases hreset'
    obtain ⟨-, rfl⟩ := ok_pair_inj hend
    have accepted' : ca.cleared.settings.Accepted := accepted
    have filled := mallocs_filled accepted' sound.cleared hround
      fun hmem => hserved (List.mem_append_left _ hmem)
    have hkept : ca₂.cleared.chunks.length = ca₂.chunks.length := List.length_map _
    have hstart : ca.cleared.chunks.length = ca.chunks.length := List.length_map _
    have hgrown := filled.length
    rw [hstart] at hgrown
    have hopened : opened (newChunkSize ca.settings) ca.cleared.head (sizes (requests calls)) =
        opened (newChunkSize ca.cleared.settings) ca.cleared.head (sizes (requests calls)) := rfl
    omega

end Rounds

/-- Later rounds make no chunk exactly when the head chunk has room for a whole round. -/
theorem later_rounds_make_nothing_iff {build : Build} {settings : Settings} {ca ca₁ : ChunkAlloc}
    {e e₁ : ErrorObject} {first : List Call} {ptrs : List (Option Nat)}
    (accepted : settings.Accepted) (hcreate : chunkAllocCreate build settings = .ok ca)
    (hfirst : mallocs build ca e first = .ok (ptrs, ca₁, e₁)) (hserved : none ∉ ptrs) :
    (∀ later : List (List Call), (∀ calls ∈ later, requests calls = requests first) →
      MakesNothing ca₁ (laterRounds build ca₁ e₁ later)) ↔
    (build = .debug → ca₁.Valid) ∧
      (first = [] ∨ (sizes (requests first)).sum < lastChunkSize settings (requests first)) := by
  obtain ⟨_, -, hcreate⟩ := bind_eq_ok.mp hcreate
  obtain ⟨_, -, hcreate⟩ := bind_eq_ok.mp hcreate
  obtain rfl := Except.ok.inj hcreate
  have sound : ChunkAlloc.Sound ⟨settings, [], 0, 0, 0⟩ := fun c hc => absurd hc List.not_mem_nil
  have filled := mallocs_filled accepted sound hfirst hserved
  have hlimit : ca₁.head.limit = lastChunkSize settings (requests first) := by
    rw [filled.head]
    rfl
  have huseds : ca₁.useds = (sizes (requests first)).sum := filled.useds.trans (Nat.zero_add _)
  constructor
  · intro hlater
    have valid := (hlater [] fun calls hc => absurd hc List.not_mem_nil).valid
    have hagain := hlater [first] fun calls hc => by rw [List.mem_singleton.mp hc]
    refine ⟨valid, ?_⟩
    have hopened := hagain.opened_eq_zero (filled.settings.symm ▸ accepted) filled.sound
    rw [opened_eq_zero_iff, head_cleared, hlimit] at hopened
    exact hopened.imp_left fun hempty => List.map_eq_nil_iff.mp (List.map_eq_nil_iff.mp hempty)
  · rintro ⟨valid, hroom⟩ later hlater
    have hroom' : requests first ≠ [] → (sizes (requests first)).sum < ca₁.head.limit := by
      intro hne
      rw [hlimit]
      exact hroom.resolve_left fun hempty => hne (hempty ▸ rfl)
    have hserve : (∀ m ≤ (sizes (requests first)).sum, build = .debug →
        (ca₁.cleared.serve m).Valid) ∧ (ca₁.cleared.serve (sizes (requests first)).sum).Sound := by
      by_cases hempty : requests first = []
      · rw [hempty]
        refine ⟨fun m hm hbuild => ?_, ?_⟩
        · rw [Nat.le_zero.mp hm, cleared_serve_zero]
          exact valid_cleared (valid hbuild)
        · have hzero : (sizes []).sum = 0 := rfl
          rw [hzero, cleared_serve_zero]
          exact filled.sound.cleared
      · have hlt := hroom' hempty
        refine ⟨fun m hm hbuild => ?_, filled.sound.cleared.serve ?_⟩
        · rw [← huseds] at hm hlt
          exact valid_cleared_serve (valid hbuild) filled.sound hm hlt
        · rw [head_cleared]
          exact hlt
    have admits : ∀ r ∈ requests first, ca₁.Admits r := by
      intro r hr
      have hr := filled.admits r hr
      rw [ChunkAlloc.Admits] at hr ⊢
      rw [filled.settings]
      exact hr
    obtain ⟨ptrs', hrounds, hserved'⟩ := laterRounds_room (e := e₁) hserve.1 filled.sound hserve.2
      hroom' admits filled.positive hlater valid filled.sound rfl
    rw [hrounds]
    exact ⟨hserved', List.length_map _, rfl, rfl⟩

def fresh : ChunkAlloc := ⟨defaultSettings, [], 0, 0, 0⟩

/-- One byte and nine bytes, each in a chunk of its own. -/
def growing : List Call := [(⟨1, 1⟩, some 1000), (⟨9, 1⟩, some 2000)]

def grown : ChunkAlloc :=
  ⟨defaultSettings, [⟨2000, ⟨9, 90, 2032⟩⟩, ⟨1000, ⟨1, 10, 1032⟩⟩], 2, 100, 10⟩

theorem later_rounds_make_nothing_growing :
    (∀ later : List (List Call), (∀ calls ∈ later, requests calls = requests growing) →
      MakesNothing grown (laterRounds .debug grown errorCreate later)) ↔
    (Build.debug = .debug → grown.Valid) ∧
      (growing = [] ∨ (sizes (requests growing)).sum <
        lastChunkSize defaultSettings (requests growing)) := by
  have hcreate : chunkAllocCreate .debug defaultSettings = .ok fresh := rfl
  have hfirst : mallocs .debug fresh errorCreate growing =
      .ok ([some 1032, some 2032], grown, errorCreate) := rfl
  exact later_rounds_make_nothing_iff (by decide) hcreate hfirst (by decide)

/-- Ten bytes in all, and the chunk made last has ten bytes. -/
def leaking : List Call := [(⟨1, 1⟩, some 1000), (⟨8, 1⟩, some 2000), (⟨1, 1⟩, some 3000)]

theorem reset_leaks : ¬ ∀ (build : Build) (settings : Settings) (ca ca₁ : ChunkAlloc)
    (e e₁ : ErrorObject) (first : List Call) (ptrs : List (Option Nat)), settings.Accepted →
    chunkAllocCreate build settings = .ok ca → mallocs build ca e first = .ok (ptrs, ca₁, e₁) →
    none ∉ ptrs → ∀ later : List (List Call), (∀ calls ∈ later, requests calls = requests first) →
      MakesNothing ca₁ (laterRounds build ca₁ e₁ later) := by
  intro h
  have hcreate : chunkAllocCreate .debug defaultSettings = .ok fresh := rfl
  have hfirst : mallocs .debug fresh errorCreate leaking = .ok ([some 1032, some 1033, some 3032],
      ⟨defaultSettings, [⟨3000, ⟨1, 10, 3032⟩⟩, ⟨1000, ⟨9, 10, 1032⟩⟩], 2, 20, 10⟩,
      errorCreate) := rfl
  have hlater : ∀ calls ∈ [[(⟨1, 1⟩, none), (⟨8, 1⟩, none), (⟨1, 1⟩, some 4000)]],
      requests calls = requests leaking := by
    decide
  obtain ⟨-, hlength, -⟩ := h .debug defaultSettings fresh _ _ _ leaking _
    (by decide) hcreate hfirst
    (by decide) _ hlater
  cases hlength

end ChunkAllocator
