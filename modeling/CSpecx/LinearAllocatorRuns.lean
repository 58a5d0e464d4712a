import CSpecx.LinearAllocator
import CSpecx.Regions

/-!
# Runs of the linear allocator

A session keeps, beside the allocator, the regions handed out since the start,
and the states that were read with the regions each of them builds on. Setting
the allocator back to such a state gives up the regions handed out after it.
-/

namespace LinearAllocator

open CExec Errors Regions

/-- A state that `lalloc_get_state` returned, and the regions below it. -/
structure Snapshot where
  used : Nat
  regions : List Region

structure Session where
  alloc : Lalloc
  e : Option ErrorObject
  regions : List Region
  saved : List Snapshot

inductive Op where
  | malloc (req size : Nat)
  | calloc (req size : Nat)
  | getState
  | resetToState (t : Snapshot)
  | reset

/-- The regions after a request of `n` bytes was answered. -/
def handOut (regions : List Region) (n : Nat) : Option Nat → List Region
  | none => regions
  | some ptr => ⟨ptr, n⟩ :: regions

def step (build : Build) (s : Session) : Op → Outcome Session
  | .malloc req size => do
    let (ptr, a, e) ← lmalloc build s.alloc req size s.e
    .ok { s with alloc := a, e := e, regions := handOut s.regions (req * size) ptr }
  | .calloc req size => do
    let (ptr, a, e) ← lcalloc build s.alloc req size s.e
    .ok { s with alloc := a, e := e, regions := handOut s.regions (req * size) ptr }
  | .getState => .ok { s with saved := ⟨lallocGetState s.alloc, s.regions⟩ :: s.saved }
  | .resetToState t =>
    .ok { s with alloc := lallocResetToState s.alloc t.used, regions := t.regions }
  | .reset => do
    let a ← lallocReset build s.alloc
    .ok { s with alloc := a, regions := [] }

def Permitted (s : Session) : Op → Prop
  | .malloc req size | .calloc req size => 0 < req ∧ 0 < size
  | .resetToState t => t ∈ s.saved
  | .getState | .reset => True

/-- The sessions that a run over `data[0..limit)` reaches. -/
inductive Run (build : Build) (data limit : Nat) : Session → Prop where
  | create {a : Lalloc} {e : Option ErrorObject} :
      0 < data → 0 < limit → limit < 2 ^ 32 → lallocCreate build data limit = .ok a →
        Run build data limit ⟨a, e, [], []⟩
  | next {s s' : Session} {op : Op} :
      Run build data limit s → Permitted s op → step build s op = .ok s' → Run build data limit s'

/-- What holds after every step of a session. -/
structure Session.Kept (data limit : Nat) (s : Session) : Prop where
  data_pos : 0 < data
  limit_lt : limit < 2 ^ 32
  data_eq : s.alloc.data = data
  limit_eq : s.alloc.limit = limit
  used_le : s.alloc.used ≤ limit
  stacked : Stacked data s.regions s.alloc.used
  saved : ∀ t ∈ s.saved, t.used ≤ limit ∧ Stacked data t.regions t.used

section Runs

variable {build : Build} {data limit req size : Nat} {a a' : Lalloc} {s s' : Session} {op : Op}
  {ptr : Option Nat} {e e' : Option ErrorObject}

theorem Session.Kept.valid (kept : s.Kept data limit) : s.alloc.Valid :=
  ⟨kept.data_eq ▸ kept.data_pos, kept.limit_eq ▸ kept.used_le⟩

/-- `lcalloc` allocates as `lmalloc` does, and its `memset` stays inside the region. -/
theorem lcalloc_eq (hused : a.used ≤ a.limit) (hlimit : a.limit < 2 ^ 32) :
    lcalloc build a req size e = lmalloc build a req size e := by
  cases hmalloc : lmalloc build a req size e with
  | error fault =>
    rw [lcalloc, hmalloc]
    rfl
  | ok result =>
    obtain ⟨ptr, a', e'⟩ := result
    rw [lcalloc, hmalloc, ok_bind]
    rcases lmalloc_cases hused hlimit hmalloc with ⟨hfits, rfl, rfl, -⟩ | ⟨-, rfl, -⟩
    · have hinside : a.data ≤ a.data + a.used ∧
          a.data + a.used + u32 (req * size) ≤ a.data + a.limit := by
        rw [u32_of_lt (by omega)]
        omega
      dsimp only
      rw [access_pos hinside, ok_bind]
    · rfl

theorem Session.Kept.answered (kept : s.Kept data limit)
    (hrun : lmalloc build s.alloc req size s.e = .ok (ptr, a', e')) :
    Session.Kept data limit
      { s with alloc := a', e := e', regions := handOut s.regions (req * size) ptr } := by
  have hused := kept.valid.2
  have hlimit := kept.limit_lt
  have hdata := kept.data_eq
  have hlimit_eq := kept.limit_eq
  rcases lmalloc_cases hused (by omega) hrun with ⟨hfits, rfl, rfl, -⟩ | ⟨-, rfl, rfl⟩
  · refine ⟨kept.data_pos, hlimit, hdata, hlimit_eq, ?_, ?_, kept.saved⟩
    · show s.alloc.used + req * size ≤ limit
      omega
    · rw [hdata]
      exact kept.stacked.push (req * size)
  · exact ⟨kept.data_pos, hlimit, hdata, hlimit_eq, kept.used_le, kept.stacked, kept.saved⟩

/-- One step keeps the session. -/
theorem step_kept (kept : s.Kept data limit) (permitted : Permitted s op)
    (hstep : step build s op = .ok s') : s'.Kept data limit := by
  have hlimit := kept.limit_lt
  have hlimit_eq := kept.limit_eq
  cases op with
  | malloc req size =>
    obtain ⟨⟨ptr, a', e'⟩, hmalloc, hstep⟩ := bind_eq_ok.mp hstep
    obtain rfl := Except.ok.inj hstep
    exact kept.answered hmalloc
  | calloc req size =>
    obtain ⟨⟨ptr, a', e'⟩, hcalloc, hstep⟩ := bind_eq_ok.mp hstep
    obtain rfl := Except.ok.inj hstep
    rw [lcalloc_eq kept.valid.2 (by omega)] at hcalloc
    exact kept.answered hcalloc
  | getState =>
    obtain rfl := Except.ok.inj hstep
    refine ⟨kept.data_pos, hlimit, kept.data_eq, hlimit_eq, kept.used_le, kept.stacked, ?_⟩
    intro t ht
    rcases List.mem_cons.mp ht with rfl | ht
    · exact ⟨kept.used_le, kept.stacked⟩
    · exact kept.saved t ht
  | resetToState t =>
    obtain rfl := Except.ok.inj hstep
    obtain ⟨hused, hstacked⟩ := kept.saved t permitted
    exact ⟨kept.data_pos, hlimit, kept.data_eq, hlimit_eq, hused, hstacked, kept.saved⟩
  | reset =>
    obtain ⟨a', hreset, hstep⟩ := bind_eq_ok.mp hstep
    obtain rfl := Except.ok.inj hstep
    obtain ⟨_, -, hreset⟩ := bind_eq_ok.mp hreset
    obtain rfl := Except.ok.inj hreset
    exact ⟨kept.data_pos, hlimit, kept.data_eq, hlimit_eq, Nat.zero_le _, Stacked.nil, kept.saved⟩

theorem Run.kept (run : Run build data limit s) : s.Kept data limit := by
  induction run with
  | create hdata hpos hlt hcreate =>
    obtain ⟨_, -, hcreate⟩ := bind_eq_ok.mp hcreate
    obtain ⟨_, -, hcreate⟩ := bind_eq_ok.mp hcreate
    obtain rfl := Except.ok.inj hcreate
    exact ⟨hdata, hlt, rfl, rfl, Nat.zero_le _, Stacked.nil, fun _ ht => absurd ht List.not_mem_nil⟩
  | next _ permitted hstep ih => exact step_kept ih permitted hstep

end Runs

/-- The call returns; it fails exactly when the request exceeds what is left,
and then changes nothing. -/
def FailsExactly
    (call : Build → Lalloc → Nat → Nat → Option ErrorObject →
      Outcome (Option Nat × Lalloc × Option ErrorObject))
    (build : Build) (a : Lalloc) (req size : Nat) : Prop :=
  ∀ e, ∃ ptr a' e', call build a req size e = .ok (ptr, a', e') ∧
    (ptr = none ↔ a.limit - a.used < req * size) ∧ (ptr = none → a' = a)

section Requests

variable {build : Build} {data limit req size : Nat} {a : Lalloc} {s : Session}

/-- The comparison refuses what is left as well. -/
theorem lmalloc_failsExactly_iff (valid : a.Valid) (hlimit : a.limit < 2 ^ 32) (hreq : 0 < req)
    (hsize : 0 < size) :
    FailsExactly lmalloc build a req size ↔ req * size ≠ a.limit - a.used := by
  by_cases hfits : req * size < a.limit - a.used
  · refine iff_of_true (fun e => ?_) (by omega)
    have hserved : lmalloc build a req size e =
        .ok (some (a.data + a.used), { a with used := a.used + req * size }, e) :=
      lmalloc_fits valid hlimit (fun _ => ⟨hreq, hsize⟩) hfits
    refine ⟨_, _, _, hserved, iff_of_false (Option.some_ne_none _) (by omega), ?_⟩
    intro h
    cases h
  · have hrefused : ∀ e, ∃ e', lmalloc build a req size e = .ok (none, a, e') := fun e =>
      lmalloc_full valid hlimit (fun _ => ⟨hreq, hsize⟩) (not_lt.mp hfits)
    constructor
    · intro fails
      obtain ⟨ptr, a', e', hrun, hnone, -⟩ := fails none
      obtain ⟨e'', hrefuse⟩ := hrefused none
      rw [hrefuse] at hrun
      obtain ⟨rfl, -⟩ := ok_pair_inj hrun
      have := hnone.mp rfl
      omega
    · intro hne e
      obtain ⟨e', hrefuse⟩ := hrefused e
      exact ⟨none, a, e', hrefuse, iff_of_true rfl (by omega), fun _ => rfl⟩

theorem lcalloc_failsExactly_iff (valid : a.Valid) (hlimit : a.limit < 2 ^ 32) :
    FailsExactly lcalloc build a req size ↔ FailsExactly lmalloc build a req size := by
  refine forall_congr' fun e => ?_
  rw [lcalloc_eq valid.2 hlimit]

/-- Over every run the regions fill the used bytes, and a request is answered
right if and only if it is not for all that is left. -/
theorem hands_out_all_iff (run : Run build data limit s) (hreq : 0 < req) (hsize : 0 < size) :
    (s.regions.Pairwise Region.Apart ∧ (∀ r ∈ s.regions, r.Inside ⟨data, limit⟩) ∧
      (s.regions.map Region.bytes).sum = s.alloc.used ∧ s.alloc.used ≤ limit) ∧
    (FailsExactly lmalloc build s.alloc req size ∧ FailsExactly lcalloc build s.alloc req size ↔
      req * size ≠ limit - s.alloc.used) := by
  have kept := run.kept
  have hlimit : s.alloc.limit < 2 ^ 32 := kept.limit_eq.symm ▸ kept.limit_lt
  constructor
  · exact ⟨kept.stacked.apart, kept.stacked.inside kept.used_le, kept.stacked.bytes, kept.used_le⟩
  · rw [lcalloc_failsExactly_iff kept.valid hlimit, and_self,
      lmalloc_failsExactly_iff kept.valid hlimit hreq hsize, kept.limit_eq]

/-- Ten bytes at address 100, before the first request. -/
def tenBytes : Session := ⟨⟨0, 10, 100⟩, none, [], []⟩

theorem hands_out_all_iff_rewound :
    (([⟨100, 4⟩] : List Region).Pairwise Region.Apart ∧
      (∀ r ∈ ([⟨100, 4⟩] : List Region), r.Inside ⟨100, 10⟩) ∧ 4 = 4 ∧ 4 ≤ 10) ∧
    (FailsExactly lmalloc .debug ⟨4, 10, 100⟩ 1 5 ∧ FailsExactly lcalloc .debug ⟨4, 10, 100⟩ 1 5 ↔
      1 * 5 ≠ 10 - 4) := by
  have created : Run .debug 100 10 tenBytes := .create (by decide) (by decide) (by decide) rfl
  have saved : Run .debug 100 10 ⟨⟨0, 10, 100⟩, none, [], [⟨0, []⟩]⟩ := by
    refine .next created (?_ : Permitted _ .getState) rfl
    exact trivial
  have served : Run .debug 100 10 ⟨⟨7, 10, 100⟩, none, [⟨100, 7⟩], [⟨0, []⟩]⟩ := by
    refine .next saved (?_ : Permitted _ (.malloc 7 1)) rfl
    exact ⟨by decide, by decide⟩
  have rewound : Run .debug 100 10 ⟨⟨0, 10, 100⟩, none, [], [⟨0, []⟩]⟩ := by
    refine .next served (?_ : Permitted _ (.resetToState ⟨0, []⟩)) rfl
    exact List.mem_singleton.mpr rfl
  have again : Run .debug 100 10 ⟨⟨4, 10, 100⟩, none, [⟨100, 4⟩], [⟨0, []⟩]⟩ := by
    refine .next rewound (?_ : Permitted _ (.calloc 1 4)) rfl
    exact ⟨by decide, by decide⟩
  exact hands_out_all_iff again (by decide) (by decide)

/-- All of one byte is refused. -/
theorem last_byte_refused : ¬ ∀ (limit : Nat) (s : Session) (n : Nat), Run .debug 100 limit s →
    0 < n → FailsExactly lmalloc .debug s.alloc n 1 := by
  intro h
  have created : Run .debug 100 1 ⟨⟨0, 1, 100⟩, none, [], []⟩ :=
    .create (by decide) (by decide) (by decide) rfl
  have fails := h 1 _ 1 created (by decide)
  have hvalid : Lalloc.Valid ⟨0, 1, 100⟩ := ⟨by decide, by decide⟩
  exact (lmalloc_failsExactly_iff hvalid (by decide) (by decide) (by decide)).mp fails rfl

end Requests

end LinearAllocator
