import CSpecx.Latch
import CSpecx.LinearAllocator
import CSpecx.Regions
import CSpecx.SharedCalls

/-!
# The linear allocator between threads

`lmalloc` with its latch, one access to the shared struct a step; the assertion
looks at the struct in one step. Each thread has its own error object. What a
thread does with the memory it was given needs no latch, since no other thread
is given any of it.
-/

namespace LinearAllocator

open CExec Component Errors GuardedSections Latch Regions SharedCalls

/-- The arguments of a call. -/
structure Ask where
  req : Nat
  size : Nat
  e : Option ErrorObject

/-- The pointer and the error object behind the call. -/
abbrev Given : Type := Option Nat × Option ErrorObject

def mallocCode (build : Build) (r : Ask) : Code Lalloc Nat Given :=
  .check (fun a => build.check a.Valid) <|
  .check (fun _ => build.check (0 < r.req)) <|
  .check (fun _ => build.check (0 < r.size)) <|
  if 2 ^ 32 ≤ r.req * r.size then
    .done (none, causef r.e errNomem ⟨"alloc %d*%d: overflow", [r.req, r.size]⟩)
  else
    .read Lalloc.limit fun limit =>
    .read Lalloc.used fun used =>
    if sub32 limit used ≤ r.req * r.size then
      .done (none, causef r.e errNomem ⟨"linear alloc %d bytes: only %d remaining",
        [(r.req * r.size : Nat), (sub32 limit used : Nat)]⟩)
    else
      .read Lalloc.data fun data =>
      .read Lalloc.used fun ofst =>
      .read Lalloc.used fun used =>
      .write (fun a => .ok { a with used := u32 (used + r.req * r.size) }) <|
      .done (some (data + ofst), r.e)

/-- Without a break the accesses are the call. -/
theorem run_mallocCode (build : Build) (r : Ask) (a : Lalloc) : (mallocCode build r).run a =
    (lmalloc build a r.req r.size r.e >>=
      fun result => .ok ((result.1, result.2.2), result.2.1)) := by
  rw [mallocCode, Code.run_check, lmalloc]
  cases build.check a.Valid with
  | error e => rfl
  | ok u =>
    rw [ok_bind, ok_bind, Code.run_check]
    cases build.check (0 < r.req) with
    | error e => rfl
    | ok u =>
      rw [ok_bind, ok_bind, Code.run_check]
      cases build.check (0 < r.size) with
      | error e => rfl
      | ok u =>
        rw [ok_bind, ok_bind]
        by_cases hover : 2 ^ 32 ≤ r.req * r.size
        · rw [if_pos hover, if_pos hover]
          rfl
        · rw [if_neg hover, if_neg hover, Code.run_read, Code.run_read]
          by_cases hfull : sub32 a.limit a.used ≤ r.req * r.size
          · rw [if_pos hfull, if_pos hfull]
            rfl
          · rw [if_neg hfull, if_neg hfull]
            rfl

/-- The regions that a run of calls has handed out. -/
def granted (tr : List (Ask × Given)) : List Region :=
  tr.filterMap fun entry => entry.2.1.map fun ptr => ⟨ptr, entry.1.req * entry.1.size⟩

/-- The states of threads that ask a new allocator for memory. -/
def Askers {T : Type} [DecidableEq T] (build : Build) (given : T → List Ask) (data limit : Nat) :
    State T (Work Ask Given) Ask (Code Lalloc Nat Given) Lalloc (Memory T) → Prop :=
  Steps (workers (mallocCode build)) latch
    (.initial latchInit (fun q => ⟨given q, []⟩) ⟨0, limit, data⟩)

/-- An allocator over `data[0..limit)`. -/
structure Over (data limit : Nat) (a : Lalloc) : Prop where
  data_pos : 0 < data
  limit_lt : limit < 2 ^ 32
  data_eq : a.data = data
  limit_eq : a.limit = limit
  used_le : a.used ≤ limit

section Threads

variable {build : Build} {data limit : Nat} {a a' : Lalloc} {r : Ask} {given : Given}
  {tr : List (Ask × Given)} {rs : List Region}

theorem Over.valid (covers : Over data limit a) : a.Valid :=
  ⟨covers.data_eq ▸ covers.data_pos, covers.limit_eq ▸ covers.used_le⟩

/-- A call that returns hands out the next bytes, or what is left is too small. -/
theorem Over.call (covers : Over data limit a)
    (hrun : (mallocCode build r).run a = .ok (given, a')) :
    Over data limit a' ∧
      ((given.1 = some (data + a.used) ∧ a'.used = a.used + r.req * r.size) ∨
        (given.1 = none ∧ a' = a ∧ limit ≤ a.used + r.req * r.size)) := by
  have hused : a.used ≤ a.limit := covers.valid.2
  have hlimit : a.limit < 2 ^ 32 := covers.limit_eq ▸ covers.limit_lt
  rw [run_mallocCode] at hrun
  obtain ⟨⟨ptr, a₁, e⟩, hmalloc, hresult⟩ := bind_eq_ok.mp hrun
  obtain ⟨rfl, rfl⟩ := ok_pair_inj hresult
  have hdata := covers.data_eq
  have hlim := covers.limit_eq
  obtain ⟨hfits, rfl, rfl, -⟩ | ⟨hfull, rfl, rfl⟩ := lmalloc_cases hused hlimit hmalloc
  · refine ⟨⟨covers.data_pos, covers.limit_lt, hdata, hlim, ?_⟩, .inl ⟨?_, rfl⟩⟩
    · show a.used + r.req * r.size ≤ limit
      omega
    · rw [hdata]
  · exact ⟨covers, .inr ⟨rfl, rfl, by omega⟩⟩

theorem Over.step (covers : Over data limit a) (hpos : build = .debug → 0 < r.req ∧ 0 < r.size) :
    ∃ given a', (mallocCode build r).run a = .ok (given, a') ∧ Over data limit a' := by
  have hlimit : a.limit < 2 ^ 32 := covers.limit_eq ▸ covers.limit_lt
  have hreturns : ∃ result, lmalloc build a r.req r.size r.e = .ok result := by
    by_cases hfits : r.req * r.size < a.limit - a.used
    · exact ⟨_, lmalloc_fits covers.valid hlimit hpos hfits⟩
    · obtain ⟨e', hrun⟩ := lmalloc_full covers.valid hlimit hpos (Nat.le_of_not_lt hfits)
      exact ⟨_, hrun⟩
  obtain ⟨⟨ptr, a', e'⟩, hrun⟩ := hreturns
  have hcode : (mallocCode build r).run a = .ok ((ptr, e'), a') := by
    rw [run_mallocCode, hrun, ok_bind]
  exact ⟨_, _, hcode, (covers.call hcode).1⟩

theorem granted_some {ptr : Nat} (h : given.1 = some ptr) :
    granted ((r, given) :: tr) = ⟨ptr, r.req * r.size⟩ :: granted tr := by
  rw [granted, List.filterMap_cons, h]
  rfl

theorem granted_none (h : given.1 = none) : granted ((r, given) :: tr) = granted tr := by
  rw [granted, List.filterMap_cons, h]
  rfl

/-- A run of calls stacks the regions that it hands out. -/
theorem Over.run {pre : Lalloc → Ask → Prop} (covers : Over data limit a)
    (stacked : Stacked data rs a.used) (run : Trace (calling pre (mallocCode build)) a tr a') :
    Over data limit a' ∧ Stacked data ((granted tr).reverse ++ rs) a'.used ∧
      a.used ≤ a'.used ∧ ∀ entry ∈ tr, entry.2.1 = none →
        limit ≤ a'.used + entry.1.req * entry.1.size := by
  induction run generalizing rs with
  | nil a => exact ⟨covers, stacked, Nat.le_refl _, fun _ h => absurd h List.not_mem_nil⟩
  | @cons a a₁ a₂ r given tr _ hrun _ ih =>
    obtain ⟨covers₁, ⟨hptr, hused⟩ | ⟨hnone, rfl, hfull⟩⟩ := covers.call hrun
    · have stacked₁ : Stacked data (⟨data + a.used, r.req * r.size⟩ :: rs) a₁.used := by
        rw [hused]
        exact stacked.push _
      obtain ⟨covers₂, stacked₂, hle, hrefused⟩ := ih covers₁ stacked₁
      refine ⟨covers₂, ?_, by omega, fun entry hentry hnone => ?_⟩
      · rw [granted_some hptr, List.reverse_cons, List.append_assoc]
        exact stacked₂
      · rcases List.mem_cons.mp hentry with rfl | hentry
        · rw [hptr] at hnone
          cases hnone
        · exact hrefused entry hentry hnone
    · obtain ⟨covers₂, stacked₂, hle, hrefused⟩ := ih covers₁ stacked
      refine ⟨covers₂, (granted_none hnone).symm ▸ stacked₂, hle, fun entry hentry hnone => ?_⟩
      rcases List.mem_cons.mp hentry with rfl | hentry
      · show limit ≤ _ + r.req * r.size
        omega
      · exact hrefused entry hentry hnone

end Threads

/-- Threads ask for memory at once, in any order of their accesses. No two regions that they are
given meet, all lie in the buffer, none is lost from the count, a request is refused only if what is
left is too small, and every thread gets its answers. -/
theorem requests_apart {T : Type} [Fintype T] [DecidableEq T] {build : Build} {asks : T → List Ask}
    {data limit : Nat} {σ : State T (Work Ask Given) Ask (Code Lalloc Nat Given) Lalloc (Memory T)}
    (hdata : 0 < data) (hlimit : limit < 2 ^ 32)
    (hasks : build = .debug → ∀ q, ∀ r ∈ asks q, 0 < r.req ∧ 0 < r.size)
    (steps : Askers build asks data limit σ) :
    (∃ log, Logged asks (fun q => (σ.places q).locals) log ∧
      (granted (log.map Prod.snd)).Pairwise Region.Apart ∧
      (∀ r ∈ granted (log.map Prod.snd), r.Inside ⟨data, limit⟩) ∧
      (∀ entry ∈ log, entry.2.2.1 = none → limit ≤
        ((granted (log.map Prod.snd)).map Region.bytes).sum + entry.2.1.req * entry.2.1.size) ∧
      ((∀ q, σ.stages q ≠ .inside) →
        σ.data.used = ((granted (log.map Prod.snd)).map Region.bytes).sum)) ∧
    CanEnd (mallocCode build) latch σ := by
  have covers : Over data limit ⟨0, limit, data⟩ := ⟨hdata, hlimit, rfl, rfl, Nat.zero_le _⟩
  have served :
      Served asks (mallocCode build) (fun _ _ => True) (Over data limit) ⟨0, limit, data⟩ :=
    ⟨covers, fun covers hr => ⟨trivial, covers.step fun h => hasks h _ _ hr⟩⟩
  obtain ⟨⟨log, a, logged, trace, hclosed⟩, hends⟩ := workers_linearize exclusive obliging
    (C := calling (fun _ _ => True) (mallocCode build)) (fun _ _ => rfl) served steps
  obtain ⟨covers', stacked, -, hrefused⟩ := covers.run Stacked.nil trace
  rw [List.append_nil] at stacked
  have hsum : ((granted (log.map Prod.snd)).map Region.bytes).sum = a.used := by
    rw [← stacked.bytes, List.map_reverse, List.sum_reverse]
  refine ⟨⟨log, logged, ?_, fun r hr => ?_, fun entry hentry hnone => ?_, fun hnone => ?_⟩, hends⟩
  · exact (List.pairwise_reverse.mp stacked.apart).imp Region.Apart.symm
  · exact stacked.inside covers'.used_le r (List.mem_reverse.mpr hr)
  · rw [hsum]
    exact hrefused entry.2 (List.mem_map_of_mem hentry) hnone
  · rw [hsum, hclosed hnone]

/-- Two threads have asked for the larger part of a buffer each, and both have their answers. -/
theorem requests_apart_two : ∃ σ log, Askers .debug (fun _ : Fin 2 => [⟨5, 1, none⟩]) 100 8 σ ∧
    (∀ q, (σ.places q).locals.todo = []) ∧
    Logged (fun _ => [⟨5, 1, none⟩]) (fun q => (σ.places q).locals) log ∧
    (granted (log.map Prod.snd)).Pairwise Region.Apart ∧
    ∀ r ∈ granted (log.map Prod.snd), r.Inside ⟨100, 8⟩ := by
  have hasks : Build.debug = .debug → ∀ q : Fin 2, ∀ r ∈ (fun _ : Fin 2 => [Ask.mk 5 1 none]) q,
      0 < r.req ∧ 0 < r.size := by
    intro _ q r hr
    rw [List.mem_singleton.mp hr]
    decide
  have begun : Askers .debug (fun _ : Fin 2 => [⟨5, 1, none⟩]) 100 8
      (.initial latchInit (fun _ => ⟨[⟨5, 1, none⟩], []⟩) ⟨0, 8, 100⟩) := .refl
  obtain ⟨-, σ, steps, hends⟩ := requests_apart (by decide) (by decide) hasks begun
  obtain ⟨⟨log, logged, hapart, hinside, -⟩, -⟩ :=
    requests_apart (by decide) (by decide) hasks steps
  refine ⟨σ, log, steps, fun q => ?_, logged, hapart, hinside⟩
  obtain ⟨_, hplace⟩ := hends q
  rw [hplace]
  rfl

end LinearAllocator
