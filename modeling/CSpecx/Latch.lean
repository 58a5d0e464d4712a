import CSpecx.GuardedSections
import Mathlib.Algebra.BigOperators.Ring.Finset

/-!
# The latch

`latch.h`: an atomic integer that is 0 while the latch is free. Each atomic
operation is one sequentially consistent step, and a weak compare-exchange may
fail although the value is the expected one. The test of `latch.c` adds to a
plain integer behind it.
-/

namespace Latch

open CExec GuardedSections

/-- Where a thread is in `latch_lock`, with the `val` it compares with. -/
inductive Pc where
  | ready
  | fast
  | spin
  | retry (val : Int)
  | held
  deriving DecidableEq, Repr

def Pc.stage : Pc → Stage
  | ready => .out
  | fast => .trying
  | spin => .trying
  | retry _ => .trying
  | held => .inside

theorem stage_out {pc : Pc} (h : pc.stage = .out) : pc = .ready := by
  cases pc with
  | ready => rfl
  | _ => cases h

theorem stage_inside {pc : Pc} (h : pc.stage = .inside) : pc = .held := by
  cases pc with
  | held => rfl
  | _ => cases h

structure Memory (T : Type) where
  word : Int
  pcs : T → Pc

/-- `latch_init`. -/
def latchInit {T : Type} : Memory T := ⟨0, fun _ => .ready⟩

/-- `atomic_compare_exchange_weak_explicit (l, &val, 1, ..)` and where the loop goes on: `ok`
is false if it fails for no reason. -/
def exchange (ok : Bool) (word val : Int) : Int × Pc :=
  if word = val ∧ ok = true then (1, .held) else (word, .spin)

/-- The next atomic operation of `latch_lock`. -/
def latchLock (ok : Bool) (word : Int) : Pc → Option (Int × Pc)
  | .fast => some (exchange ok word 0)
  | .spin => some (word, if word ≠ 0 then .spin else .retry word)
  | .retry val => some (exchange ok word val)
  | _ => none

/-- The one of `latch_unlock`. -/
def latchUnlock : Pc → Option (Int × Pc)
  | .held => some (0, .ready)
  | _ => none

section Locks

variable {T : Type}

def Memory.put [DecidableEq T] (m : Memory T) (t : T) (word : Int) (pc : Pc) : Memory T :=
  ⟨word, Function.update m.pcs t pc⟩

def latch [DecidableEq T] : Lock T (Memory T) where
  step m t
    | .call, m' => m.pcs t = .ready ∧ m' = m.put t m.word .fast
    | .spin, m' => ∃ ok word pc, latchLock ok m.word (m.pcs t) = some (word, pc) ∧ pc ≠ .held ∧
        m' = m.put t word pc
    | .acquire, m' => ∃ ok word, latchLock ok m.word (m.pcs t) = some (word, .held) ∧
        m' = m.put t word .held
    | .release, m' => ∃ word pc, latchUnlock (m.pcs t) = some (word, pc) ∧ m' = m.put t word pc

/-- The word tells whether a thread is inside, and a repeated exchange expects it free. -/
structure Guards (m : Memory T) (g : T → Stage) : Prop where
  stages : ∀ t, (m.pcs t).stage = g t
  word : m.word = 0 ∧ (∀ t, g t ≠ .inside) ∨
    m.word = 1 ∧ ∃ t, g t = .inside ∧ ∀ q, q ≠ t → g q ≠ .inside
  expects : ∀ t val, m.pcs t = .retry val → val = 0

variable {m : Memory T} {g : T → Stage} {t : T} {word : Int} {pc : Pc} {ok : Bool}

/-- What an operation of a thread that tries does to the word. -/
theorem latchLock_cases (guards : Guards m g)
    (hstep : latchLock ok m.word (m.pcs t) = some (word, pc)) :
    pc = .held ∧ m.word = 0 ∧ word = 1 ∨
      pc.stage = .trying ∧ word = m.word ∧ ∀ val, pc = .retry val → val = 0 := by
  have hexchange : ∀ val, val = 0 → exchange ok m.word val = (word, pc) →
      pc = .held ∧ m.word = 0 ∧ word = 1 ∨
        pc.stage = .trying ∧ word = m.word ∧ ∀ val, pc = .retry val → val = 0 := by
    rintro val rfl h
    by_cases hok : m.word = 0 ∧ ok = true
    · rw [exchange, if_pos hok] at h
      obtain ⟨rfl, rfl⟩ := Prod.mk.inj h
      exact Or.inl ⟨rfl, hok.1, rfl⟩
    · rw [exchange, if_neg hok] at h
      obtain ⟨rfl, rfl⟩ := Prod.mk.inj h
      exact Or.inr ⟨rfl, rfl, fun _ h => Pc.noConfusion h⟩
  cases hpc : m.pcs t with
  | ready =>
    rw [hpc] at hstep
    cases hstep
  | held =>
    rw [hpc] at hstep
    cases hstep
  | fast =>
    rw [hpc] at hstep
    exact hexchange 0 rfl (Option.some.inj hstep)
  | retry val =>
    rw [hpc] at hstep
    exact hexchange val (guards.expects t val hpc) (Option.some.inj hstep)
  | spin =>
    rw [hpc] at hstep
    obtain ⟨rfl, rfl⟩ := Prod.mk.inj (Option.some.inj hstep)
    refine Or.inr ?_
    by_cases hfree : m.word ≠ 0
    · rw [if_pos hfree]
      exact ⟨rfl, rfl, fun _ h => Pc.noConfusion h⟩
    · rw [if_neg hfree]
      refine ⟨rfl, rfl, fun val h => ?_⟩
      rw [← Pc.retry.inj h]
      exact not_not.mp hfree

variable [DecidableEq T]

/-- A thread moves, and the others stay where they are. -/
theorem Guards.put (guards : Guards m g) (hexpects : ∀ val, pc = .retry val → val = 0)
    (hword : word = 0 ∧ (∀ q, Function.update g t pc.stage q ≠ .inside) ∨
      word = 1 ∧ ∃ u, Function.update g t pc.stage u = .inside ∧
        ∀ q, q ≠ u → Function.update g t pc.stage q ≠ .inside) :
    Guards (m.put t word pc) (Function.update g t pc.stage) := by
  refine ⟨fun q => ?_, hword, fun q val hq => ?_⟩
  · by_cases hqt : q = t
    · simp [Memory.put, hqt]
    · simpa [Memory.put, hqt] using guards.stages q
  · by_cases hqt : q = t
    · rw [hqt] at hq
      exact hexpects val (by simpa [Memory.put] using hq)
    · exact guards.expects q val (by simpa [Memory.put, hqt] using hq)

/-- A move between two stages outside keeps the word. -/
theorem Guards.wander (guards : Guards m g) (hold : g t ≠ .inside) (hnew : pc.stage ≠ .inside)
    (hexpects : ∀ val, pc = .retry val → val = 0) :
    Guards (m.put t m.word pc) (Function.update g t pc.stage) := by
  refine guards.put hexpects ?_
  have hothers : ∀ q, g q ≠ .inside → Function.update g t pc.stage q ≠ .inside := by
    intro q hq
    by_cases hqt : q = t
    · rwa [hqt, Function.update_self]
    · rwa [Function.update_of_ne hqt]
  rcases guards.word with ⟨hzero, hnone⟩ | ⟨hone, u, hu, hunique⟩
  · exact Or.inl ⟨hzero, fun q => hothers q (hnone q)⟩
  · have hut : u ≠ t := fun h => hold (h ▸ hu)
    exact Or.inr ⟨hone, u, (Function.update_of_ne hut _ _).trans hu,
      fun q hq => hothers q (hunique q hq)⟩

theorem exclusive : Exclusive (latch (T := T)) latchInit Guards where
  initial := ⟨fun _ => rfl, Or.inl ⟨rfl, fun _ => Stage.noConfusion⟩, fun _ _ h => Pc.noConfusion h⟩
  call := by
    rintro m g t m' guards hout ⟨-, rfl⟩
    have hfast : Pc.fast.stage ≠ .inside := Stage.noConfusion
    exact guards.wander (hout ▸ Stage.noConfusion) hfast fun _ h => Pc.noConfusion h
  spin := by
    rintro m g t m' guards htrying ⟨ok, word, pc, hstep, hheld, rfl⟩
    rcases latchLock_cases guards hstep with ⟨rfl, -, -⟩ | ⟨hstage, rfl, hexpects⟩
    · exact absurd rfl hheld
    · have moved := guards.wander (t := t) (htrying ▸ Stage.noConfusion)
        (hstage ▸ Stage.noConfusion) hexpects
      rwa [Function.update_eq_self_iff.mpr (hstage.trans htrying.symm)] at moved
  acquire := by
    rintro m g t m' guards htrying ⟨ok, word, hstep, rfl⟩
    rcases latchLock_cases guards hstep with ⟨-, hzero, rfl⟩ | ⟨hstage, -, -⟩
    · rcases guards.word with ⟨-, hnone⟩ | ⟨hone, -⟩
      · refine ⟨hnone, guards.put (fun _ h => Pc.noConfusion h)
          (Or.inr ⟨rfl, t, Function.update_self .., fun q hq => ?_⟩)⟩
        rw [Function.update_of_ne hq]
        exact hnone q
      · omega
    · exact Stage.noConfusion hstage
  release := by
    rintro m g t m' guards hinside ⟨word, pc, hstep, rfl⟩
    have hpc := stage_inside ((guards.stages t).trans hinside)
    rw [hpc] at hstep
    obtain ⟨rfl, rfl⟩ := Prod.mk.inj (Option.some.inj hstep)
    refine guards.put (fun _ h => Pc.noConfusion h) (Or.inl ⟨rfl, fun q => ?_⟩)
    by_cases hq : q = t
    · rw [hq, Function.update_self]
      exact Stage.noConfusion
    · rw [Function.update_of_ne hq]
      rcases guards.word with ⟨-, hnone⟩ | ⟨-, u, hu, hunique⟩
      · exact hnone q
      · refine hunique q fun hqu => hq ?_
        by_contra hne
        exact hunique t (fun htu => hne (hqu.trans htu.symm)) hinside

/-- A thread that tries while nobody is inside needs one exchange, after a load if it spins. -/
theorem obliging : Obliging (latch (T := T)) Guards where
  call := by
    intro m g t guards hout
    exact ⟨_, stage_out ((guards.stages t).trans hout), rfl⟩
  acquire := by
    intro m g t guards htrying hfree
    have hzero : m.word = 0 := by
      rcases guards.word with ⟨hzero, -⟩ | ⟨-, u, hu, -⟩
      · exact hzero
      · exact absurd hu (hfree u)
    have hgot : ∀ val, val = 0 → exchange true m.word val = (1, .held) := by
      rintro val rfl
      rw [exchange, if_pos ⟨hzero, rfl⟩]
    have hstage := guards.stages t
    rw [htrying] at hstage
    cases hpc : m.pcs t with
    | ready =>
      rw [hpc] at hstage
      cases hstage
    | held =>
      rw [hpc] at hstage
      cases hstage
    | fast =>
      refine ⟨m, _, .refl, true, 1, ?_, rfl⟩
      rw [hpc, latchLock, hgot 0 rfl]
    | retry val =>
      refine ⟨m, _, .refl, true, 1, ?_, rfl⟩
      rw [hpc, latchLock, hgot val (guards.expects t val hpc)]
    | spin =>
      refine ⟨m.put t m.word (.retry m.word), _, .single ⟨true, m.word, .retry m.word, ?_,
        Pc.noConfusion, rfl⟩, true, 1, ?_, rfl⟩
      · rw [hpc, latchLock, if_neg (not_not.mpr hzero)]
      · show latchLock true m.word (Function.update m.pcs t (.retry m.word) t) = _
        rw [Function.update_self, latchLock, hgot m.word hzero]
  release := by
    intro m g t guards hinside
    have hpc := stage_inside ((guards.stages t).trans hinside)
    exact ⟨_, 0, .ready, by rw [hpc]; rfl, rfl⟩

end Locks

/-! ## Schedules -/

/-- What a thread does next. The operation on the word fails for no reason if it is not `ok`. -/
inductive Move (Op : Type) where
  | call (op : Op)
  | exchange (ok : Bool)
  | access
  | release

section Schedules

variable {T S Op R C D : Type} [DecidableEq T] {P : Program S Op R C D}
  {σ σ' : State T S Op C D (Memory T)} {t : T}

/-- The state the thread leads to, if it can move in this way. -/
def move (P : Program S Op R C D) [∀ s op, Decidable (P.asks s op)]
    (σ : State T S Op C D (Memory T)) (t : T) : Move Op → Option (State T S Op C D (Memory T))
  | .call op =>
    match σ.places t with
    | .outside s =>
      if P.asks s op ∧ σ.lock.pcs t = .ready then
        some ⟨σ.lock.put t σ.lock.word .fast, Function.update σ.places t (.trying s op), σ.data⟩
      else none
    | _ => none
  | .exchange ok =>
    match σ.places t, latchLock ok σ.lock.word (σ.lock.pcs t) with
    | .trying s op, some (word, pc) =>
      if pc = .held then
        some ⟨σ.lock.put t word .held,
        Function.update σ.places t (.inside s op (P.start op)), σ.data⟩
      else some ⟨σ.lock.put t word pc, σ.places, σ.data⟩
    | _, _ => none
  | .access =>
    match σ.places t with
    | .inside s op c =>
      match P.result c, P.access c σ.data with
      | none, .ok (c', d) => some ⟨σ.lock, Function.update σ.places t (.inside s op c'), d⟩
      | _, _ => none
    | _ => none
  | .release =>
    match σ.places t with
    | .inside s op c =>
      match P.result c, latchUnlock (σ.lock.pcs t) with
      | some r, some (word, pc) =>
        some ⟨σ.lock.put t word pc, Function.update σ.places t (.outside (P.absorb s op r)), σ.data⟩
      | _, _ => none
    | _ => none

def moves (P : Program S Op R C D) [∀ s op, Decidable (P.asks s op)] :
    List (T × Move Op) → State T S Op C D (Memory T) → Option (State T S Op C D (Memory T))
  | [], σ => some σ
  | (t, m) :: rest, σ => (move P σ t m).bind (moves P rest)

variable [∀ s op, Decidable (P.asks s op)]

theorem move_step {m : Move Op} (h : move P σ t m = some σ') : Step P latch σ σ' := by
  cases m with
  | call op =>
    simp only [move] at h
    split at h
    · next s hplace =>
      split at h
      · next hcan =>
        obtain rfl := Option.some.inj h
        exact .call hplace hcan.1 ⟨hcan.2, rfl⟩
      · cases h
    · cases h
  | exchange ok =>
    simp only [move] at h
    split at h
    · next s op word pc hplace hlock =>
      split at h
      · next hheld =>
        obtain rfl := Option.some.inj h
        exact .acquire hplace ⟨ok, word, hheld ▸ hlock, rfl⟩
      · next hheld =>
        obtain rfl := Option.some.inj h
        exact .spin hplace ⟨ok, word, pc, hlock, hheld, rfl⟩
    · cases h
  | access =>
    simp only [move] at h
    split at h
    · next s op c hplace =>
      split at h
      · next hresult haccess =>
        obtain rfl := Option.some.inj h
        exact .access hplace hresult haccess
      · cases h
    · cases h
  | release =>
    simp only [move] at h
    split at h
    · next s op c hplace =>
      split at h
      · next r word pc hresult hlock =>
        obtain rfl := Option.some.inj h
        exact .release hplace hresult ⟨word, pc, hlock, rfl⟩
      · cases h
    · cases h

/-- A schedule that runs is a run. -/
theorem moves_steps {l : List (T × Move Op)} (h : moves P l σ = some σ') : Steps P latch σ σ' := by
  induction l generalizing σ with
  | nil =>
    obtain rfl := Option.some.inj h
    exact .refl
  | cons m rest ih =>
    obtain ⟨σ₁, hmove, hrest⟩ := Option.bind_eq_some_iff.mp h
    exact .head (move_step hmove) (ih hrest)

end Schedules

/-- Where a thread is in the loop body of `data_thread`, with the value it has read. -/
inductive AddCode where
  | load
  | store (value : Int)
  | done
  deriving DecidableEq, Repr

/-- `d->value += 1`, which is a load and a store, `iters` times behind the latch. The local
data are the loop variable. -/
def dataThread (iters : Nat) : Program Nat Unit Unit AddCode Int where
  asks i _ := i < iters
  absorb i _ _ := i + 1
  start _ := .load
  access
    | .load, value => .ok (.store value, value)
    | .store read, _ => do
      CExec.access (read + 1 < 2 ^ 31)
      .ok (.done, read + 1)
    | .done, _ => .error .undefined
  result
    | .done => some ()
    | _ => none

section Counting

variable {T : Type} [DecidableEq T] [Fintype T] {iters : Nat} {c : AddCode} {d d' : Int} {r : Unit}
  {w w' : Whole T Nat Int} {σ : State T Nat Unit AddCode Int (Memory T)}

/-- How far a body that started on `d` has got. -/
theorem dataThread_runs (runs : Runs (dataThread iters) () d c d') :
    c = .load ∧ d' = d ∨ c = .store d ∧ d' = d ∨ c = .done ∧ d' = d + 1 := by
  induction runs with
  | start => exact Or.inl ⟨rfl, rfl⟩
  | @access c c' d' d'' _ hresult haccess ih =>
    rcases ih with ⟨rfl, rfl⟩ | ⟨rfl, rfl⟩ | ⟨rfl, rfl⟩
    · obtain ⟨rfl, rfl⟩ := ok_pair_inj haccess
      exact Or.inr (Or.inl ⟨rfl, rfl⟩)
    · obtain ⟨_, _, hstore⟩ := bind_eq_ok.mp haccess
      obtain ⟨rfl, rfl⟩ := ok_pair_inj hstore
      exact Or.inr (Or.inr ⟨rfl, rfl⟩)
    · cases hresult

theorem dataThread_completes (completes : Completes (dataThread iters) d () r d') : d' = d + 1 := by
  obtain ⟨c, hruns, hresult⟩ := completes
  rcases dataThread_runs hruns with ⟨rfl, -⟩ | ⟨rfl, -⟩ | ⟨-, hd⟩
  · cases hresult
  · cases hresult
  · exact hd

/-- The value is the number of iterations done. -/
structure Counted (iters : Nat) (w : Whole T Nat Int) : Prop where
  value : w.data = ∑ t, (w.locals t : Int)
  bound : ∀ t, w.locals t ≤ iters

theorem Counted.step (counted : Counted iters w) (step : WholeStep (dataThread iters) w w') :
    Counted iters w' := by
  cases step with | @mk t op r d hasks hcompletes =>
  have hless : w.locals t < iters := hasks
  refine ⟨?_, fun q => ?_⟩
  · show d = ∑ q, ((Function.update w.locals t (w.locals t + 1) q : Nat) : Int)
    rw [dataThread_completes hcompletes, counted.value,
      ← Finset.add_sum_erase _ _ (Finset.mem_univ t),
      ← Finset.add_sum_erase _ (fun q =>
        ((Function.update w.locals t (w.locals t + 1) q : Nat) : Int))
        (Finset.mem_univ t), Function.update_self]
    have hrest : ∑ q ∈ Finset.univ.erase t,
      ((Function.update w.locals t (w.locals t + 1) q : Nat) : Int) =
        ∑ q ∈ Finset.univ.erase t, (w.locals q : Int) := by
      refine Finset.sum_congr rfl fun q hq => ?_
      rw [Function.update_of_ne (Finset.ne_of_mem_erase hq)]
    rw [hrest]
    push_cast
    omega
  · show Function.update w.locals t (w.locals t + 1) q ≤ iters
    by_cases hq : q = t
    · rw [hq, Function.update_self]
      exact hless
    · rw [Function.update_of_ne hq]
      exact counted.bound q

theorem Counted.steps (counted : Counted iters w) (steps : WholeSteps (dataThread iters) w w') :
    Counted iters w' := by
  induction steps with
  | refl => exact counted
  | tail _ step ih => exact ih.step step

omit [DecidableEq T] in
theorem counted_initial : Counted iters (⟨fun _ => 0, 0⟩ : Whole T Nat Int) :=
  ⟨by simp, fun _ => Nat.zero_le _⟩

omit [DecidableEq T] in
/-- While a thread has an iteration left, the value has room for it. -/
theorem Counted.room (counted : Counted iters w) (hsmall : Fintype.card T * iters < 2 ^ 31) {t : T}
    (hless : w.locals t < iters) : w.data + 1 < 2 ^ 31 := by
  have hsum : ∑ q, w.locals q < ∑ _q : T, iters :=
    Finset.sum_lt_sum (fun q _ => counted.bound q) ⟨t, Finset.mem_univ t, hless⟩
  rw [Finset.sum_const_nat fun _ _ => rfl, Finset.card_univ] at hsum
  have hvalue := counted.value
  rw [← Nat.cast_sum] at hvalue
  omega

theorem dataThread_finishes (hsmall : Fintype.card T * iters < 2 ^ 31) :
    Finishes (dataThread iters) (fun _ : T => 0) 0 := by
  intro w hw t op hasks c d hruns
  have hroom := (counted_initial.steps hw).room hsmall hasks
  have hstore : (dataThread iters).access (.store w.data) w.data = .ok (.done, w.data + 1) := by
    show (CExec.access (w.data + 1 < 2 ^ 31) >>= fun _ => .ok (AddCode.done, w.data + 1)) = _
    rw [access_pos hroom, ok_bind]
  have hlast : Ends (dataThread iters) (.store w.data) w.data :=
    .access rfl hstore (.now (r := ()) rfl)
  rcases dataThread_runs hruns with ⟨rfl, rfl⟩ | ⟨rfl, rfl⟩ | ⟨rfl, rfl⟩
  · exact .access rfl rfl hlast
  · exact hlast
  · exact .now (r := ()) rfl

/-- The test of the latch: no addition is lost, whatever the order of the accesses, and the
threads can always go on to their ends. -/
theorem no_addition_lost (hsmall : Fintype.card T * iters < 2 ^ 31)
    (steps : Steps (dataThread iters) latch (.initial latchInit (fun _ : T => 0) 0) σ) :
    (∀ t u, σ.stages t = .inside → σ.stages u = .inside → t = u) ∧
      ((∀ t, σ.stages t ≠ .inside) → σ.data = ∑ t, ((σ.places t).locals : Int)) ∧
      (σ.Finished (dataThread iters) → σ.data = Fintype.card T * iters) ∧
      ∃ σ', Steps (dataThread iters) latch σ σ' ∧ σ'.Finished (dataThread iters) := by
  obtain ⟨w, hw, serial⟩ := Steps.serial exclusive steps
  have counted := counted_initial.steps hw
  have hclosed : (∀ t, σ.stages t ≠ .inside) → σ.data = ∑ t, ((σ.places t).locals : Int) := by
    intro hnone
    rcases serial.data with ⟨-, hdata⟩ | ⟨t, _, _, _, hplace, -⟩
    · rw [hdata, counted.value]
      exact Finset.sum_congr rfl fun t _ => by rw [serial.locals t]
    · exact absurd (congrArg Place.stage hplace) (hnone t)
  refine ⟨fun t u ht hu => ?_, hclosed, fun hfinished => ?_,
    Steps.finish exclusive obliging (dataThread_finishes hsmall) (fun i => iters - i)
      (fun i _ _ hless => ?_) steps⟩
  · by_contra hne
    cases hplace : σ.places t with
    | inside s op c => exact (serial.open hplace).2 u (Ne.symm hne) hu
    | _ =>
      rw [State.stages, hplace] at ht
      cases ht
  · have houtside : ∀ t, σ.stages t ≠ .inside ∧ (σ.places t).locals = iters := by
      intro t
      obtain ⟨s, hplace, hdone⟩ := hfinished t
      have hle : s ≤ iters := by
        have hbound := counted.bound t
        rwa [← serial.locals t, hplace] at hbound
      have hge : ¬ s < iters := hdone ()
      rw [State.stages, hplace]
      exact ⟨Stage.noConfusion, by show s = iters; omega⟩
    have hall : ∑ t, (σ.places t).locals = Fintype.card T * iters :=
      Finset.sum_const_nat fun t _ => (houtside t).2
    rw [hclosed fun t => (houtside t).1, ← Nat.cast_sum, hall, Nat.cast_mul]
  · have hless : i < iters := hless
    show iters - (i + 1) < iters - i
    omega

instance (i : Nat) (op : Unit) : Decidable ((dataThread iters).asks i op) :=
  inferInstanceAs (Decidable (i < iters))

/-- One thread tries while the other is inside, spins, fails once more for no reason, and adds. -/
theorem no_addition_lost_between_two :
    ∃ σ τ : State (Fin 2) Nat Unit AddCode Int (Memory (Fin 2)),
      Steps (dataThread 1) latch (.initial latchInit (fun _ => 0) 0) σ ∧
      σ.stages 0 = .inside ∧ σ.lock.pcs 1 = .spin ∧ σ.stages 1 ≠ .inside ∧
      Steps (dataThread 1) latch σ τ ∧ τ.Finished (dataThread 1) ∧ τ.data = 2 := by
  obtain ⟨σ, hfirst, hinside, hspins⟩ : ∃ σ : State (Fin 2) Nat Unit AddCode Int (Memory (Fin 2)),
      moves (dataThread 1) [(0, .call ()), (1, .call ()), (0, .exchange true), (0, .access),
        (1, .exchange true)] (.initial latchInit (fun _ => 0) 0) = some σ ∧
      σ.stages 0 = .inside ∧ σ.lock.pcs 1 = .spin := ⟨_, rfl, rfl, rfl⟩
  have steps := moves_steps hfirst
  obtain ⟨τ, hrest, h₀, h₁⟩ : ∃ τ, moves (dataThread 1) [(0, .access), (1, .exchange true),
        (0, .release), (1, .exchange true), (1, .exchange false), (1, .exchange true),
        (1, .exchange true), (1, .access), (1, .access), (1, .release)] σ = some τ ∧
      τ.places 0 = .outside 1 ∧ τ.places 1 = .outside 1 := by
    obtain rfl := Option.some.inj hfirst
    exact ⟨_, rfl, rfl, rfl⟩
  have hfinished : τ.Finished (dataThread 1) := by
    intro t
    refine ⟨1, ?_, fun _ => lt_irrefl 1⟩
    match t with
    | 0 => exact h₀
    | 1 => exact h₁
  obtain ⟨hexclusive, -⟩ := no_addition_lost (by decide) steps
  obtain ⟨-, -, hsum, -⟩ := no_addition_lost (by decide) (steps.trans (moves_steps hrest))
  refine ⟨σ, τ, steps, hinside, hspins, fun h => ?_, moves_steps hrest, hfinished, ?_⟩
  · exact absurd (hexclusive 0 1 hinside h) (by decide)
  · simpa using hsum hfinished

end Counting

end Latch
