import CSpecx.Component
import CSpecx.GuardedSections

/-!
# Calls on data that threads share

A call is cut into its accesses to the data; each gives a value that the rest of
the call depends on. Without a break it is a function of the data, and behind a
lock it is that function too. Threads that work through lists of calls leave a
log, and the log is a run of whole calls.
-/

namespace SharedCalls

open CExec Component GuardedSections

variable {T S D V Op R K : Type}

inductive Code (D V R : Type) where
  | done (r : R)
  | access (f : D → Outcome (V × D)) (next : V → Code D V R)

namespace Code

/-- The call without a break. -/
def run : Code D V R → D → Outcome (R × D)
  | done r, d => .ok (r, d)
  | access f next, d => do
    let (v, d) ← f d
    (next v).run d

def advance : Code D V R → D → Outcome (Code D V R × D)
  | done _, _ => .error .undefined
  | access f next, d => do
    let (v, d) ← f d
    .ok (next v, d)

def result : Code D V R → Option R
  | done r => some r
  | access _ _ => none

/-- An access that changes nothing. -/
def read (f : D → V) (next : V → Code D V R) : Code D V R := access (fun d => .ok (f d, d)) next

/-- An access whose value is not used. -/
def write [Inhabited V] (f : D → Outcome D) (next : Code D V R) : Code D V R :=
  access (fun d => do
    let d ← f d
    .ok (default, d)) fun _ => next

def check [Inhabited V] (f : D → Outcome Unit) (next : Code D V R) : Code D V R :=
  access (fun d => do
    f d
    .ok (default, d)) fun _ => next

section Runs

variable {d : D} {next : Code D V R}

@[simp] theorem run_done (r : R) : (done r : Code D V R).run d = .ok (r, d) := rfl

@[simp] theorem run_read (f : D → V) (next : V → Code D V R) :
    (read f next).run d = (next (f d)).run d := rfl

@[simp] theorem run_write [Inhabited V] (f : D → Outcome D) :
    (write f next).run d = f d >>= next.run := by
  cases h : f d with
  | error e => rw [write, run, h, error_bind, error_bind, error_bind]
  | ok d' => rw [write, run, h, ok_bind, ok_bind, ok_bind]

@[simp] theorem run_check [Inhabited V] (f : D → Outcome Unit) :
    (check f next).run d = f d >>= fun _ => next.run d := by
  cases h : f d with
  | error e => rw [check, run, h, error_bind, error_bind, error_bind]
  | ok d' => rw [check, run, h, ok_bind, ok_bind, ok_bind]

end Runs

end Code

/-- Threads that make calls. -/
def calls (asks : S → Op → Prop) (absorb : S → Op → R → S) (code : Op → Code D V R) :
    Program S Op R (Code D V R) D where
  asks := asks
  absorb := absorb
  start := code
  access := Code.advance
  result := Code.result

section Sections

variable {asks : S → Op → Prop} {absorb : S → Op → R → S} {code : Op → Code D V R} {op : Op}
  {c : Code D V R} {d d' d'' : D} {r : R}

/-- What is left of a call does what the whole call does. -/
theorem runs_run (runs : Runs (calls asks absorb code) op d c d') : (code op).run d = c.run d' := by
  induction runs with
  | start => rfl
  | @access c c' d' d'' _ hresult haccess ih =>
    cases c with
    | done r => cases hresult
    | access f next =>
      obtain ⟨⟨v, d₁⟩, hf, hnext⟩ := bind_eq_ok.mp haccess
      obtain ⟨rfl, rfl⟩ := ok_pair_inj hnext
      rw [ih, Code.run, hf, ok_bind]

theorem runs_to_result (runs : Runs (calls asks absorb code) op d c d')
    (hrun : c.run d' = .ok (r, d'')) : Completes (calls asks absorb code) d op r d'' := by
  induction c generalizing d' with
  | done r' =>
    obtain ⟨rfl, rfl⟩ := ok_pair_inj hrun
    exact ⟨_, runs, rfl⟩
  | access f next ih =>
    obtain ⟨⟨v, d₁⟩, hf, hnext⟩ := bind_eq_ok.mp hrun
    refine ih v (runs.access rfl ?_) hnext
    show Code.advance (Code.access f next) d' = .ok (next v, d₁)
    rw [Code.advance, hf, ok_bind]

theorem completes_iff :
    Completes (calls asks absorb code) d op r d' ↔ (code op).run d = .ok (r, d') := by
  constructor
  · rintro ⟨c, runs, hresult⟩
    rw [runs_run runs]
    cases c with
    | done r' => rw [Code.run_done, Option.some.inj hresult]
    | access f next => cases hresult
  · exact runs_to_result .start

/-- A call that returns gets to its result from wherever it is. -/
theorem ends_of_run (hrun : c.run d = .ok (r, d')) : Ends (calls asks absorb code) c d := by
  induction c generalizing d with
  | done r' => exact .now rfl
  | access f next ih =>
    obtain ⟨⟨v, d₁⟩, hf, hnext⟩ := bind_eq_ok.mp hrun
    refine .access rfl ?_ (ih v hnext)
    show Code.advance (Code.access f next) d = .ok (next v, d₁)
    rw [Code.advance, hf, ok_bind]

end Sections

/-! ## Lists of calls -/

/-- What a thread has to call and what it has called, with the results. -/
structure Work (Op R : Type) where
  todo : List Op
  log : List (Op × R)

/-- Threads that work through lists. -/
def workers (code : Op → Code D V R) : Program (Work Op R) Op R (Code D V R) D :=
  calls (fun s op => s.todo.head? = some op) (fun s op r => ⟨s.todo.tail, s.log ++ [(op, r)]⟩) code

/-- The calls as a component. -/
def calling (pre : D → Op → Prop) (code : Op → Code D V R) : Interface D Op R where
  pre := pre
  step d op := (code op).run d

/-- The part of a log that is of thread `q`. -/
def ofThread [DecidableEq T] (q : T) (log : List (T × Op × R)) : List (Op × R) :=
  (log.filter fun entry => entry.1 = q).map Prod.snd

/-- A log of what the threads have called, in an order in which they called it. -/
structure Logged [DecidableEq T] (given : T → List Op) (locals : T → Work Op R)
    (log : List (T × Op × R)) : Prop where
  log : ∀ q, (locals q).log = ofThread q log
  given : ∀ q, given q = (locals q).log.map Prod.fst ++ (locals q).todo

/-- Calls that return from every state the threads can leave behind. -/
structure Served (given : T → List Op) (code : Op → Code D V R) (pre : D → Op → Prop) (I : D → Prop)
    (d₀ : D) : Prop where
  initial : I d₀
  step : ∀ {d q op}, I d → op ∈ given q →
    pre d op ∧ ∃ r d', (code op).run d = .ok (r, d') ∧ I d'

/-- All threads can get to the ends of their lists. -/
def CanEnd [DecidableEq T] (code : Op → Code D V R) (L : Lock T K)
    (σ : State T (Work Op R) Op (Code D V R) D K) : Prop :=
  ∃ σ', Steps (workers code) L σ σ' ∧ ∀ q, ∃ log, σ'.places q = .outside ⟨[], log⟩

section Logs

variable [DecidableEq T] {given : T → List Op} {code : Op → Code D V R} {pre : D → Op → Prop}
  {I : D → Prop} {d₀ : D} {w : Whole T (Work Op R) D} {log : List (T × Op × R)}
  {locals : T → Work Op R} {L : Lock T K} {k₀ : K} {J : K → (T → Stage) → Prop}
  {σ : State T (Work Op R) Op (Code D V R) D K}

theorem ofThread_append (q q' : T) (op : Op) (r : R) :
    ofThread q (log ++ [(q', op, r)]) = ofThread q log ++ if q' = q then [(op, r)] else [] := by
  rw [ofThread, ofThread, List.filter_append, List.map_append]
  by_cases h : q' = q
  · simp [h]
  · simp [h]

theorem logged_initial : Logged given (fun q => (⟨given q, []⟩ : Work Op R)) [] :=
  ⟨fun _ => rfl, fun _ => rfl⟩

theorem Logged.call {q : T} {op : Op} (logged : Logged given locals log)
    (hop : (locals q).todo.head? = some op) (r : R) :
    Logged given (Function.update locals q ⟨(locals q).todo.tail, (locals q).log ++ [(op, r)]⟩)
      (log ++ [(q, op, r)]) := by
  have htodo : (locals q).todo = op :: (locals q).todo.tail := (List.cons_head?_tail hop).symm
  constructor
  · intro q'
    rw [ofThread_append]
    by_cases h : q' = q
    · subst h
      rw [Function.update_self, if_pos rfl, logged.log]
    · rw [Function.update_of_ne h, if_neg (Ne.symm h), List.append_nil, logged.log]
  · intro q'
    by_cases h : q' = q
    · subst h
      rw [Function.update_self, logged.given q', htodo]
      simp
    · rw [Function.update_of_ne h]
      exact logged.given q'

theorem Logged.mem {q : T} {op : Op} (logged : Logged given locals log)
    (hop : (locals q).todo.head? = some op) : op ∈ given q := by
  rw [logged.given q]
  exact List.mem_append_right _ (List.mem_of_mem_head? hop)

/-- Whole calls in the order of the log. -/
theorem whole_logged (served : Served given code pre I d₀)
    (steps : WholeSteps (workers code) ⟨fun q => ⟨given q, []⟩, d₀⟩ w) :
    ∃ log, Logged given w.locals log ∧ Trace (calling pre code) d₀ (log.map Prod.snd) w.data ∧
      I w.data := by
  induction steps with
  | refl => exact ⟨[], logged_initial, .nil d₀, served.initial⟩
  | tail _ step ih =>
    obtain ⟨log, logged, trace, hI⟩ := ih
    cases step with | @mk q op r d hasks hcompletes =>
    have hrun := completes_iff.mp hcompletes
    obtain ⟨hpre, r', d', hrun', hI'⟩ := served.step hI (logged.mem hasks)
    obtain ⟨rfl, rfl⟩ := ok_pair_inj (hrun'.symm.trans hrun)
    refine ⟨log ++ [(q, op, r')], logged.call hasks r', ?_, hI'⟩
    rw [List.map_append]
    exact trace.append (.cons hpre hrun (.nil _))

theorem workers_finish (served : Served given code pre I d₀) :
    Finishes (workers code) (fun q => (⟨given q, []⟩ : Work Op R)) d₀ := by
  intro w hw q op hasks c d hruns
  obtain ⟨log, logged, -, hI⟩ := whole_logged served hw
  obtain ⟨-, r, d', hrun, -⟩ := served.step hI (logged.mem hasks)
  rw [runs_run hruns] at hrun
  exact ends_of_run hrun

/-- Whatever the order of the accesses, the calls that have returned are a run of whole calls in
some order, each thread's own in the order of its list, and all lists can be worked through. -/
theorem workers_linearize [Fintype T] {C : Interface D Op R} (excludes : Exclusive L k₀ J)
    (obliges : Obliging L J) (hrun : ∀ d op, (code op).run d = C.step d op)
    (served : Served given code C.pre I d₀)
    (steps : Steps (workers code) L (.initial k₀ (fun q => ⟨given q, []⟩) d₀) σ) :
    (∃ log d, Logged given (fun q => (σ.places q).locals) log ∧
      Trace C d₀ (log.map Prod.snd) d ∧ ((∀ q, σ.stages q ≠ .inside) → σ.data = d)) ∧
      CanEnd code L σ := by
  obtain ⟨w, hw, serial⟩ := Steps.serial excludes steps
  obtain ⟨log, logged, trace, -⟩ := whole_logged served hw
  constructor
  · have hlocals : (fun q => (σ.places q).locals) = w.locals := funext serial.locals
    have hstep : C.step = (calling C.pre code).step := funext₂ fun d op => (hrun d op).symm
    refine ⟨log, w.data, hlocals ▸ logged, trace.weaken (fun _ _ h => h) hstep, fun hnone => ?_⟩
    rcases serial.data with ⟨-, hdata⟩ | ⟨q, _, _, _, hplace, -⟩
    · exact hdata
    · exact absurd (congrArg Place.stage hplace) (hnone q)
  · obtain ⟨σ', hsteps, hfinished⟩ := Steps.finish excludes obliges (workers_finish served)
      (fun s => s.todo.length) (fun s op r hasks => by
        have htodo := List.cons_head?_tail hasks
        show s.todo.tail.length < s.todo.length
        rw [← htodo]
        exact Nat.lt_succ_self _) steps
    refine ⟨σ', hsteps, fun q => ?_⟩
    obtain ⟨⟨todo, log⟩, hplace, hnone⟩ := hfinished q
    cases todo with
    | nil => exact ⟨log, hplace⟩
    | cons op rest => exact absurd rfl (hnone op)

end Logs

end SharedCalls
