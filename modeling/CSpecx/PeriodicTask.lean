import Mathlib.Tactic.Common

/-!
# The periodic task

`periodic_task.c` with its worker, any callers of `periodic_task_wake` and one
caller of `periodic_task_stop`. The flags are used under the mutex only, so a
section between taking the mutex and giving it up, in the wait or by the unlock,
is one step. A wait ends by a signal, by the timeout or spuriously.
-/

namespace PeriodicTask

/-- Where `periodic_task_thread` is. `woken` has left the wait, after the timeout
or not, and is about to take the mutex; `decided` holds `should_stop`. -/
inductive Worker where
  | starting
  | waiting
  | woken (timeout : Bool)
  | decided (shouldStop : Bool)
  | calling
  | ending
  | returned
  deriving DecidableEq, Repr

/-- Where `periodic_task_stop` is. -/
inductive Stopper where
  | idle
  | asked
  | waiting
  | woken
  | joining
  | returned
  deriving DecidableEq, Repr

structure Task where
  wakeRequested : Bool
  stop : Bool
  done : Bool
  worker : Worker
  stopper : Stopper
  deriving DecidableEq, Repr

/-- After `periodic_task_init` and `periodic_task_start`. -/
def started : Task := ⟨false, false, false, .starting, .idle⟩

inductive Act where
  | check
  | decide
  | returnFn
  | finish
  | expire
  | spurious
  | wake
  | askStop
  | checkDone
  | spuriousDone
  | join
  deriving DecidableEq, Repr

/-- `i_cond_signal (&t->wake_cond)`. -/
def signalWake (t : Task) : Task :=
  { t with worker := if t.worker = .waiting then .woken false else t.worker }

/-- `i_cond_signal (&t->done_cond)`. -/
def signalDone (t : Task) : Task :=
  { t with stopper := if t.stopper = .waiting then .woken else t.stopper }

/-- The worker has the mutex: it waits, or it clears the request and goes on. -/
def checkFlags (t : Task) : Task :=
  if t.wakeRequested = false ∧ t.stop = false then { t with worker := .waiting }
  else { t with wakeRequested := false, worker := .decided t.stop }

def step (t : Task) : Act → Option Task
  | .check =>
    match t.worker with
    | .starting => some (checkFlags t)
    | .woken _ => some (checkFlags t)
    | _ => none
  | .decide =>
    match t.worker with
    | .decided true => some { t with worker := .ending }
    | .decided false => some { t with worker := .calling }
    | _ => none
  | .returnFn => if t.worker = .calling then some { t with worker := .starting } else none
  | .finish =>
    if t.worker = .ending then some (signalDone { t with done := true, worker := .returned })
    else none
  | .expire => if t.worker = .waiting then some { t with worker := .woken true } else none
  | .spurious => if t.worker = .waiting then some { t with worker := .woken false } else none
  | .wake => some (signalWake { t with wakeRequested := true })
  | .askStop =>
    if t.stopper = .idle then some (signalWake { t with stop := true, stopper := .asked }) else none
  | .checkDone =>
    if t.stopper = .asked ∨ t.stopper = .woken then
      some { t with stopper := if t.done then .joining else .waiting }
    else none
  | .spuriousDone => if t.stopper = .waiting then some { t with stopper := .woken } else none
  | .join =>
    if t.stopper = .joining ∧ t.worker = .returned then some { t with stopper := .returned }
    else none

/-- A timed wait has returned by its timeout and `fn` has not been called since. -/
def overdue (t : Task) (a : Act) (before : Bool) : Bool :=
  match a with
  | .check => before || decide (t.worker = .woken true)
  | .decide => before && decide (t.worker ≠ .decided false)
  | _ => before

/-- The runs whose steps meet `P`, with what `overdue` is at their end. -/
inductive Run (P : Task → Act → Prop) : Bool → Task → Prop where
  | start : Run P false started
  | next {late : Bool} {t t' : Task} {a : Act} :
      Run P late t → P t a → step t a = some t' → Run P (overdue t a late) t'

/-- When a timed wait returns by its timeout, a wake or a stop is already requested. -/
def Requested (t : Task) (a : Act) : Prop :=
  a = .check → t.worker = .woken true → t.wakeRequested = true ∨ t.stop = true

section Expiry

variable {t t' : Task} {a : Act} {late : Bool} {P : Task → Act → Prop}

theorem step_check (hstep : step t .check = some t') :
    (t.worker = .starting ∨ ∃ timeout, t.worker = .woken timeout) ∧ t' = checkFlags t := by
  cases hworker : t.worker with
  | starting => exact ⟨.inl rfl, by simpa [step, hworker] using hstep.symm⟩
  | woken timeout => exact ⟨.inr ⟨timeout, rfl⟩, by simpa [step, hworker] using hstep.symm⟩
  | waiting => simp [step, hworker] at hstep
  | decided stop => simp [step, hworker] at hstep
  | calling => simp [step, hworker] at hstep
  | ending => simp [step, hworker] at hstep
  | returned => simp [step, hworker] at hstep

/-- With a request the worker leaves its loop. -/
theorem checkFlags_requested (h : t.wakeRequested = true ∨ t.stop = true) :
    (checkFlags t).worker = .decided t.stop := by
  have hflags : ¬ (t.wakeRequested = false ∧ t.stop = false) := by
    rintro ⟨hwake, hstop⟩
    rcases h with h | h
    · exact absurd (hwake.symm.trans h) Bool.noConfusion
    · exact absurd (hstop.symm.trans h) Bool.noConfusion
  rw [checkFlags, if_neg hflags]

/-- Where the worker is while an expiry has not been served. -/
def Leaving : Worker → Prop
  | .decided _ => True
  | .ending => True
  | .returned => True
  | _ => False

theorem leaving_signalWake (h : Leaving t.worker) : (signalWake t).worker = t.worker := by
  have hne : t.worker ≠ .waiting := by
    intro heq
    rw [heq] at h
    exact h
  simp only [signalWake, if_neg hne]

/-- A step from where an expiry is served, or one that is asked for, stays there. -/
theorem step_leaving (h : late = true → Leaving t.worker) (requested : Requested t a)
    (hstep : step t a = some t') : overdue t a late = true → Leaving t'.worker := by
  intro hlate
  cases a with
  | check =>
    obtain ⟨hworker, rfl⟩ := step_check hstep
    have hnow : t.worker = .woken true := by
      rcases Bool.or_eq_true _ _ ▸ hlate with hbefore | hnow
      · have hleaving := h hbefore
        rcases hworker with heq | ⟨timeout, heq⟩
        · rw [heq] at hleaving
          exact hleaving.elim
        · rw [heq] at hleaving
          exact hleaving.elim
      · exact of_decide_eq_true hnow
    rw [checkFlags_requested (requested rfl hnow)]
    trivial
  | decide =>
    obtain ⟨-, hnot⟩ := Bool.and_eq_true_iff.mp hlate
    have hnot := of_decide_eq_true hnot
    cases hworker : t.worker with
    | decided stop =>
      cases stop with
      | true =>
        simp only [step, hworker, Option.some.injEq] at hstep
        rw [← hstep]
        trivial
      | false => exact absurd hworker hnot
    | _ => simp [step, hworker] at hstep
  | returnFn =>
    have hleaving := h hlate
    by_cases hworker : t.worker = .calling
    · rw [hworker] at hleaving
      exact hleaving.elim
    · simp [step, hworker] at hstep
  | finish =>
    by_cases hworker : t.worker = .ending
    · simp only [step, if_pos hworker, Option.some.injEq] at hstep
      rw [← hstep]
      trivial
    · simp [step, hworker] at hstep
  | expire =>
    have hleaving := h hlate
    by_cases hworker : t.worker = .waiting
    · rw [hworker] at hleaving
      exact hleaving.elim
    · simp [step, hworker] at hstep
  | spurious =>
    have hleaving := h hlate
    by_cases hworker : t.worker = .waiting
    · rw [hworker] at hleaving
      exact hleaving.elim
    · simp [step, hworker] at hstep
  | wake =>
    have hleaving : Leaving ({ t with wakeRequested := true } : Task).worker := h hlate
    rw [← Option.some.inj hstep, leaving_signalWake hleaving]
    exact hleaving
  | askStop =>
    have hleaving : Leaving ({ t with stop := true, stopper := .asked } : Task).worker := h hlate
    by_cases hstopper : t.stopper = .idle
    · simp only [step, if_pos hstopper, Option.some.injEq] at hstep
      rw [← hstep, leaving_signalWake hleaving]
      exact hleaving
    · simp [step, hstopper] at hstep
  | checkDone =>
    by_cases hstopper : t.stopper = .asked ∨ t.stopper = .woken
    · simp only [step, if_pos hstopper, Option.some.injEq] at hstep
      rw [← hstep]
      exact h hlate
    · simp [step, hstopper] at hstep
  | spuriousDone =>
    by_cases hstopper : t.stopper = .waiting
    · simp only [step, if_pos hstopper, Option.some.injEq] at hstep
      rw [← hstep]
      exact h hlate
    · simp [step, hstopper] at hstep
  | join =>
    by_cases hready : t.stopper = .joining ∧ t.worker = .returned
    · simp only [step, if_pos hready, Option.some.injEq] at hstep
      rw [← hstep]
      exact h hlate
    · simp [step, hready] at hstep

theorem Run.leaving (run : Run Requested late t) : late = true → Leaving t.worker := by
  induction run with
  | start => exact Bool.noConfusion
  | next _ requested hstep ih => exact step_leaving ih requested hstep

/-- In a run in which a wake or a stop is requested whenever a timed wait returns by its
timeout, the worker never waits with an expiry that `fn` was not called for. After a return
without a request it does. -/
theorem expiries_served (late : Bool) (t : Task) :
    (Run Requested late t → ¬ (late = true ∧ t.worker = .waiting)) ∧
      (t.worker = .woken true → t.wakeRequested = false → t.stop = false →
        ∃ t', step t .check = some t' ∧ overdue t .check late = true ∧ t'.worker = .waiting) := by
  constructor
  · rintro run ⟨hlate, hworker⟩
    have hleaving := run.leaving hlate
    rw [hworker] at hleaving
    exact hleaving
  · intro hworker hwake hstop
    refine ⟨checkFlags t, ?_, ?_, ?_⟩
    · simp only [step, hworker]
    · simp only [overdue, hworker, decide_true, Bool.or_true]
    · rw [checkFlags, if_pos ⟨hwake, hstop⟩]

/-- A timeout that meets a wake. -/
theorem expiries_served_woken :
    ∃ t, Run Requested true t ∧ t.worker = .decided false ∧
    ¬ (true = true ∧ t.worker = .waiting) := by
  have waits : Run Requested false ⟨false, false, false, .waiting, .idle⟩ :=
    .next (a := .check) .start (fun _ h => Worker.noConfusion h) rfl
  have expires : Run Requested false ⟨false, false, false, .woken true, .idle⟩ :=
    .next (a := .expire) waits (fun h => Act.noConfusion h) rfl
  have wakes : Run Requested false ⟨true, false, false, .woken true, .idle⟩ :=
    .next (a := .wake) expires (fun h => Act.noConfusion h) rfl
  have serves : Run Requested true ⟨false, false, false, .decided false, .idle⟩ :=
    .next (a := .check) wakes (fun _ _ => .inl rfl) rfl
  exact ⟨_, serves, rfl, (expiries_served _ _).1 serves⟩

/-- The first timeout without a wake: the worker waits again. -/
theorem expiry_unserved :
    ∃ t, Run (fun t _ => t.stop = false) true t ∧ t.worker = .waiting := by
  have waits : Run (fun t _ => t.stop = false) false ⟨false, false, false, .waiting, .idle⟩ :=
    .next (a := .check) .start rfl rfl
  have expires : Run (fun t _ => t.stop = false) false ⟨false, false, false, .woken true, .idle⟩ :=
    .next (a := .expire) waits rfl rfl
  have waitsAgain : Run (fun t _ => t.stop = false) true ⟨false, false, false, .waiting, .idle⟩ :=
    .next (a := .check) expires rfl rfl
  exact ⟨_, waitsAgain, rfl⟩

end Expiry

end PeriodicTask
