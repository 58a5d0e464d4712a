import CSpecx.PeriodicTask
import Mathlib.Logic.Relation

/-!
# Wakes and the stop of the periodic task

Over all interleavings: a request is kept until `fn` is about to be called, no
side waits for a flag that is set, and nothing is called after the stop.
-/

namespace PeriodicTask

/-- A wake has completed since `fn` was last called. -/
def awaited (t : Task) (a : Act) (before : Bool) : Bool :=
  match a with
  | .wake => true
  | .decide => before && decide (t.worker ≠ .decided false)
  | _ => before

/-- The states of all runs, with what `awaited` is there. -/
inductive Reached : Bool → Task → Prop where
  | start : Reached false started
  | next {pending : Bool} {t t' : Task} {a : Act} :
      Reached pending t → step t a = some t' → Reached (awaited t a pending) t'

/-- One step of any thread. -/
def Follows (t t' : Task) : Prop := ∃ a, step t a = some t'

structure Kept (pending : Bool) (t : Task) : Prop where
  requested : t.stop = false → pending = true → t.wakeRequested = true ∨ t.worker = .decided false
  unblocked : t.worker = .waiting → t.wakeRequested = false ∧ t.stop = false
  ended : t.done = true → t.worker = .returned
  answered : t.stopper = .waiting → t.done = false
  joined : t.stopper = .returned → t.worker = .returned

section Steps

variable {t t' : Task} {a : Act} {pending : Bool}

/-- The signal of a waker or of the stopper ends the wait of the worker. -/
theorem signalWake_worker : (signalWake t).worker ≠ .waiting := by
  by_cases hworker : t.worker = .waiting
  · simp only [signalWake, if_pos hworker]
    exact Worker.noConfusion
  · simp only [signalWake, if_neg hworker]
    exact hworker

theorem signalDone_stopper : (signalDone t).stopper ≠ .waiting := by
  by_cases hstopper : t.stopper = .waiting
  · simp only [signalDone, if_pos hstopper]
    exact Stopper.noConfusion
  · simp only [signalDone, if_neg hstopper]
    exact hstopper

/-- A worker that has returned stays there. -/
theorem step_returned (hstep : step t a = some t') (hworker : t.worker = .returned) :
    t'.worker = .returned := by
  cases a with
  | check =>
    obtain ⟨hwhere | ⟨timeout, hwhere⟩, -⟩ := step_check hstep
    · exact Worker.noConfusion (hwhere.symm.trans hworker)
    · exact Worker.noConfusion (hwhere.symm.trans hworker)
  | decide | returnFn | finish | expire | spurious => simp [step, hworker] at hstep
  | wake =>
    obtain rfl := Option.some.inj hstep
    simp [signalWake, hworker]
  | askStop =>
    simp only [step] at hstep
    split at hstep
    · obtain rfl := Option.some.inj hstep
      simp [signalWake, hworker]
    · cases hstep
  | checkDone | spuriousDone | join =>
    simp only [step] at hstep
    split at hstep
    · obtain rfl := Option.some.inj hstep
      exact hworker
    · cases hstep

/-- Unless `fn` is about to be called, the request itself is kept. -/
theorem Kept.request (kept : Kept pending t) (hnot : t.worker ≠ .decided false)
    (hstop : t.stop = false) (hpending : pending = true) : t.wakeRequested = true :=
  (kept.requested hstop hpending).resolve_right hnot

/-- The worker goes on without a change of the flags, and not into the wait. -/
theorem Kept.advance {now : Bool} {w : Worker} (kept : Kept pending t)
    (hworker : t.worker ≠ .returned) (hw : w ≠ .waiting)
    (hrequested : t.stop = false → now = true → t.wakeRequested = true ∨ w = .decided false) :
    Kept now { t with worker := w } where
  requested := hrequested
  unblocked h := absurd h hw
  ended hdone := absurd (kept.ended hdone) hworker
  answered := kept.answered
  joined h := absurd (kept.joined h) hworker

theorem Kept.check (kept : Kept pending t) (hstep : step t .check = some t') :
    Kept pending t' := by
  obtain ⟨hworker, rfl⟩ := step_check hstep
  have hreturned : t.worker ≠ .returned := by
    rcases hworker with h | ⟨timeout, h⟩ <;> rw [h] <;> exact Worker.noConfusion
  have hdecided : t.worker ≠ .decided false := by
    rcases hworker with h | ⟨timeout, h⟩ <;> rw [h] <;> exact Worker.noConfusion
  by_cases hflags : t.wakeRequested = false ∧ t.stop = false
  · rw [checkFlags, if_pos hflags]
    exact ⟨fun hstop hpending => Or.inl (kept.request hdecided hstop hpending), fun _ => hflags,
      fun hdone => absurd (kept.ended hdone) hreturned, kept.answered,
      fun h => absurd (kept.joined h) hreturned⟩
  · rw [checkFlags, if_neg hflags]
    exact ⟨fun hstop _ => Or.inr (congrArg Worker.decided hstop), fun h => Worker.noConfusion h,
      fun hdone => absurd (kept.ended hdone) hreturned, kept.answered,
      fun h => absurd (kept.joined h) hreturned⟩

theorem Kept.decide (kept : Kept pending t) (hstep : step t .decide = some t') :
    Kept (awaited t .decide pending) t' := by
  cases hworker : t.worker with
  | decided stop =>
    have hreturned : t.worker ≠ .returned := hworker ▸ Worker.noConfusion
    cases stop with
    | true =>
      simp only [step, hworker, Option.some.injEq] at hstep
      subst hstep
      have hdecided : t.worker ≠ .decided false := by
        rw [hworker]
        decide
      refine kept.advance hreturned Worker.noConfusion fun hstop hpending => Or.inl ?_
      exact kept.request hdecided hstop (Bool.and_eq_true_iff.mp hpending).1
    | false =>
      simp only [step, hworker, Option.some.injEq] at hstep
      subst hstep
      refine kept.advance hreturned Worker.noConfusion fun _ hpending => ?_
      obtain ⟨-, hnot⟩ := Bool.and_eq_true_iff.mp hpending
      exact absurd hworker (of_decide_eq_true hnot)
  | _ => simp [step, hworker] at hstep

/-- The worker comes back from `fn` or out of the wait. -/
theorem Kept.comesBack {w w' : Worker} (kept : Kept pending t)
    (hstep : (if t.worker = w then some { t with worker := w' } else none) = some t')
    (hw : w ≠ .returned ∧ w ≠ .decided false) (hw' : w' ≠ .waiting) : Kept pending t' := by
  split at hstep
  · next hworker =>
    obtain rfl := Option.some.inj hstep
    exact kept.advance (hworker ▸ hw.1) hw'
      fun hstop hpending => Or.inl (kept.request (hworker ▸ hw.2) hstop hpending)
  · cases hstep

theorem Kept.finish (kept : Kept pending t) (hstep : step t .finish = some t') :
    Kept pending t' := by
  simp only [step] at hstep
  split at hstep
  · next hworker =>
    obtain rfl := Option.some.inj hstep
    have hdecided : t.worker ≠ .decided false := hworker ▸ Worker.noConfusion
    have hnot := signalDone_stopper (t := { t with done := true, worker := .returned })
    exact ⟨fun hstop hpending => Or.inl (kept.request hdecided hstop hpending),
      fun h => Worker.noConfusion h, fun _ => rfl, fun h => absurd h hnot, fun _ => rfl⟩
  · cases hstep

theorem Kept.wake (kept : Kept pending t) (hstep : step t .wake = some t') : Kept true t' := by
  have hreturned := step_returned hstep
  obtain rfl := Option.some.inj hstep
  have hnot := signalWake_worker (t := { t with wakeRequested := true })
  exact ⟨fun _ _ => Or.inl rfl, fun h => absurd h hnot, fun hdone => hreturned (kept.ended hdone),
    kept.answered, fun h => hreturned (kept.joined h)⟩

theorem Kept.askStop (kept : Kept pending t) (hstep : step t .askStop = some t') :
    Kept pending t' := by
  have hreturned := step_returned hstep
  simp only [step] at hstep
  split at hstep
  · obtain rfl := Option.some.inj hstep
    have hnot := signalWake_worker (t := { t with stop := true, stopper := .asked })
    exact ⟨fun h => Bool.noConfusion h, fun h => absurd h hnot,
      fun hdone => hreturned (kept.ended hdone), fun h => Stopper.noConfusion h,
      fun h => Stopper.noConfusion h⟩
  · cases hstep

theorem Kept.checkDone (kept : Kept pending t) (hstep : step t .checkDone = some t') :
    Kept pending t' := by
  simp only [step] at hstep
  split at hstep
  · obtain rfl := Option.some.inj hstep
    refine ⟨kept.requested, kept.unblocked, kept.ended, fun h => ?_, fun h => ?_⟩
    · by_cases hdone : t.done = true
      · simp only [if_pos hdone] at h
        cases h
      · exact Bool.not_eq_true _ ▸ hdone
    · by_cases hdone : t.done = true
      · exact kept.ended hdone
      · simp only [if_neg hdone] at h
        cases h
  · cases hstep

theorem Kept.spuriousDone (kept : Kept pending t) (hstep : step t .spuriousDone = some t') :
    Kept pending t' := by
  simp only [step] at hstep
  split at hstep
  · obtain rfl := Option.some.inj hstep
    exact ⟨kept.requested, kept.unblocked, kept.ended, fun h => Stopper.noConfusion h,
      fun h => Stopper.noConfusion h⟩
  · cases hstep

theorem Kept.join (kept : Kept pending t) (hstep : step t .join = some t') : Kept pending t' := by
  simp only [step] at hstep
  split at hstep
  · next hready =>
    obtain rfl := Option.some.inj hstep
    exact ⟨kept.requested, kept.unblocked, kept.ended, fun h => Stopper.noConfusion h,
      fun _ => hready.2⟩
  · cases hstep

theorem step_kept (kept : Kept pending t) (hstep : step t a = some t') :
    Kept (awaited t a pending) t' := by
  cases a with
  | check => exact kept.check hstep
  | decide => exact kept.decide hstep
  | returnFn => exact kept.comesBack hstep (by decide) (by decide)
  | expire => exact kept.comesBack hstep (by decide) (by decide)
  | spurious => exact kept.comesBack hstep (by decide) (by decide)
  | finish => exact kept.finish hstep
  | wake => exact kept.wake hstep
  | askStop => exact kept.askStop hstep
  | checkDone => exact kept.checkDone hstep
  | spuriousDone => exact kept.spuriousDone hstep
  | join => exact kept.join hstep

theorem Reached.kept (reached : Reached pending t) : Kept pending t := by
  induction reached with
  | start =>
    exact ⟨fun _ h => Bool.noConfusion h, fun h => Worker.noConfusion h,
      fun h => Bool.noConfusion h, fun h => Stopper.noConfusion h, fun h => Stopper.noConfusion h⟩
  | next _ hstep ih => exact step_kept ih hstep

theorem follows_returned (hfollows : Relation.ReflTransGen Follows t t')
    (hworker : t.worker = .returned) : t'.worker = .returned := by
  induction hfollows with
  | refl => exact hworker
  | tail _ hlast ih =>
    obtain ⟨a, hstep⟩ := hlast
    exact step_returned hstep ih

end Steps

/-- After the stop. -/
def stopped : Task := ⟨false, true, true, .returned, .returned⟩

/-- No wake is lost, no side sleeps through its flag, and nothing is called after the stop. -/
theorem wakes_kept_and_stop_final (pending : Bool) (t : Task) (reached : Reached pending t) :
    (t.stop = false → pending = true → t.wakeRequested = true ∨ t.worker = .decided false) ∧
      (t.worker = .waiting → t.wakeRequested = false ∧ t.stop = false) ∧
      (t.stopper = .waiting → t.done = false) ∧
      (t.stopper = .returned →
        ∀ t', Relation.ReflTransGen Follows t t' → t'.worker = .returned) := by
  have kept := reached.kept
  exact ⟨kept.requested, kept.unblocked, kept.answered,
    fun hstopper t' hfollows => follows_returned hfollows (kept.joined hstopper)⟩

/-- A wake while `fn` runs stays requested; then the stop waits for the worker and returns. -/
theorem wakes_kept_and_stop_final_joined :
    (∃ t, Reached true t ∧ t.worker = .calling ∧ t.stop = false ∧
      (t.wakeRequested = true ∨ t.worker = .decided false)) ∧
    (∃ t, Reached true t ∧ t.stopper = .waiting ∧ t.done = false) ∧
    Reached true stopped ∧
      ∀ t', Relation.ReflTransGen Follows stopped t' → t'.worker = .returned := by
  have wakes : Reached true ⟨true, false, false, .starting, .idle⟩ := .next (a := .wake) .start rfl
  have checks : Reached true ⟨false, false, false, .decided false, .idle⟩ :=
    .next (a := .check) wakes rfl
  have calls : Reached false ⟨false, false, false, .calling, .idle⟩ :=
    .next (a := .decide) checks rfl
  have again : Reached true ⟨true, false, false, .calling, .idle⟩ := .next (a := .wake) calls rfl
  have asks : Reached true ⟨true, true, false, .calling, .asked⟩ := .next (a := .askStop) again rfl
  have waits : Reached true ⟨true, true, false, .calling, .waiting⟩ :=
    .next (a := .checkDone) asks rfl
  have returns : Reached true ⟨true, true, false, .starting, .waiting⟩ :=
    .next (a := .returnFn) waits rfl
  have leaves : Reached true ⟨false, true, false, .decided true, .waiting⟩ :=
    .next (a := .check) returns rfl
  have decides : Reached true ⟨false, true, false, .ending, .waiting⟩ :=
    .next (a := .decide) leaves rfl
  have finishes : Reached true ⟨false, true, true, .returned, .woken⟩ :=
    .next (a := .finish) decides rfl
  have learns : Reached true ⟨false, true, true, .returned, .joining⟩ :=
    .next (a := .checkDone) finishes rfl
  have joins : Reached true stopped := .next (a := .join) learns rfl
  obtain ⟨hrequested, -⟩ := wakes_kept_and_stop_final true _ again
  obtain ⟨-, -, hanswered, -⟩ := wakes_kept_and_stop_final true _ waits
  obtain ⟨-, -, -, hfinal⟩ := wakes_kept_and_stop_final true _ joins
  exact ⟨⟨_, again, rfl, rfl, hrequested rfl rfl⟩, ⟨_, waits, rfl, hanswered rfl⟩,
    joins, hfinal rfl⟩

end PeriodicTask
