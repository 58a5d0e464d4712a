import CSpecx.GranularLockRuns

/-!
# Draining the granular lock

What a section does to the phases and the grants, for every reply. From it: as
long as no thread waits while it holds a mode, releases and returns from
signalled waits alone lead to a lock that is free and has no waiters.
-/

namespace GranularLock

open CExec LinkedChain Component

section Effects

variable {T : Type} [DecidableEq T]

/-- What `gr_lock` and `gr_trylock` do to the thread that asks for a mode. -/
inductive Moved (s : System T) (t : T) (mode : LockMode) (s' : System T) : Prop where
  | granted (phase : s'.phase = Function.update s.phase t .outside)
      (grants : s'.grants = updateGrant s.grants t mode (s.grants t mode + 1)) : Moved s t mode s'
  | blocked (phase : s'.phase = Function.update s.phase t (.waiting mode))
      (grants : s'.grants = s.grants) : Moved s t mode s'
  | failed (phase : s'.phase = s.phase) (grants : s'.grants = s.grants) : Moved s t mode s'

variable {s s' : System T} {t : T} {mode : LockMode} {l l' : GrLock T} {r : Reply} {fuel : Nat}
  {e : Fault}

theorem waitOrAcquire_reply (h : waitOrAcquire l t mode = .ok (r, l')) : r ≠ .released := by
  rw [waitOrAcquire] at h
  split at h
  · obtain ⟨l₁, -, h⟩ := bind_eq_ok.mp h
    obtain ⟨l₂, -, h⟩ := bind_eq_ok.mp h
    obtain ⟨rfl, -⟩ := ok_pair_inj h
    exact Reply.noConfusion
  · obtain ⟨rfl, -⟩ := ok_pair_inj h
    exact Reply.noConfusion

theorem grLock_reply {condCreated : Bool} (h : grLock fuel l t mode condCreated = .ok (r, l')) :
    r ≠ .released := by
  rw [grLock] at h
  split at h
  · obtain ⟨l₁, -, h⟩ := bind_eq_ok.mp h
    obtain ⟨rfl, -⟩ := ok_pair_inj h
    exact Reply.noConfusion
  · split at h
    · obtain ⟨l₁, -, h⟩ := bind_eq_ok.mp h
      exact waitOrAcquire_reply h
    · obtain ⟨rfl, -⟩ := ok_pair_inj h
      exact Reply.noConfusion

omit [DecidableEq T] in
theorem grTrylock_reply {mutexTaken : Bool} (h : grTrylock l mode mutexTaken = .ok (r, l')) :
    r ≠ .released := by
  rw [grTrylock] at h
  split at h
  · obtain ⟨rfl, -⟩ := ok_pair_inj h
    exact Reply.noConfusion
  · split at h
    · obtain ⟨rfl, -⟩ := ok_pair_inj h
      exact Reply.noConfusion
    · obtain ⟨l₁, -, h⟩ := bind_eq_ok.mp h
      obtain ⟨rfl, -⟩ := ok_pair_inj h
      exact Reply.noConfusion

theorem grUnlock_reply (h : grUnlock fuel l mode = .ok (r, l')) : r = .released := by
  rw [grUnlock] at h
  obtain ⟨_, -, h⟩ := bind_eq_ok.mp h
  obtain ⟨l₁, -, h⟩ := bind_eq_ok.mp h
  exact (ok_pair_inj h).1.symm

theorem wakeWaiters_fault {w : Option T} (h : wakeWaiters fuel l w = .error e) : e = .fuel := by
  induction fuel generalizing l w with
  | zero =>
    cases w with
    | none => cases h
    | some w => exact (Except.error.inj h).symm
  | succ fuel ih =>
    cases w with
    | none => cases h
    | some w => exact ih h

theorem grUnlock_fault (h : grUnlock fuel l mode = .error e) : e ≠ .undefined := by
  by_cases hheld : 0 < l.holderCounts mode
  · rw [grUnlock, assert_pos hheld, ok_bind] at h
    change (wakeList fuel (l.setCount mode (l.holderCounts mode - 1)) >>= fun l =>
      .ok (Reply.released, l)) = .error e at h
    cases hwake : wakeList fuel (l.setCount mode (l.holderCounts mode - 1)) with
    | ok l' =>
      rw [hwake] at h
      cases h
    | error e' =>
      rw [hwake] at h
      obtain rfl := Except.error.inj h
      rw [wakeList] at hwake
      split at hwake
      · rw [wakeWaiters_fault hwake]
        exact Fault.noConfusion
      · cases hwake
  · rw [grUnlock, assert_neg hheld, error_bind] at h
    rw [← Except.error.inj h]
    exact Fault.noConfusion

theorem settle_moved {s₀ : System T} (hphase : s₀.phase = s.phase) (hgrants : s₀.grants = s.grants)
    (hr : r ≠ .released) : Moved s t mode (settle s₀ t mode (r, l)).2 := by
  cases r with
  | granted => exact .granted (by simp only [settle, hphase]) (by simp only [settle, hgrants])
  | blocked => exact .blocked (by simp only [settle, hphase]) (by simp only [settle, hgrants])
  | failed => exact .failed (by simp only [settle, hphase]) (by simp only [settle, hgrants])
  | released => exact absurd rfl hr

variable [Fintype T]

theorem lock_moved {condCreated : Bool} (h : step s (.lock t mode condCreated) = .ok (r, s')) :
    Moved s t mode s' := by
  obtain ⟨⟨r', l⟩, hrun, h⟩ := bind_eq_ok.mp h
  obtain rfl : (settle (arrive s t) t mode (r', l)).2 = s' := congrArg Prod.snd (Except.ok.inj h)
  exact settle_moved rfl rfl (grLock_reply hrun)

theorem trylock_moved {mutexTaken : Bool} (h : step s (.trylock t mode mutexTaken) = .ok (r, s')) :
    Moved s t mode s' := by
  obtain ⟨⟨r', l⟩, hrun, h⟩ := bind_eq_ok.mp h
  obtain rfl : (settle s t mode (r', l)).2 = s' := congrArg Prod.snd (Except.ok.inj h)
  exact settle_moved rfl rfl (grTrylock_reply hrun)

theorem resume_moved (h : step s (.resume t) = .ok (r, s')) :
    ∃ mode, s.phase t = .waiting mode ∧ Moved s t mode s' := by
  cases hphase : s.phase t with
  | outside =>
    simp only [step, hphase] at h
    cases h
  | waiting mode =>
    simp only [step, hphase] at h
    obtain ⟨⟨r', l⟩, hrun, h⟩ := bind_eq_ok.mp h
    obtain rfl : (settle s t mode (r', l)).2 = s' := congrArg Prod.snd (Except.ok.inj h)
    exact ⟨mode, rfl, settle_moved rfl rfl (waitOrAcquire_reply hrun)⟩

theorem unlock_moved (h : step s (.unlock t mode) = .ok (r, s')) :
    s'.phase = s.phase ∧ s'.grants = updateGrant s.grants t mode (s.grants t mode - 1) := by
  obtain ⟨⟨r', l⟩, hrun, h⟩ := bind_eq_ok.mp h
  obtain rfl := grUnlock_reply hrun
  obtain rfl : (settle s t mode (.released, l)).2 = s' := congrArg Prod.snd (Except.ok.inj h)
  exact ⟨rfl, rfl⟩

/-- A release cannot fail, whatever the counters are. -/
theorem unlock_returns (inv : Invariant s) (h : 0 < s.grants t mode) :
    ∃ s', step s (.unlock t mode) = .ok (.released, s') ∧ Invariant s' := by
  rcases unlock_sound inv h with ⟨r, s', hstep, inv'⟩ | ⟨-, hfault⟩
  · obtain ⟨⟨r', l⟩, hrun, hsettle⟩ := bind_eq_ok.mp hstep
    obtain rfl := grUnlock_reply hrun
    obtain ⟨rfl, -⟩ := Prod.mk.inj (Except.ok.inj hsettle)
    exact ⟨s', hstep, inv'⟩
  · cases hrun : grUnlock (Fintype.card T) s.lock mode with
    | ok p =>
      rw [step, hrun] at hfault
      cases hfault
    | error e =>
      rw [step, hrun] at hfault
      exact absurd (Except.error.inj hfault) (grUnlock_fault hrun)

/-- A waiter that can be admitted is admitted when its wait returns. -/
theorem resume_granted (hphase : s.phase t = .waiting mode) (hc : isCompatible s.lock mode = true)
    (h : step s (.resume t) = .ok (r, s')) :
    s'.phase = Function.update s.phase t .outside ∧
      s'.grants = updateGrant s.grants t mode (s.grants t mode + 1) := by
  simp only [step, hphase, waitOrAcquire, hc, if_true] at h
  obtain ⟨⟨r', l⟩, hrun, h⟩ := bind_eq_ok.mp h
  obtain ⟨l₁, -, hrun⟩ := bind_eq_ok.mp hrun
  obtain ⟨l₂, -, hrun⟩ := bind_eq_ok.mp hrun
  obtain ⟨rfl, -⟩ := ok_pair_inj hrun
  obtain rfl : (settle s t mode (.granted, l)).2 = s' := congrArg Prod.snd (Except.ok.inj h)
  exact ⟨rfl, rfl⟩

end Effects

/-- Releases by threads that are not waiting, and returns from waits that were signalled. -/
def drain (T : Type) [DecidableEq T] [Fintype T] : Interface (System T) (Action T) Reply where
  pre s
    | .unlock t mode => s.phase t = .outside ∧ 0 < s.grants t mode
    | .resume t => s.phase t ≠ .outside ∧ (s.lock.waiters t).signalled = true
    | _ => False
  step := step

/-- No thread waits for a mode while it holds one. -/
def WaitsFree {T : Type} (s : System T) : Prop :=
  ∀ t, s.phase t ≠ .outside → ∀ mode, s.grants t mode = 0

/-- What is left to do for a thread: a release for each grant, and two steps for a wait. -/
def load {T : Type} (s : System T) (t : T) : Nat :=
  s.grants t .is + s.grants t .ix + s.grants t .s + s.grants t .six + s.grants t .x +
    match s.phase t with
    | .outside => 0
    | .waiting _ => 2

section Drains

variable {T : Type} [DecidableEq T] [Fintype T] {s s' : System T} {t : T} {mode : LockMode}

omit [Fintype T] in
@[simp] theorem updateGrant_self (grants : T → LockMode → Nat) (n : Nat) (m : LockMode) :
    updateGrant grants t mode n t m = if m = mode then n else grants t m := by
  simp [updateGrant]

omit [Fintype T] in
theorem updateGrant_other (grants : T → LockMode → Nat) (n : Nat) {q : T} (hq : q ≠ t) :
    updateGrant grants t mode n q = grants q := by
  funext m
  simp [updateGrant, hq]

theorem sum_load_lt (hless : load s' t < load s t) (hother : ∀ q, q ≠ t → load s' q = load s q) :
    ∑ q, load s' q < ∑ q, load s q := by
  refine Finset.sum_lt_sum (fun q _ => ?_) ⟨t, Finset.mem_univ t, hless⟩
  by_cases hq : q = t
  · exact hq ▸ hless.le
  · exact (hother q hq).le

/-- A release takes one grant off what is left. -/
theorem unlock_drains (inv : Invariant s) (free : WaitsFree s) (hout : s.phase t = .outside)
    (hheld : 0 < s.grants t mode) :
    ∃ r s', step s (.unlock t mode) = .ok (r, s') ∧ Invariant s' ∧ WaitsFree s' ∧
      ∑ q, load s' q < ∑ q, load s q := by
  obtain ⟨s', hstep, inv'⟩ := unlock_returns inv hheld
  obtain ⟨hphase, hgrants⟩ := unlock_moved hstep
  refine ⟨_, s', hstep, inv', fun q hq m => ?_, sum_load_lt (t := t) ?_ fun q hq => ?_⟩
  · rw [hphase] at hq
    have hqt : q ≠ t := fun h => hq (h ▸ hout)
    rw [hgrants, updateGrant_other _ _ hqt]
    exact free q hq m
  · simp only [load, hphase, hgrants, updateGrant_self]
    cases mode <;> simp <;> omega
  · simp only [load, hphase, hgrants, updateGrant_other _ _ hq]

/-- When nothing is held, every waiter has been signalled, and its wait ends with a grant. -/
theorem resume_drains (inv : Invariant s) (hnone : ∀ q m, s.grants q m = 0)
    (hwait : s.phase t = .waiting mode) :
    (s.lock.waiters t).signalled = true ∧ ∃ r s', step s (.resume t) = .ok (r, s') ∧
      Invariant s' ∧ WaitsFree s' ∧ ∑ q, load s' q < ∑ q, load s q := by
  have hcounts : ∀ m, s.lock.holderCounts m = 0 := by
    intro m
    rw [inv.tally.total]
    exact Finset.sum_eq_zero fun q _ => by rw [hnone q m]; rfl
  have hc : ∀ m, isCompatible s.lock m = true := by
    intro m
    refine (isCompatible_iff _ _).mpr fun i hi => ?_
    rw [hcounts i] at hi
    exact absurd hi (lt_irrefl 0)
  refine ⟨?_, ?_⟩
  · obtain ⟨-, ws, line⟩ := inv
    by_contra hsignal
    have hno := line.woken t mode hwait (Bool.eq_false_iff.mpr hsignal)
    exact Bool.noConfusion (hno.symm.trans (hc mode))
  · have hwaiting : s.phase t ≠ .outside := by
      rw [hwait]
      exact Phase.noConfusion
    rcases resume_sound inv hwaiting with ⟨r, s', hstep, inv'⟩ | ⟨⟨m, hmax⟩, -⟩
    · obtain ⟨hphase, hgrants⟩ := resume_granted hwait (hc mode) hstep
      refine ⟨r, s', hstep, inv', fun q hq m => ?_, sum_load_lt (t := t) ?_ fun q hq => ?_⟩
      · have hqt : q ≠ t := by
          rintro rfl
          rw [hphase, Function.update_self] at hq
          exact hq rfl
        rw [hgrants, updateGrant_other _ _ hqt]
        exact hnone q m
      · simp only [load, hphase, hgrants, updateGrant_self, Function.update_self, hwait, hnone]
        cases mode <;> decide
      · simp only [load, hphase, hgrants, updateGrant_other _ _ hq, Function.update_of_ne hq]
    · rw [hcounts m] at hmax
      omega

/-- The lock never deadlocks: unless a thread waits while it holds a mode, releases and signalled
wake-ups alone lead from any reachable state to one where no thread waits or holds anything. -/
theorem drains_to_free (h : Reachable s) (free : WaitsFree s) :
    ∃ tr s', Trace (drain T) s tr s' ∧ (∀ t, s'.phase t = .outside) ∧ ∀ t m, s'.grants t m = 0 := by
  have inv := h.invariant
  clear h
  generalize hn : ∑ t, load s t = n
  induction n using Nat.strong_induction_on generalizing s with
  | _ n ih =>
    by_cases hheld : ∃ t mode, s.phase t = .outside ∧ 0 < s.grants t mode
    · obtain ⟨t, mode, hout, hpos⟩ := hheld
      obtain ⟨r, s₁, hstep, inv₁, free₁, hless⟩ := unlock_drains inv free hout hpos
      obtain ⟨tr, s', run, hend⟩ := ih _ (hn ▸ hless) free₁ inv₁ rfl
      have hpre : (drain T).pre s (.unlock t mode) := ⟨hout, hpos⟩
      exact ⟨_, s', .cons hpre hstep run, hend⟩
    · have hnone : ∀ t m, s.grants t m = 0 := by
        intro t m
        by_cases hout : s.phase t = .outside
        · by_contra hne
          exact hheld ⟨t, m, hout, Nat.pos_of_ne_zero hne⟩
        · exact free t hout m
      by_cases hwaits : ∃ t mode, s.phase t = .waiting mode
      · obtain ⟨t, mode, hwait⟩ := hwaits
        obtain ⟨hsignal, r, s₁, hstep, inv₁, free₁, hless⟩ := resume_drains inv hnone hwait
        obtain ⟨tr, s', run, hend⟩ := ih _ (hn ▸ hless) free₁ inv₁ rfl
        have hpre : (drain T).pre s (.resume t) := by
          refine ⟨?_, hsignal⟩
          rw [hwait]
          exact Phase.noConfusion
        exact ⟨_, s', .cons hpre hstep run, hend⟩
      · refine ⟨[], s, .nil s, fun t => ?_, hnone⟩
        cases hphase : s.phase t with
        | outside => rfl
        | waiting mode => exact absurd ⟨t, mode, hphase⟩ hwaits

/-- Thread `0` holds S and thread `1` waits for X. -/
theorem drains_to_free_waiting : ∃ s : System (Fin 2), s.phase 1 = .waiting .x ∧
    ∃ tr s', Trace (drain (Fin 2)) s tr s' ∧ (∀ t, s'.phase t = .outside) ∧
      ∀ t m, s'.grants t m = 0 := by
  have hrun : ∃ s, Trace (granularLock (Fin 2))
      (initial fun _ => { mode := .is, signalled := false, prev := none, next := none })
      [(.lock 0 .s true, .granted), (.lock 1 .x true, .blocked)] s ∧ s.phase 1 = .waiting .x ∧
      s.phase 0 = .outside ∧ ∀ mode, s.grants 1 mode = 0 := by
    refine ⟨_, .cons ?_ rfl (.cons ?_ rfl (.nil _)), rfl, rfl, fun mode => ?_⟩
    · rfl
    · rfl
    · cases mode <;> rfl
  obtain ⟨s, run, hwait, hout, hnone⟩ := hrun
  refine ⟨s, hwait, drains_to_free ⟨_, _, run⟩ fun t ht => ?_⟩
  have ht : t = 1 := by
    by_contra hne
    have hzero : t = 0 := by omega
    exact ht (hzero ▸ hout)
  exact ht ▸ hnone

end Drains

end GranularLock
