import CSpecx.Component
import CSpecx.GranularLock
import Mathlib.Algebra.BigOperators.Group.Finset.Basic
import Mathlib.Algebra.Order.BigOperators.Group.Finset

/-!
# Runs of the granular lock

The states are those in which the mutex is free: a step is one section of
`gr_lock`, `gr_trylock` or `gr_unlock` by some thread, and the return of a
condition wait, signalled or not, starts a section of its own. Grants and the
times of arrival are recorded beside the lock and are never read by it.
-/

namespace GranularLock

open CExec LinkedChain Component

variable {T : Type}

/-- A waiting thread is inside `i_cond_wait`, called from `gr_lock (l, mode)`. -/
inductive Phase where
  | outside
  | waiting (mode : LockMode)
  deriving DecidableEq, Repr

/-- `grants t m` counts the grants of mode `m` that `t` holds; `arrivedAt t` is
the time of its last call of `gr_lock`. -/
structure System (T : Type) where
  lock : GrLock T
  phase : T → Phase
  grants : T → LockMode → Nat
  clock : Nat
  arrivedAt : T → Nat

/-- `resume` is the return of `i_cond_wait`. -/
inductive Action (T : Type) where
  | lock (t : T) (mode : LockMode) (condCreated : Bool)
  | resume (t : T)
  | trylock (t : T) (mode : LockMode) (mutexTaken : Bool)
  | unlock (t : T) (mode : LockMode)

def Permitted (s : System T) : Action T → Prop
  | .lock t _ _ => s.phase t = .outside
  | .resume t => s.phase t ≠ .outside
  | .trylock t _ _ => s.phase t = .outside
  | .unlock t mode => 0 < s.grants t mode

section Steps

variable [DecidableEq T]

def updateGrant (grants : T → LockMode → Nat) (t : T) (mode : LockMode) (n : Nat) :
    T → LockMode → Nat :=
  fun q m => if q = t ∧ m = mode then n else grants q m

def arrive (s : System T) (t : T) : System T :=
  { s with clock := s.clock + 1, arrivedAt := Function.update s.arrivedAt t s.clock }

/-- What the result of a section means for the thread that ran it. -/
def settle (s : System T) (t : T) (mode : LockMode) : Reply × GrLock T → Reply × System T
  | (.granted, l) => (.granted, { s with
      lock := l
      phase := Function.update s.phase t .outside
      grants := updateGrant s.grants t mode (s.grants t mode + 1) })
  | (.blocked, l) => (.blocked, { s with
      lock := l
      phase := Function.update s.phase t (.waiting mode) })
  | (.failed, l) => (.failed, { s with lock := l })
  | (.released, l) => (.released, { s with
      lock := l
      grants := updateGrant s.grants t mode (s.grants t mode - 1) })

def step [Fintype T] (s : System T) : Action T → Outcome (Reply × System T)
  | .lock t mode condCreated => do
    let r ← grLock (Fintype.card T) s.lock t mode condCreated
    .ok (settle (arrive s t) t mode r)
  | .resume t =>
    match s.phase t with
    | .waiting mode => do
      let r ← waitOrAcquire s.lock t mode
      .ok (settle s t mode r)
    | .outside => .error .undefined
  | .trylock t mode mutexTaken => do
    let r ← grTrylock s.lock mode mutexTaken
    .ok (settle s t mode r)
  | .unlock t mode => do
    let r ← grUnlock (Fintype.card T) s.lock mode
    .ok (settle s t mode r)

def granularLock (T : Type) [DecidableEq T] [Fintype T] :
    Interface (System T) (Action T) Reply :=
  { pre := Permitted, step := step }

end Steps

def initial (memory : T → Waiter T) : System T :=
  { lock := grLockInit memory
    phase := fun _ => .outside
    grants := fun _ _ => 0
    clock := 0
    arrivedAt := fun _ => 0 }

def Reachable [DecidableEq T] [Fintype T] (s : System T) : Prop :=
  ∃ memory tr, Trace (granularLock T) (initial memory) tr s

/-- The counters are the grants, and the modes held admit one another. -/
structure Tally [Fintype T] (counts : LockMode → Int) (grants : T → LockMode → Nat) : Prop where
  total : ∀ m, counts m = ∑ t, (grants t m : Int)
  agree : ∀ m m', 0 < counts m → 0 < counts m' → m ≠ m' → compatible m m' = true
  repeated : ∀ m, 1 < counts m → compatible m m = true

/-- The waiters `ws`, in the order of arrival; a waiter not signalled since it
blocked cannot be admitted. -/
structure Line (s : System T) (ws : List T) : Prop where
  queue : Queue s.lock ws
  mem : ∀ t, t ∈ ws ↔ ∃ mode, s.phase t = .waiting mode
  order : ws.Pairwise fun a b => s.arrivedAt a < s.arrivedAt b
  past : ∀ t ∈ ws, s.arrivedAt t < s.clock
  mode : ∀ t m, s.phase t = .waiting m → (s.lock.waiters t).mode = m
  woken : ∀ t m, s.phase t = .waiting m → (s.lock.waiters t).signalled = false →
    isCompatible s.lock m = false

structure Invariant [Fintype T] (s : System T) : Prop where
  tally : Tally s.lock.holderCounts s.grants
  line : ∃ ws, Line s ws

section Tallies

variable [Fintype T] {counts : LockMode → Int} {grants : T → LockMode → Nat} {t : T}
  {mode : LockMode}

theorem Tally.held_le (tally : Tally counts grants) (t : T) (m : LockMode) :
    (grants t m : Int) ≤ counts m := by
  rw [tally.total]
  exact Finset.single_le_sum (f := fun q => (grants q m : Int))
    (fun q _ => Int.natCast_nonneg _) (Finset.mem_univ t)

variable [DecidableEq T]

theorem sum_updateGrant (n : Nat) (m : LockMode) :
    ∑ q, (updateGrant grants t mode n q m : Int) =
      if m = mode then ∑ q, (grants q m : Int) + ((n : Int) - grants t mode)
      else ∑ q, (grants q m : Int) := by
  by_cases hm : m = mode
  · subst hm
    have hsplit : ∀ g : T → Int, ∑ q, g q = g t + ∑ q ∈ Finset.univ.erase t, g q :=
      fun g => (Finset.add_sum_erase _ g (Finset.mem_univ t)).symm
    rw [if_pos rfl, hsplit, hsplit (fun q => (grants q m : Int))]
    have hrest : ∑ q ∈ Finset.univ.erase t, (updateGrant grants t m n q m : Int) =
        ∑ q ∈ Finset.univ.erase t, (grants q m : Int) := by
      refine Finset.sum_congr rfl fun q hq => ?_
      have hne : q ≠ t := (Finset.mem_erase.mp hq).1
      simp [updateGrant, hne]
    rw [hrest]
    simp only [updateGrant, and_self, if_true]
    omega
  · rw [if_neg hm]
    refine Finset.sum_congr rfl fun q _ => ?_
    simp [updateGrant, hm]

theorem Tally.grant (tally : Tally counts grants)
    (admits : ∀ i, 0 < counts i → compatible mode i = true) :
    Tally (Function.update counts mode (counts mode + 1))
      (updateGrant grants t mode (grants t mode + 1)) := by
  have hnonneg : ∀ m, 0 ≤ counts m := fun m => by
    rw [tally.total]
    exact Finset.sum_nonneg fun q _ => Int.natCast_nonneg _
  refine ⟨fun m => ?_, fun m m' hm hm' hne => ?_, fun m hm => ?_⟩
  · rw [sum_updateGrant, ← tally.total]
    by_cases h : m = mode
    · subst h
      simp
    · simp [h]
  · by_cases h : m = mode
    · subst h
      rw [Function.update_of_ne (Ne.symm hne)] at hm'
      exact admits m' hm'
    · by_cases h' : m' = mode
      · subst h'
        rw [Function.update_of_ne h] at hm
        rw [compatible_symm]
        exact admits m hm
      · rw [Function.update_of_ne h] at hm
        rw [Function.update_of_ne h'] at hm'
        exact tally.agree m m' hm hm' hne
  · by_cases h : m = mode
    · subst h
      rw [Function.update_self] at hm
      exact admits m (by omega)
    · rw [Function.update_of_ne h] at hm
      exact tally.repeated m hm

theorem Tally.release (tally : Tally counts grants) (held : 0 < grants t mode) :
    Tally (Function.update counts mode (counts mode - 1))
      (updateGrant grants t mode (grants t mode - 1)) := by
  have hle : ∀ m, Function.update counts mode (counts mode - 1) m ≤ counts m := by
    intro m
    by_cases h : m = mode
    · subst h
      rw [Function.update_self]
      omega
    · rw [Function.update_of_ne h]
  refine ⟨fun m => ?_, fun m m' hm hm' hne => ?_, fun m hm => ?_⟩
  · rw [sum_updateGrant, ← tally.total]
    by_cases h : m = mode
    · subst h
      rw [Function.update_self, if_pos rfl]
      omega
    · rw [Function.update_of_ne h, if_neg h]
  · exact tally.agree m m' (lt_of_lt_of_le hm (hle m)) (lt_of_lt_of_le hm' (hle m')) hne
  · exact tally.repeated m (lt_of_lt_of_le hm (hle m))

/-- Two grants differ in their holder, their mode, or their number with one
holder and mode. -/
theorem Tally.distinct (tally : Tally counts grants) {t t' : T} {m m' : LockMode}
    {i i' : Nat} (hi : i < grants t m) (hi' : i' < grants t' m')
    (hne : (t, m, i) ≠ (t', m', i')) : compatible m m' = true := by
  have hheld := tally.held_le t m
  have hheld' := tally.held_le t' m'
  by_cases hm : m = m'
  · subst hm
    refine tally.repeated m ?_
    by_cases ht : t = t'
    · subst ht
      have hii : i ≠ i' := fun h => hne (by rw [h])
      omega
    · have hpair : (grants t m : Int) + grants t' m ≤ counts m := by
        rw [tally.total, ← Finset.sum_pair (f := fun q => (grants q m : Int)) ht]
        exact Finset.sum_le_sum_of_subset_of_nonneg (Finset.subset_univ _)
          fun q _ _ => Int.natCast_nonneg _
      omega
  · exact tally.agree m m' (by omega) (by omega) hm

end Tallies

section Lines

variable {s : System T} {ws : List T} {t : T} {mode : LockMode}

theorem Line.outside (line : Line s ws) (h : s.phase t = .outside) : t ∉ ws := by
  intro hmem
  obtain ⟨mode, hw⟩ := (line.mem t).mp hmem
  rw [h] at hw
  cases hw

theorem Line.length_le [Fintype T] (line : Line s ws) : ws.length ≤ Fintype.card T :=
  line.queue.nodup.length_le_card

theorem positive_setCount (l : GrLock T) (mode i : LockMode)
    (h : 0 < l.holderCounts i) :
    0 < (l.setCount mode (l.holderCounts mode + 1)).holderCounts i := by
  by_cases hi : i = mode
  · subst hi
    simp only [GrLock.setCount, Function.update_self]
    omega
  · simpa [GrLock.setCount, hi] using h

/-- A counter that grows admits no waiter. -/
theorem Line.grow (line : Line s ws) {grants : T → LockMode → Nat} :
    Line { s with
      lock := s.lock.setCount mode (s.lock.holderCounts mode + 1)
      grants := grants } ws := by
  refine ⟨line.queue, line.mem, line.order, line.past, line.mode, fun q m hq hs => ?_⟩
  have hno := line.woken q m hq hs
  rw [Bool.eq_false_iff] at hno ⊢
  exact fun hc => hno (isCompatible_antitone (positive_setCount s.lock mode) hc)

variable [DecidableEq T]

theorem Line.arrive (line : Line s ws) (h : t ∉ ws) : Line (arrive s t) ws := by
  have hsame : ∀ q ∈ ws, (GranularLock.arrive s t).arrivedAt q = s.arrivedAt q :=
    fun q hq => Function.update_of_ne (ne_of_mem_of_not_mem hq h) _ _
  refine ⟨line.queue, line.mem, ?_, fun q hq => ?_, line.mode, line.woken⟩
  · refine line.order.imp_of_mem fun ha hb hab => ?_
    rw [hsame _ ha, hsame _ hb]
    exact hab
  · rw [hsame q hq]
    exact Nat.lt_succ_of_lt (line.past q hq)

/-- The stack of a thread outside the lock is not part of the list. -/
theorem Line.scratch (line : Line s ws) (h : s.phase t = .outside) (v : Waiter T) :
    Line { s with lock := s.lock.setWaiter t v } ws := by
  have ht : t ∉ ws := line.outside h
  have hother : ∀ q, q ≠ t → (s.lock.setWaiter t v).waiters q = s.lock.waiters q :=
    fun q hq => Function.update_of_ne hq _ _
  have hws : ∀ q ∈ ws, q ≠ t := fun q hq he => ht (he ▸ hq)
  have hwait : ∀ q m, s.phase q = .waiting m → q ≠ t := by
    intro q m hq he
    rw [he, h] at hq
    cases hq
  refine ⟨?_, line.mem, line.order, line.past, fun q m hq => ?_, fun q m hq hs => ?_⟩
  · refine line.queue.congr (fun q hq => ?_) (fun q hq => ?_)
    · simp only [GrLock.next, hother q (hws q hq)]
    · simp only [GrLock.prev, hother q (hws q hq)]
  · simp only [hother q (hwait q m hq)]
    exact line.mode q m hq
  · simp only [hother q (hwait q m hq)] at hs
    exact line.woken q m hq hs

/-- A refused thread joins the end of the line and blocks. -/
theorem Line.block (line : Line s ws) (h : s.phase t = .outside) {l : GrLock T}
    (queue : Queue l (ws ++ [t])) (links : LinksOnly s.lock l)
    (hmode : (s.lock.waiters t).mode = mode) (hlast : ∀ q ∈ ws, s.arrivedAt q < s.arrivedAt t)
    (hpast : s.arrivedAt t < s.clock) (hno : isCompatible s.lock mode = false) :
    Line { s with lock := l.condWait t, phase := Function.update s.phase t (.waiting mode) }
      (ws ++ [t]) := by
  have ht : t ∉ ws := line.outside h
  have hself : ∀ q, ((l.condWait t).waiters q).mode = (l.waiters q).mode := by
    intro q
    by_cases hq : q = t
    · subst hq; simp [GrLock.condWait, GrLock.setWaiter]
    · simp [GrLock.condWait, GrLock.setWaiter, hq]
  have hcompat : ∀ m, isCompatible (l.condWait t) m = isCompatible s.lock m :=
    fun m => isCompatible_congr links.holderCounts
  refine ⟨?_, fun q => ?_, ?_, fun q hq => ?_, fun q m hq => ?_, fun q m hq hs => ?_⟩
  · refine queue.congr (fun q _ => ?_) (fun q _ => ?_)
    · by_cases hq : q = t
      · subst hq; simp [GrLock.next, GrLock.condWait, GrLock.setWaiter]
      · simp [GrLock.next, GrLock.condWait, GrLock.setWaiter, hq]
    · by_cases hq : q = t
      · subst hq; simp [GrLock.prev, GrLock.condWait, GrLock.setWaiter]
      · simp [GrLock.prev, GrLock.condWait, GrLock.setWaiter, hq]
  · by_cases hq : q = t
    · subst hq; simp
    · simp [hq, line.mem]
  · refine List.pairwise_append.mpr ⟨line.order, List.pairwise_singleton _ _, ?_⟩
    intro a ha b hb
    rw [List.mem_singleton.mp hb]
    exact hlast a ha
  · rcases List.mem_append.mp hq with hq | hq
    · exact line.past q hq
    · rw [List.mem_singleton.mp hq]
      exact hpast
  · simp only [hself, links.mode]
    by_cases he : q = t
    · subst he
      simp only [Function.update_self, Phase.waiting.injEq] at hq
      exact hmode.trans hq
    · simp only [Function.update_of_ne he] at hq
      exact line.mode q m hq
  · rw [hcompat]
    by_cases he : q = t
    · subst he
      simp only [Function.update_self, Phase.waiting.injEq] at hq
      exact hq ▸ hno
    · simp only [Function.update_of_ne he] at hq
      refine line.woken q m hq ?_
      simpa [GrLock.condWait, GrLock.setWaiter, he, links.signalled] using hs

/-- A woken waiter that is refused again keeps its place. -/
theorem Line.blockAgain (line : Line s ws) (h : s.phase t = .waiting mode)
    (hno : isCompatible s.lock mode = false) :
    Line { s with
      lock := s.lock.condWait t
      phase := Function.update s.phase t (.waiting mode) } ws := by
  have hphase : Function.update s.phase t (.waiting mode) = s.phase := by
    rw [← h, Function.update_eq_self]
  rw [hphase]
  refine ⟨?_, line.mem, line.order, line.past, fun q m hq => ?_, fun q m hq hs => ?_⟩
  · refine line.queue.congr (fun q _ => ?_) (fun q _ => ?_)
    · by_cases hq : q = t
      · subst hq; simp [GrLock.next, GrLock.condWait, GrLock.setWaiter]
      · simp [GrLock.next, GrLock.condWait, GrLock.setWaiter, hq]
    · by_cases hq : q = t
      · subst hq; simp [GrLock.prev, GrLock.condWait, GrLock.setWaiter]
      · simp [GrLock.prev, GrLock.condWait, GrLock.setWaiter, hq]
  · by_cases he : q = t
    · subst he
      simpa [GrLock.condWait, GrLock.setWaiter] using line.mode q m hq
    · simpa [GrLock.condWait, GrLock.setWaiter, he] using line.mode q m hq
  · have hc : isCompatible (s.lock.condWait t) m = isCompatible s.lock m :=
      isCompatible_congr rfl
    rw [hc]
    by_cases he : q = t
    · subst he
      rw [h] at hq
      exact Phase.waiting.inj hq ▸ hno
    · refine line.woken q m hq ?_
      simpa [GrLock.condWait, GrLock.setWaiter, he] using hs

/-- A waiter that leaves the line. -/
theorem Line.leave {ws₁ ws₂ : List T} (line : Line s (ws₁ ++ t :: ws₂)) {l : GrLock T}
    (queue : Queue l (ws₁ ++ ws₂)) (links : LinksOnly s.lock l) :
    Line { s with lock := l, phase := Function.update s.phase t .outside }
      (ws₁ ++ ws₂) := by
  have ht : t ∉ ws₁ ++ ws₂ :=
    (List.nodup_cons.mp (List.perm_middle.nodup_iff.mp line.queue.nodup)).1
  have hsub : (ws₁ ++ ws₂).Sublist (ws₁ ++ t :: ws₂) :=
    (List.sublist_cons_self t ws₂).append_left ws₁
  have hcompat : ∀ m, isCompatible l m = isCompatible s.lock m :=
    fun m => isCompatible_congr links.holderCounts
  have hphase : ∀ q m, Function.update s.phase t .outside q = .waiting m →
      q ≠ t ∧ s.phase q = .waiting m := by
    intro q m hq
    by_cases he : q = t
    · subst he; simp at hq
    · exact ⟨he, by simpa [he] using hq⟩
  refine ⟨queue, fun q => ?_, line.order.sublist hsub, fun q hq => line.past q (hsub.subset hq),
    fun q m hq => ?_, fun q m hq hs => ?_⟩
  · by_cases he : q = t
    · subst he
      simp [ht]
    · have hiff : q ∈ ws₁ ++ ws₂ ↔ q ∈ ws₁ ++ t :: ws₂ := by simp [he]
      simp [hiff, he, line.mem]
  · rw [links.mode]
    exact line.mode q m (hphase q m hq).2
  · rw [hcompat]
    rw [links.signalled] at hs
    exact line.woken q m (hphase q m hq).2 hs

/-- After a release, the pass over the list has signalled every waiter that the
lower counters admit. -/
theorem Line.wake (line : Line s ws) {l l' : GrLock T} (hhead : l.head = s.lock.head)
    (hcounts : l'.holderCounts = l.holderCounts) (hhead' : l'.head = l.head)
    (hwaiters : ∀ q, l'.waiters q =
      { s.lock.waiters q with signalled := (s.lock.waiters q).signalled ||
          (decide (q ∈ ws) && isCompatible l (s.lock.waiters q).mode) })
    {grants : T → LockMode → Nat} : Line { s with lock := l', grants := grants } ws := by
  refine ⟨?_, line.mem, line.order, line.past, fun q m hq => ?_, fun q m hq hs => ?_⟩
  · have hchain : Chain l'.next l'.prev s.lock.head ws := line.queue.congr
      (fun q _ => by simp only [GrLock.next, hwaiters])
      (fun q _ => by simp only [GrLock.prev, hwaiters])
    simpa only [Queue, hhead', hhead] using hchain
  · simp only [hwaiters]
    exact line.mode q m hq
  · have hmem : q ∈ ws := (line.mem q).mpr ⟨m, hq⟩
    simp only [hwaiters, hmem, decide_true, Bool.true_and, Bool.or_eq_false_iff,
      line.mode q m hq] at hs
    rw [isCompatible_congr hcounts]
    exact hs.2

end Lines

theorem initial_invariant [Fintype T] (memory : T → Waiter T) : Invariant (initial memory) := by
  refine ⟨⟨fun m => ?_, fun m m' hm => ?_, fun m hm => ?_⟩, [], ?_⟩
  · simp [initial, grLockInit]
  · simp [initial, grLockInit] at hm
  · simp [initial, grLockInit] at hm
  · refine ⟨Chain.empty, ?_, List.Pairwise.nil, ?_, ?_, ?_⟩ <;> simp [initial]

section Steps

variable [DecidableEq T] [Fintype T] {s : System T} {t : T} {mode : LockMode}

/-- The call returns into a state of the invariant, unless it would take a
counter past the largest `int`. -/
def Sound (s : System T) (o : Outcome (Reply × System T)) : Prop :=
  (∃ r s', o = .ok (r, s') ∧ Invariant s') ∨
    (∃ m, 2 ^ 31 - 1 ≤ s.lock.holderCounts m) ∧ o = .error .undefined

theorem sound_settle {o : Outcome (Reply × System T)} {s₀ : System T}
    {p : Reply × GrLock T} (h : o = .ok (settle s₀ t mode p))
    (inv : Invariant (settle s₀ t mode p).2) : Sound s o :=
  Or.inl ⟨_, _, h, inv⟩

theorem lock_sound (inv : Invariant s) (h : s.phase t = .outside) (condCreated : Bool) :
    Sound s (step s (.lock t mode condCreated)) := by
  obtain ⟨tally, ws, line⟩ := inv
  have ht : t ∉ ws := line.outside h
  have line' := line.arrive ht
  have hphase : Function.update s.phase t .outside = s.phase := by
    rw [← h, Function.update_eq_self]
  by_cases hc : isCompatible s.lock mode = true
  · rcases grant_cases s.lock mode with hg | ⟨hmax, hg⟩
    · have hrun : step s (.lock t mode condCreated) = .ok (settle (arrive s t) t mode
          (.granted, s.lock.setCount mode (s.lock.holderCounts mode + 1))) := by
        simp only [step, grLock, hc, if_true, hg, ok_bind]
      refine sound_settle hrun ⟨tally.grant ((isCompatible_iff _ _).mp hc), ws, ?_⟩
      simp only [settle, arrive, hphase]
      exact line'.grow
    · refine Or.inr ⟨⟨mode, hmax⟩, ?_⟩
      simp only [step, grLock, hc, if_true, hg, error_bind]
  · have hno : isCompatible s.lock mode = false := Bool.eq_false_iff.mpr hc
    have scratch := line'.scratch (t := t) h
      { mode := mode, signalled := false, prev := none, next := none }
    cases condCreated with
    | false =>
      have hrun : step s (.lock t mode false) = .ok (settle (arrive s t) t mode
          (.failed, waiterInit s.lock t mode)) := by
        simp only [step, grLock, hno, Bool.false_eq_true, if_false, ok_bind]
      exact sound_settle hrun ⟨tally, ws, scratch⟩
    | true =>
      obtain ⟨l, happend, queue, links⟩ := waiterAppendUnsafe_spec scratch.queue
        line.length_le ht (by simp [GrLock.next, GrLock.setWaiter])
        (by simp [GrLock.prev, GrLock.setWaiter])
      have hno' : isCompatible l mode = false :=
        (isCompatible_congr links.holderCounts).trans hno
      have happend' : waiterAppendUnsafe (Fintype.card T) (waiterInit s.lock t mode) t =
          .ok l := happend
      have hrun : step s (.lock t mode true) = .ok (settle (arrive s t) t mode
          (.blocked, l.condWait t)) := by
        simp only [step, grLock, hno, Bool.false_eq_true, if_false, if_true, happend',
          ok_bind, waitOrAcquire, hno']
      refine sound_settle hrun ⟨?_, ws ++ [t], scratch.block h queue links ?_ ?_ ?_ hno⟩
      · have hcounts : (l.condWait t).holderCounts = s.lock.holderCounts :=
          links.holderCounts
        simp only [settle, hcounts]
        exact tally
      · simp [GrLock.setWaiter]
      · intro q hq
        have hne : q ≠ t := ne_of_mem_of_not_mem hq ht
        simpa [arrive, hne] using line.past q hq
      · simp [arrive]

theorem resume_sound (inv : Invariant s) (h : s.phase t ≠ .outside) :
    Sound s (step s (.resume t)) := by
  obtain ⟨tally, ws, line⟩ := inv
  obtain ⟨mode, hw⟩ : ∃ mode, s.phase t = .waiting mode := by
    cases hp : s.phase t with
    | outside => exact absurd hp h
    | waiting mode => exact ⟨mode, rfl⟩
  by_cases hc : isCompatible s.lock mode = true
  · obtain ⟨ws₁, ws₂, rfl⟩ := Chain.mem_split ((line.mem t).mpr ⟨mode, hw⟩)
    obtain ⟨l, hremove, queue, links⟩ := waiterRemoveUnsafe_spec line.queue
    have line' := line.leave queue links
    rcases grant_cases l mode with hg | ⟨hmax, hg⟩
    · have hrun : step s (.resume t) = .ok (settle s t mode
          (.granted, l.setCount mode (l.holderCounts mode + 1))) := by
        simp only [step, hw, waitOrAcquire, hc, if_true, hremove, hg, ok_bind]
      refine sound_settle hrun ⟨?_, ws₁ ++ ws₂, line'.grow⟩
      simp only [settle, GrLock.setCount, links.holderCounts]
      exact tally.grant ((isCompatible_iff _ _).mp hc)
    · refine Or.inr ⟨⟨mode, links.holderCounts ▸ hmax⟩, ?_⟩
      simp only [step, hw, waitOrAcquire, hc, if_true, hremove, hg, ok_bind, error_bind]
  · have hno : isCompatible s.lock mode = false := Bool.eq_false_iff.mpr hc
    have hrun : step s (.resume t) = .ok (settle s t mode
        (.blocked, s.lock.condWait t)) := by
      simp only [step, hw, waitOrAcquire, hno, Bool.false_eq_true, if_false, ok_bind]
    exact sound_settle hrun ⟨tally, ws, line.blockAgain hw hno⟩

theorem trylock_sound (inv : Invariant s) (h : s.phase t = .outside) (mutexTaken : Bool) :
    Sound s (step s (.trylock t mode mutexTaken)) := by
  have hphase : Function.update s.phase t .outside = s.phase := by
    rw [← h, Function.update_eq_self]
  cases mutexTaken with
  | false => exact Or.inl ⟨.failed, s, rfl, inv⟩
  | true =>
    by_cases hc : isCompatible s.lock mode = true
    · obtain ⟨tally, ws, line⟩ := inv
      rcases grant_cases s.lock mode with hg | ⟨hmax, hg⟩
      · have hrun : step s (.trylock t mode true) = .ok (settle s t mode
            (.granted, s.lock.setCount mode (s.lock.holderCounts mode + 1))) := by
          simp only [step, grTrylock, hc, Bool.not_true, Bool.false_eq_true, if_false, hg,
            ok_bind]
        refine sound_settle hrun ⟨tally.grant ((isCompatible_iff _ _).mp hc), ws, ?_⟩
        simp only [settle, hphase]
        exact line.grow
      · refine Or.inr ⟨⟨mode, hmax⟩, ?_⟩
        simp only [step, grTrylock, hc, Bool.not_true, Bool.false_eq_true, if_false, hg,
          error_bind]
    · have hno : isCompatible s.lock mode = false := Bool.eq_false_iff.mpr hc
      have hrun : step s (.trylock t mode true) = .ok (settle s t mode
          (.failed, s.lock)) := by
        simp only [step, grTrylock, hno, Bool.not_true, Bool.not_false, Bool.false_eq_true,
          if_false, if_true, ok_bind]
      exact sound_settle hrun inv

theorem unlock_sound (inv : Invariant s) (h : 0 < s.grants t mode) :
    Sound s (step s (.unlock t mode)) := by
  obtain ⟨tally, ws, line⟩ := inv
  have hheld : 0 < s.lock.holderCounts mode := by
    have := tally.held_le t mode
    omega
  obtain ⟨l, hl⟩ : ∃ l, l = s.lock.setCount mode (s.lock.holderCounts mode - 1) := ⟨_, rfl⟩
  have hseg : Seg l.next l.prev none ws none := by
    rw [hl]
    exact line.queue.seg
  obtain ⟨l', hwake, hcounts, hhead, hwaiters⟩ :=
    wakeWaiters_spec hseg line.queue.nodup line.length_le
  have hfirst : l.head = ws.head? := by
    rw [hl]
    exact line.queue.head_eq
  -- over an empty list the pass changes nothing, so the test before it is redundant
  have hpass : wakeList (Fintype.card T) l = .ok l' := by
    rw [wakeList, hfirst]
    cases ws with
    | nil => simpa [wakeWaiters] using hwake
    | cons w ws => simpa using hwake
  have hrun : step s (.unlock t mode) = .ok (settle s t mode (.released, l')) := by
    simp only [step, grUnlock]
    rw [assert_pos hheld, ok_bind, ← hl, hpass, ok_bind, ok_bind]
  refine sound_settle hrun ⟨?_, ws, line.wake (l := l) (by rw [hl]; rfl) hcounts hhead ?_⟩
  · simp only [settle, hcounts, hl]
    exact tally.release h
  · intro q
    rw [hwaiters, hl]
    rfl

theorem step_sound (inv : Invariant s) {a : Action T} (permitted : Permitted s a) :
    Sound s (step s a) := by
  cases a with
  | lock t mode condCreated => exact lock_sound inv permitted condCreated
  | resume t => exact resume_sound inv permitted
  | trylock t mode mutexTaken => exact trylock_sound inv permitted mutexTaken
  | unlock t mode => exact unlock_sound inv permitted

theorem preserves_invariant : Preserves (granularLock T) Invariant := by
  intro s a r s' inv permitted hstep
  rcases step_sound inv permitted with ⟨r', t, hstep', inv'⟩ | ⟨-, hstep'⟩
  · obtain ⟨-, rfl⟩ := ok_pair_inj (hstep.symm.trans hstep')
    exact inv'
  · exact absurd (hstep.symm.trans hstep') (by simp)

theorem Reachable.invariant (h : Reachable s) : Invariant s := by
  obtain ⟨memory, tr, run⟩ := h
  exact preserves_invariant.trace (initial_invariant memory) run

/-- In every reachable state a permitted call returns, unless a counter is at
the largest `int`: no assertion of the lock fails and no list walk is endless. -/
theorem reachable_step_sound (h : Reachable s) {a : Action T} (permitted : Permitted s a) :
    (∃ r s', step s a = .ok (r, s') ∧ Reachable s') ∨
      (∃ m, 2 ^ 31 - 1 ≤ s.lock.holderCounts m) ∧ step s a = .error .undefined := by
  rcases step_sound h.invariant permitted with ⟨r, s', hstep, -⟩ | hmax
  · obtain ⟨memory, tr, run⟩ := h
    exact Or.inl ⟨r, s', hstep, memory, tr ++ [(a, r)],
      run.append (.cons permitted hstep (.nil s'))⟩
  · exact Or.inr hmax

/-- Three threads: `0` holds S, `1` waits for X and `2` for IX; on the release
both are signalled, `2` overtakes `1`, and `1` blocks again. -/
def bargingRun : List (Action (Fin 3) × Reply) :=
  [(.lock 0 .s true, .granted), (.lock 1 .x true, .blocked), (.lock 2 .ix true, .blocked),
    (.unlock 0 .s, .released), (.resume 2, .granted), (.resume 1, .blocked)]

theorem bargingRun_trace : ∃ s, Trace (granularLock (Fin 3))
    (initial fun _ => { mode := .is, signalled := false, prev := none, next := none })
    bargingRun s ∧ s.phase 1 = .waiting .x ∧ (s.lock.waiters 1).signalled = false := by
  refine ⟨_, .cons ?_ rfl (.cons ?_ rfl (.cons ?_ rfl (.cons ?_ rfl (.cons ?_ rfl
    (.cons ?_ rfl (.nil _)))))), rfl, rfl⟩
  · rfl
  · rfl
  · rfl
  · exact Nat.succ_pos 0
  · exact fun h => nomatch (h : Phase.waiting .ix = .outside)
  · exact fun h => nomatch (h : Phase.waiting .x = .outside)

/-- No two grants in force conflict, the counters count them, and the waiter
list is the waiting threads in the order of their arrival. -/
theorem granted_group_compatible (h : Reachable s) :
    (∀ m, s.lock.holderCounts m = ∑ t, (s.grants t m : Int)) ∧
    (∀ t t' m m' i i', i < s.grants t m → i' < s.grants t' m' →
      (t, m, i) ≠ (t', m', i') → compatible m m' = true) ∧
    ∃ ws, Chain s.lock.next s.lock.prev s.lock.head ws ∧
      (∀ t, t ∈ ws ↔ ∃ mode, s.phase t = .waiting mode) ∧
      ws.Pairwise fun a b => s.arrivedAt a < s.arrivedAt b := by
  obtain ⟨tally, ws, line⟩ := h.invariant
  exact ⟨tally.total, fun t t' m m' i i' hi hi' hne => tally.distinct hi hi' hne,
    ws, line.queue, line.mem, line.order⟩

theorem granted_group_compatible_barging : ∃ s : System (Fin 3), s.phase 1 = .waiting .x ∧
    (∀ m, s.lock.holderCounts m = ∑ t, (s.grants t m : Int)) ∧
    (∀ t t' m m' i i', i < s.grants t m → i' < s.grants t' m' →
      (t, m, i) ≠ (t', m', i') → compatible m m' = true) ∧
    ∃ ws, Chain s.lock.next s.lock.prev s.lock.head ws ∧
      (∀ t, t ∈ ws ↔ ∃ mode, s.phase t = .waiting mode) ∧
      ws.Pairwise fun a b => s.arrivedAt a < s.arrivedAt b := by
  obtain ⟨s, run, hphase, -⟩ := bargingRun_trace
  exact ⟨s, hphase, granted_group_compatible ⟨_, _, run⟩⟩

/-- A blocked thread that was not signalled since it blocked waits for a mode
the present holders exclude. -/
theorem no_lost_wakeup (h : Reachable s) {t : T} {mode : LockMode}
    (blocked : s.phase t = .waiting mode)
    (unsignalled : (s.lock.waiters t).signalled = false) :
    isCompatible s.lock mode = false := by
  obtain ⟨-, ws, line⟩ := h.invariant
  exact line.woken t mode blocked unsignalled

theorem no_lost_wakeup_barging : ∃ s : System (Fin 3), s.phase 1 = .waiting .x ∧
    (s.lock.waiters 1).signalled = false ∧ isCompatible s.lock .x = false := by
  obtain ⟨s, run, hphase, hs⟩ := bargingRun_trace
  exact ⟨s, hphase, hs, no_lost_wakeup ⟨_, _, run⟩ hphase hs⟩

end Steps

end GranularLock
