import CSpecx.CExec
import CSpecx.LinkedChain
import Mathlib.Data.Fintype.Card
import Mathlib.Logic.Function.Basic

/-!
# The granular lock

`gr_lock.c` keeps a counter for each mode and an intrusive list of waiters that
live on the stacks of the blocked threads. A thread has one waiter at most, so
a waiter's address is its thread. Every function here is one section in which
the mutex is held.
-/

namespace GranularLock

open CExec LinkedChain

inductive LockMode where
  | is
  | ix
  | s
  | six
  | x
  deriving DecidableEq, Repr

def compatible : LockMode → LockMode → Bool
  | .is, .x => false
  | .is, _ => true
  | .ix, .is => true
  | .ix, .ix => true
  | .ix, _ => false
  | .s, .is => true
  | .s, .s => true
  | .s, _ => false
  | .six, .is => true
  | .six, _ => false
  | .x, _ => false

theorem compatible_symm (m m' : LockMode) : compatible m m' = compatible m' m := by
  cases m <;> cases m' <;> rfl

/-- `signalled` is the condition variable: set by a signal, cleared when the
owner blocks on it. -/
structure Waiter (T : Type) where
  mode : LockMode
  signalled : Bool
  prev : Option T
  next : Option T

structure GrLock (T : Type) where
  holderCounts : LockMode → Int
  head : Option T
  waiters : T → Waiter T

inductive Reply where
  | granted
  | blocked
  | failed
  | released
  deriving DecidableEq, Repr

variable {T : Type}

/-- `gr_lock_init` on memory with any contents. -/
def grLockInit (memory : T → Waiter T) : GrLock T :=
  { holderCounts := fun _ => 0, head := none, waiters := memory }

def isCompatible (l : GrLock T) (mode : LockMode) : Bool :=
  [LockMode.is, .ix, .s, .six, .x].all fun i =>
    !(decide (0 < l.holderCounts i) && !compatible mode i)

namespace GrLock

def setCount (l : GrLock T) (mode : LockMode) (n : Int) : GrLock T :=
  { l with holderCounts := Function.update l.holderCounts mode n }

def next (l : GrLock T) (w : T) : Option T := (l.waiters w).next

def prev (l : GrLock T) (w : T) : Option T := (l.waiters w).prev

variable [DecidableEq T]

def setWaiter (l : GrLock T) (w : T) (v : Waiter T) : GrLock T :=
  { l with waiters := Function.update l.waiters w v }

def setNext (l : GrLock T) (w : T) (p : Option T) : GrLock T :=
  l.setWaiter w { l.waiters w with next := p }

def setPrev (l : GrLock T) (w : T) (p : Option T) : GrLock T :=
  l.setWaiter w { l.waiters w with prev := p }

/-- `i_cond_signal`. -/
def condSignal (l : GrLock T) (w : T) : GrLock T :=
  l.setWaiter w { l.waiters w with signalled := true }

/-- The start of `i_cond_wait`: the mutex is released in the same step. -/
def condWait (l : GrLock T) (w : T) : GrLock T :=
  l.setWaiter w { l.waiters w with signalled := false }

end GrLock

section Functions

variable [DecidableEq T]

def wakeWaiters : Nat → GrLock T → Option T → Outcome (GrLock T)
  | _, l, none => .ok l
  | 0, _, some _ => .error .fuel
  | fuel + 1, l, some w =>
    let l := if isCompatible l (l.waiters w).mode then l.condSignal w else l
    wakeWaiters fuel l (l.next w)

/-- The test on the head and the pass of `gr_unlock`. -/
def wakeList (fuel : Nat) (l : GrLock T) : Outcome (GrLock T) :=
  if l.head.isSome then wakeWaiters fuel l l.head else .ok l

def waiterInit (l : GrLock T) (w : T) (mode : LockMode) : GrLock T :=
  l.setWaiter w { mode := mode, signalled := false, prev := none, next := none }

/-- The search for the end of the list in `gr_lock_waiter_append_unsafe`. -/
def lastWaiter : Nat → GrLock T → T → Outcome T
  | 0, _, _ => .error .fuel
  | fuel + 1, l, w =>
    match l.next w with
    | none => .ok w
    | some n => lastWaiter fuel l n

def waiterAppendUnsafe (fuel : Nat) (l : GrLock T) (w : T) : Outcome (GrLock T) :=
  match l.head with
  | none => .ok { l with head := some w }
  | some h => do
    let last ← lastWaiter fuel l h
    .ok ((l.setNext last (some w)).setPrev w (some last))

/-- `w->prev->next = w->next`, or the same for the head. -/
def unlinkNext (l : GrLock T) (w : T) : Outcome (GrLock T) :=
  match l.prev w with
  | some p => .ok (l.setNext p (l.next w))
  | none => do
    assert (l.head = some w)
    .ok { l with head := l.next w }

/-- `w->next->prev = w->prev`. -/
def unlinkPrev (l : GrLock T) (w : T) : GrLock T :=
  match l.next w with
  | some n => l.setPrev n (l.prev w)
  | none => l

def waiterRemoveUnsafe (l : GrLock T) (w : T) : Outcome (GrLock T) := do
  let l ← unlinkNext l w
  .ok (unlinkPrev l w)

/-- `l->holder_counts[mode]++` on an `int`. -/
def grant (l : GrLock T) (mode : LockMode) : Outcome (GrLock T) := do
  access (l.holderCounts mode < 2 ^ 31 - 1)
  .ok (l.setCount mode (l.holderCounts mode + 1))

/-- The loop test of `gr_lock` and what follows it, entered before the first
wait and again whenever `i_cond_wait` returns. -/
def waitOrAcquire (l : GrLock T) (w : T) (mode : LockMode) : Outcome (Reply × GrLock T) :=
  if isCompatible l mode then do
    let l ← waiterRemoveUnsafe l w
    let l ← grant l mode
    .ok (.granted, l)
  else
    .ok (.blocked, l.condWait w)

def grLock (fuel : Nat) (l : GrLock T) (t : T) (mode : LockMode) (condCreated : Bool) :
    Outcome (Reply × GrLock T) :=
  if isCompatible l mode then do
    let l ← grant l mode
    .ok (.granted, l)
  else if condCreated then do
    let l ← waiterAppendUnsafe fuel (waiterInit l t mode) t
    waitOrAcquire l t mode
  else
    .ok (.failed, waiterInit l t mode)

def grTrylock (l : GrLock T) (mode : LockMode) (mutexTaken : Bool) :
    Outcome (Reply × GrLock T) :=
  if !mutexTaken then
    .ok (.failed, l)
  else if !isCompatible l mode then
    .ok (.failed, l)
  else do
    let l ← grant l mode
    .ok (.granted, l)

def grUnlock (fuel : Nat) (l : GrLock T) (mode : LockMode) : Outcome (Reply × GrLock T) := do
  assert (0 < l.holderCounts mode)
  let l := l.setCount mode (l.holderCounts mode - 1)
  let l ← wakeList fuel l
  .ok (.released, l)

end Functions

theorem isCompatible_iff (l : GrLock T) (mode : LockMode) :
    isCompatible l mode = true ↔ ∀ i, 0 < l.holderCounts i → compatible mode i = true := by
  simp only [isCompatible, List.all_cons, List.all_nil, Bool.and_true, Bool.and_eq_true,
    Bool.not_eq_true', Bool.and_eq_false_iff, decide_eq_false_iff_not, Bool.not_eq_false']
  constructor
  · rintro ⟨h₁, h₂, h₃, h₄, h₅⟩ i hi
    cases i with
    | is => exact h₁.resolve_left (not_not_intro hi)
    | ix => exact h₂.resolve_left (not_not_intro hi)
    | s => exact h₃.resolve_left (not_not_intro hi)
    | six => exact h₄.resolve_left (not_not_intro hi)
    | x => exact h₅.resolve_left (not_not_intro hi)
  · intro h
    have key : ∀ i, ¬ 0 < l.holderCounts i ∨ compatible mode i = true := by
      intro i
      by_cases hi : 0 < l.holderCounts i
      · exact Or.inr (h i hi)
      · exact Or.inl hi
    exact ⟨key _, key _, key _, key _, key _⟩

/-- Admission depends on the counters alone, and more holders admit less. -/
theorem isCompatible_antitone {l l' : GrLock T} {mode : LockMode}
    (hle : ∀ i, 0 < l.holderCounts i → 0 < l'.holderCounts i)
    (h : isCompatible l' mode = true) : isCompatible l mode = true := by
  rw [isCompatible_iff] at h ⊢
  exact fun i hi => h i (hle i hi)

theorem isCompatible_congr {l l' : GrLock T} {mode : LockMode}
    (h : l'.holderCounts = l.holderCounts) : isCompatible l' mode = isCompatible l mode := by
  simp only [isCompatible, h]

section Updates

variable [DecidableEq T] (l : GrLock T) (w q : T) (p : Option T)

@[simp] theorem setNext_head : (l.setNext w p).head = l.head := rfl

@[simp] theorem setPrev_head : (l.setPrev w p).head = l.head := rfl

@[simp] theorem setNext_next :
    (l.setNext w p).next q = if q = w then p else l.next q := by
  by_cases h : q = w
  · subst h; simp [GrLock.next, GrLock.setNext, GrLock.setWaiter]
  · simp [GrLock.next, GrLock.setNext, GrLock.setWaiter, h]

@[simp] theorem setNext_prev : (l.setNext w p).prev q = l.prev q := by
  by_cases h : q = w
  · subst h; simp [GrLock.prev, GrLock.setNext, GrLock.setWaiter]
  · simp [GrLock.prev, GrLock.setNext, GrLock.setWaiter, h]

@[simp] theorem setPrev_prev :
    (l.setPrev w p).prev q = if q = w then p else l.prev q := by
  by_cases h : q = w
  · subst h; simp [GrLock.prev, GrLock.setPrev, GrLock.setWaiter]
  · simp [GrLock.prev, GrLock.setPrev, GrLock.setWaiter, h]

@[simp] theorem setPrev_next : (l.setPrev w p).next q = l.next q := by
  by_cases h : q = w
  · subst h; simp [GrLock.next, GrLock.setPrev, GrLock.setWaiter]
  · simp [GrLock.next, GrLock.setPrev, GrLock.setWaiter, h]

end Updates

/-- The waiter list read from the head is `ws`. -/
abbrev Queue (l : GrLock T) (ws : List T) : Prop := Chain l.next l.prev l.head ws

/-- Everything but the links of the list and its head is as before. -/
structure LinksOnly (l l' : GrLock T) : Prop where
  holderCounts : l'.holderCounts = l.holderCounts
  mode : ∀ q, (l'.waiters q).mode = (l.waiters q).mode
  signalled : ∀ q, (l'.waiters q).signalled = (l.waiters q).signalled

theorem LinksOnly.trans {l l' l'' : GrLock T} (h : LinksOnly l l') (h' : LinksOnly l' l'') :
    LinksOnly l l'' :=
  ⟨h'.holderCounts.trans h.holderCounts, fun q => (h'.mode q).trans (h.mode q),
    fun q => (h'.signalled q).trans (h.signalled q)⟩

theorem linksOnly_head (l : GrLock T) (h : Option T) : LinksOnly l { l with head := h } :=
  ⟨rfl, fun _ => rfl, fun _ => rfl⟩

theorem grant_cases (l : GrLock T) (mode : LockMode) :
    grant l mode = .ok (l.setCount mode (l.holderCounts mode + 1)) ∨
      2 ^ 31 - 1 ≤ l.holderCounts mode ∧ grant l mode = .error .undefined := by
  by_cases h : l.holderCounts mode < 2 ^ 31 - 1
  · exact Or.inl (by rw [grant, access_pos h, ok_bind])
  · exact Or.inr ⟨not_lt.mp h, by rw [grant, access, if_neg h, error_bind]⟩

theorem lastWaiter_spec {fuel : Nat} {l : GrLock T} {before : Option T} {w : T}
    {ws : List T} (seg : Seg l.next l.prev before (w :: ws) none)
    (enough : ws.length < fuel) :
    ∃ last, lastWaiter fuel l w = .ok last ∧ (w :: ws).getLast? = some last := by
  induction ws generalizing fuel before w with
  | nil =>
    obtain ⟨fuel, rfl⟩ : ∃ n, fuel = n + 1 := ⟨fuel - 1, by omega⟩
    obtain ⟨-, hn, -⟩ := seg
    exact ⟨w, by simp [lastWaiter, hn], rfl⟩
  | cons n ws ih =>
    obtain ⟨fuel, rfl⟩ : ∃ n, fuel = n + 1 := ⟨fuel - 1, by omega⟩
    obtain ⟨-, hn, hs⟩ := seg
    obtain ⟨last, hlast, hend⟩ := ih hs (by simpa using enough)
    refine ⟨last, ?_, ?_⟩
    · simp only [lastWaiter, hn, List.head?_cons, Option.some_or, hlast]
    · rw [List.getLast?_cons_cons]
      exact hend

variable [DecidableEq T]

theorem linksOnly_setNext (l : GrLock T) (w : T) (p : Option T) :
    LinksOnly l (l.setNext w p) := by
  refine ⟨rfl, fun q => ?_, fun q => ?_⟩ <;>
  · by_cases h : q = w
    · subst h; simp [GrLock.setNext, GrLock.setWaiter]
    · simp [GrLock.setNext, GrLock.setWaiter, h]

theorem linksOnly_setPrev (l : GrLock T) (w : T) (p : Option T) :
    LinksOnly l (l.setPrev w p) := by
  refine ⟨rfl, fun q => ?_, fun q => ?_⟩ <;>
  · by_cases h : q = w
    · subst h; simp [GrLock.setPrev, GrLock.setWaiter]
    · simp [GrLock.setPrev, GrLock.setWaiter, h]

theorem waiterAppendUnsafe_spec {fuel : Nat} {l : GrLock T} {ws : List T} {w : T}
    (queue : Queue l ws) (enough : ws.length ≤ fuel) (fresh : w ∉ ws)
    (hnext : l.next w = none) (hprev : l.prev w = none) :
    ∃ l', waiterAppendUnsafe fuel l w = .ok l' ∧ Queue l' (ws ++ [w]) ∧ LinksOnly l l' := by
  cases ws with
  | nil =>
    have hhead : l.head = none := queue.head_eq
    refine ⟨{ l with head := some w }, by simp [waiterAppendUnsafe, hhead], ?_,
      linksOnly_head l _⟩
    exact ⟨rfl, ⟨hprev, hnext, trivial⟩, by simp⟩
  | cons h ws =>
    have hhead : l.head = some h := queue.head_eq
    have short : ws.length < fuel := Nat.lt_of_succ_le enough
    obtain ⟨last, hlast, hend⟩ := lastWaiter_spec queue.seg short
    have hmem : last ∈ h :: ws := List.mem_of_getLast? hend
    have hne : w ≠ last := fun he => fresh (he ▸ hmem)
    refine ⟨(l.setNext last (some w)).setPrev w (some last), ?_, ?_,
      (linksOnly_setNext l _ _).trans (linksOnly_setPrev _ _ _)⟩
    · simp [waiterAppendUnsafe, hhead, hlast]
    · have queue' : Chain l.next l.prev l.head ((h :: ws) ++ []) := by simpa using queue
      refine queue'.insert (by simpa using fresh) ?_ ?_ ?_ ?_ ?_
      · simpa using hhead
      · simp [hne, hnext]
      · simp [hend]
      · intro q _
        simp only [setPrev_next, setNext_next, hend, Option.some.injEq]
        by_cases hq : q = last
        · simp [hq]
        · simp [hq, Ne.symm hq]
      · intro q hq
        have hqw : q ≠ w := fun he => fresh (he ▸ by simpa using hq)
        simp [hqw]

theorem waiterRemoveUnsafe_spec {l : GrLock T} {ws₁ ws₂ : List T} {w : T}
    (queue : Queue l (ws₁ ++ w :: ws₂)) :
    ∃ l', waiterRemoveUnsafe l w = .ok l' ∧ Queue l' (ws₁ ++ ws₂) ∧ LinksOnly l l' := by
  have hnodup := (List.perm_middle.nodup_iff.mp queue.nodup)
  obtain ⟨hw, -⟩ := List.nodup_cons.mp hnodup
  obtain ⟨hp, hn⟩ := queue.links
  -- the first assignment redirects the predecessor, or the head
  obtain ⟨l₁, hfirst, hhead₁, hnext₁, hprev₁, hlinks₁⟩ : ∃ l₁, unlinkNext l w = .ok l₁ ∧
      l₁.head = (if l.prev w = none then l.next w else l.head) ∧
      (∀ q, l₁.next q = if l.prev w = some q then l.next w else l.next q) ∧
      (∀ q, l₁.prev q = l.prev q) ∧ LinksOnly l l₁ := by
    cases hcase : l.prev w with
    | none =>
      have hnil : ws₁ = [] := List.getLast?_eq_none_iff.mp (hp.symm.trans hcase)
      have hhead : l.head = some w := by
        rw [queue.head_eq, hnil]
        rfl
      refine ⟨{ l with head := l.next w }, ?_, by simp, fun q => by simp [GrLock.next],
        fun q => rfl, linksOnly_head l _⟩
      simp only [unlinkNext, hcase]
      rw [assert_pos hhead, ok_bind]
    | some p =>
      refine ⟨l.setNext p (l.next w), by simp only [unlinkNext, hcase], by simp,
        fun q => ?_, fun q => setNext_prev l p q _, linksOnly_setNext l _ _⟩
      rw [setNext_next]
      by_cases hq : q = p
      · simp [hq]
      · simp [hq, Ne.symm hq]
  have hself : l₁.next w = l.next w := by
    rw [hnext₁]
    have hne : ¬ l.prev w = some w := fun he =>
      hw (List.mem_append_left _ (List.mem_of_getLast? (hp.symm.trans he)))
    rw [if_neg hne]
  refine ⟨unlinkPrev l₁ w, by rw [waiterRemoveUnsafe, hfirst, ok_bind], ?_⟩
  cases hcase : l.next w with
  | none =>
    have hlast : unlinkPrev l₁ w = l₁ := by simp only [unlinkPrev, hself, hcase]
    rw [hlast]
    refine ⟨queue.remove hhead₁ (fun q _ => hnext₁ q) (fun q _ => ?_), hlinks₁⟩
    simp [hprev₁, hcase]
  | some n =>
    have hlast : unlinkPrev l₁ w = l₁.setPrev n (l₁.prev w) := by
      simp only [unlinkPrev, hself, hcase]
    rw [hlast]
    refine ⟨queue.remove hhead₁ (fun q _ => ?_) (fun q _ => ?_),
      hlinks₁.trans (linksOnly_setPrev _ _ _)⟩
    · rw [setPrev_next, hnext₁]
    · rw [setPrev_prev, hprev₁, hprev₁, hcase]
      by_cases hq : q = n
      · simp [hq]
      · simp [hq, Ne.symm hq]

/-- A pass over the list signals the listed waiters that could be admitted. -/
theorem wakeWaiters_spec {fuel : Nat} {l : GrLock T} {before : Option T} {ws : List T}
    (seg : Seg l.next l.prev before ws none) (nodup : ws.Nodup)
    (enough : ws.length ≤ fuel) :
    ∃ l', wakeWaiters fuel l ws.head? = .ok l' ∧ l'.holderCounts = l.holderCounts ∧
      l'.head = l.head ∧ ∀ q, l'.waiters q =
        { l.waiters q with signalled := (l.waiters q).signalled ||
            (decide (q ∈ ws) && isCompatible l (l.waiters q).mode) } := by
  induction ws generalizing fuel l before with
  | nil => exact ⟨l, by simp [wakeWaiters], rfl, rfl, by simp⟩
  | cons w ws ih =>
    obtain ⟨fuel, rfl⟩ : ∃ n, fuel = n + 1 := ⟨fuel - 1, by simp at enough; omega⟩
    obtain ⟨-, hn, hs⟩ := seg
    obtain ⟨hw, hnd⟩ := List.nodup_cons.mp nodup
    obtain ⟨l₁, hl₁⟩ : ∃ l₁, l₁ =
        (if isCompatible l (l.waiters w).mode then l.condSignal w else l) := ⟨_, rfl⟩
    have hcounts : l₁.holderCounts = l.holderCounts := by
      rw [hl₁]; split <;> rfl
    have hhead : l₁.head = l.head := by
      rw [hl₁]; split <;> rfl
    have hwaiters : ∀ q, l₁.waiters q = { l.waiters q with signalled :=
        (l.waiters q).signalled ||
          (decide (q = w) && isCompatible l (l.waiters q).mode) } := by
      intro q
      rw [hl₁]
      by_cases hq : q = w
      · subst hq
        split
        · next h => simp [GrLock.condSignal, GrLock.setWaiter, h]
        · next h => simp [h]
      · split <;> simp [GrLock.condSignal, GrLock.setWaiter, hq]
    have hnext : ∀ q, l₁.next q = l.next q := fun q => by
      simp only [GrLock.next, hwaiters]
    have hprev : ∀ q, l₁.prev q = l.prev q := fun q => by
      simp only [GrLock.prev, hwaiters]
    have enough' : ws.length ≤ fuel := by simpa using enough
    obtain ⟨l', hrun, hc, hh, hq⟩ := ih (l := l₁)
      ((seg_congr (fun q _ => hnext q) (fun q _ => hprev q)).mpr hs) hnd enough'
    refine ⟨l', ?_, hc.trans hcounts, hh.trans hhead, fun q => ?_⟩
    · rw [List.head?_cons, wakeWaiters]
      simp only [← hl₁]
      rw [hnext, hn, Option.or_none, hrun]
    · rw [hq q, hwaiters q]
      simp only [isCompatible_congr hcounts, List.mem_cons, Bool.decide_or,
        Bool.and_or_distrib_right, Bool.or_assoc]

end GranularLock
