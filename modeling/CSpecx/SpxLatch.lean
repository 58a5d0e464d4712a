import CSpecx.CExec
import CSpecx.Census
import Mathlib.Data.Nat.Bitwise

/-!
# The S/X latch

`spx_latch.h` with any number of threads. A step is one atomic operation on the
latch word by one thread, and a weak compare-exchange may fail at any time.
-/

namespace SpxLatch

open CExec Census

def sMask : Nat := 0x0000FFFF

def xBit : Nat := 0x00010000

def sLocked (val : Nat) : Nat := val &&& sMask

def xLocked (val : Nat) : Nat := val &&& xBit

/-- Where a thread is. `upgrading` says that `spx_lock_s` was called by
`spx_upgrade_s_x`; `val` is the local variable of the call. -/
inductive Pc where
  | idle
  | lockLoad (upgrading : Bool)
  | lockFast (upgrading : Bool) (val : Nat)
  | lockSpin (upgrading : Bool)
  | lockRetry (upgrading : Bool) (val : Nat)
  | shared
  | upgradeLoad
  | upgradeTry (val : Nat)
  | upgradeWait
  | drain
  | exclusive
  deriving DecidableEq, Repr

/-- The threads that are counted in the low bits. -/
def Pc.holdsS : Pc → Bool
  | shared => true
  | upgradeLoad => true
  | upgradeTry _ => true
  | _ => false

/-- The threads behind a compare-exchange that set the X bit. -/
def Pc.ownsX : Pc → Bool
  | drain => true
  | exclusive => true
  | _ => false

/-- A call, or the next operation of a call; `succeeds` is for a weak compare-exchange. -/
inductive Act where
  | lockS
  | unlockS
  | upgrade
  | unlockX
  | run (succeeds : Bool)
  deriving DecidableEq, Repr

/-- Behind `spx_lock_s`. -/
def acquired : Bool → Pc
  | false => .shared
  | true => .upgradeLoad

/-- The compare-exchange of `spx_lock_s`. -/
def tryShared (upgrading succeeds : Bool) (word val : Nat) : Nat × Pc :=
  if word = val ∧ succeeds = true then (u32 (val + 1), acquired upgrading)
  else (word, .lockSpin upgrading)

/-- One operation of a thread on the word. -/
def step (word : Nat) : Act → Pc → Option (Nat × Pc)
  | .lockS, .idle => some (word, .lockLoad false)
  | .unlockS, .shared => some (sub32 word 1, .idle)
  | .upgrade, .shared => some (word, .upgradeLoad)
  | .unlockX, .exclusive => some (0, .idle)
  | .run _, .lockLoad up =>
    some (word, if xLocked word = 0 then .lockFast up word else .lockSpin up)
  | .run ok, .lockFast up val => some (tryShared up ok word val)
  | .run _, .lockSpin up =>
    some (word, if xLocked word = 0 then .lockRetry up word else .lockSpin up)
  | .run ok, .lockRetry up val => some (tryShared up ok word val)
  | .run _, .upgradeLoad => some (word, .upgradeTry word)
  | .run ok, .upgradeTry val =>
    if xLocked val = 0 then
      if word = val ∧ ok = true then some (sub32 val 1 ||| xBit, .drain)
      else some (word, .upgradeTry word)
    else some (sub32 word 1, .upgradeWait)
  | .run _, .upgradeWait => some (word, if xLocked word = 0 then .lockLoad true else .upgradeWait)
  | .run _, .drain => some (word, if sLocked word = 0 then .exclusive else .drain)
  | _, _ => none

structure Latch (T : Type) where
  word : Nat
  pcs : T → Pc

/-- `spx_latch_init`. -/
def initial {T : Type} : Latch T := ⟨0, fun _ => .idle⟩

inductive Reachable {T : Type} [DecidableEq T] : Latch T → Prop where
  | initial : Reachable initial
  | step {s : Latch T} {t : T} {a : Act} {word : Nat} {pc : Pc} :
      Reachable s → step s.word a (s.pcs t) = some (word, pc) →
      Reachable ⟨word, Function.update s.pcs t pc⟩

/-- What an operation does to the word and to the thread. -/
inductive Move (word : Nat) (pc : Pc) : Nat → Pc → Prop where
  | stay (pc' : Pc) (hs : pc'.holdsS = pc.holdsS) (hx : pc'.ownsX = pc.ownsX)
      (hdrained : pc' = .exclusive → sLocked word = 0) : Move word pc word pc'
  | enter (pc' : Pc) (hfree : xLocked word = 0) (hs : pc.holdsS = false) (hs' : pc'.holdsS = true)
      (hx : pc.ownsX = false) (hx' : pc'.ownsX = false) : Move word pc (u32 (word + 1)) pc'
  | leave (pc' : Pc) (hs : pc.holdsS = true) (hs' : pc'.holdsS = false) (hx : pc.ownsX = false)
      (hx' : pc'.ownsX = false) : Move word pc (sub32 word 1) pc'
  | take (hfree : xLocked word = 0) (hs : pc.holdsS = true) (hx : pc.ownsX = false) :
      Move word pc (sub32 word 1 ||| xBit) .drain
  | release (hpc : pc = .exclusive) : Move word pc 0 .idle

/-- The value that a compare-exchange of `spx_lock_s` expects has no X bit. -/
def Pc.Expects : Pc → Prop
  | lockFast _ val => xLocked val = 0
  | lockRetry _ val => xLocked val = 0
  | _ => True

section Moves

variable {word word' val : Nat} {pc pc' : Pc} {a : Act} {up ok : Bool}

theorem acquired_kind (up : Bool) :
    (acquired up).holdsS = true ∧ (acquired up).ownsX = false ∧ (acquired up).Expects := by
  cases up <;> exact ⟨rfl, rfl, trivial⟩

theorem tryShared_moves (hs : pc.holdsS = false) (hx : pc.ownsX = false) (hfree : xLocked val = 0)
    (hstep : tryShared up ok word val = (word', pc')) : Move word pc word' pc' ∧ pc'.Expects := by
  obtain ⟨hs', hx', hexpects⟩ := acquired_kind up
  by_cases hok : word = val ∧ ok = true
  · rw [tryShared, if_pos hok] at hstep
    obtain ⟨rfl, rfl⟩ := Prod.mk.inj hstep
    obtain ⟨rfl, -⟩ := hok
    exact ⟨.enter _ hfree hs hs' hx hx', hexpects⟩
  · rw [tryShared, if_neg hok] at hstep
    obtain ⟨rfl, rfl⟩ := Prod.mk.inj hstep
    exact ⟨.stay _ hs.symm hx.symm Pc.noConfusion, trivial⟩

/-- A load that decides where to go on leaves the word. -/
theorem load_moves {c : Prop} [Decidable c] {p q : Pc}
    (hp : c → Move word pc word p ∧ p.Expects) (hq : ¬ c → Move word pc word q ∧ q.Expects) :
    Move word pc word (if c then p else q) ∧ (if c then p else q).Expects := by
  by_cases hc : c
  · rw [if_pos hc]
    exact hp hc
  · rw [if_neg hc]
    exact hq hc

theorem step_moves (hexpects : pc.Expects) (hstep : step word a pc = some (word', pc')) :
    Move word pc word' pc' ∧ pc'.Expects := by
  cases pc with
  | idle =>
    cases a with
    | lockS =>
      obtain ⟨rfl, rfl⟩ := Prod.mk.inj (Option.some.inj hstep)
      exact ⟨.stay _ rfl rfl Pc.noConfusion, trivial⟩
    | _ => cases hstep
  | lockLoad up =>
    cases a with
    | run ok =>
      obtain ⟨rfl, rfl⟩ := Prod.mk.inj (Option.some.inj hstep)
      exact load_moves (fun hfree => ⟨.stay _ rfl rfl Pc.noConfusion, hfree⟩)
        fun _ => ⟨.stay _ rfl rfl Pc.noConfusion, trivial⟩
    | _ => cases hstep
  | lockFast up val =>
    cases a with
    | run ok => exact tryShared_moves rfl rfl hexpects (Option.some.inj hstep)
    | _ => cases hstep
  | lockSpin up =>
    cases a with
    | run ok =>
      obtain ⟨rfl, rfl⟩ := Prod.mk.inj (Option.some.inj hstep)
      exact load_moves (fun hfree => ⟨.stay _ rfl rfl Pc.noConfusion, hfree⟩)
        fun _ => ⟨.stay _ rfl rfl Pc.noConfusion, trivial⟩
    | _ => cases hstep
  | lockRetry up val =>
    cases a with
    | run ok => exact tryShared_moves rfl rfl hexpects (Option.some.inj hstep)
    | _ => cases hstep
  | shared =>
    cases a with
    | unlockS =>
      obtain ⟨rfl, rfl⟩ := Prod.mk.inj (Option.some.inj hstep)
      exact ⟨.leave _ rfl rfl rfl rfl, trivial⟩
    | upgrade =>
      obtain ⟨rfl, rfl⟩ := Prod.mk.inj (Option.some.inj hstep)
      exact ⟨.stay _ rfl rfl Pc.noConfusion, trivial⟩
    | _ => cases hstep
  | upgradeLoad =>
    cases a with
    | run ok =>
      obtain ⟨rfl, rfl⟩ := Prod.mk.inj (Option.some.inj hstep)
      exact ⟨.stay _ rfl rfl Pc.noConfusion, trivial⟩
    | _ => cases hstep
  | upgradeTry val =>
    cases a with
    | run ok =>
      by_cases hfree : xLocked val = 0
      · by_cases hok : word = val ∧ ok = true
        · simp only [step, if_pos hfree, if_pos hok, Option.some.injEq, Prod.mk.injEq] at hstep
          obtain ⟨rfl, rfl⟩ := hstep
          obtain ⟨rfl, -⟩ := hok
          exact ⟨.take hfree rfl rfl, trivial⟩
        · simp only [step, if_pos hfree, if_neg hok, Option.some.injEq, Prod.mk.injEq] at hstep
          obtain ⟨rfl, rfl⟩ := hstep
          exact ⟨.stay _ rfl rfl Pc.noConfusion, trivial⟩
      · simp only [step, if_neg hfree, Option.some.injEq, Prod.mk.injEq] at hstep
        obtain ⟨rfl, rfl⟩ := hstep
        exact ⟨.leave _ rfl rfl rfl rfl, trivial⟩
    | _ => cases hstep
  | upgradeWait =>
    cases a with
    | run ok =>
      obtain ⟨rfl, rfl⟩ := Prod.mk.inj (Option.some.inj hstep)
      exact load_moves (fun _ => ⟨.stay _ rfl rfl Pc.noConfusion, trivial⟩)
        fun _ => ⟨.stay _ rfl rfl Pc.noConfusion, trivial⟩
    | _ => cases hstep
  | drain =>
    cases a with
    | run ok =>
      obtain ⟨rfl, rfl⟩ := Prod.mk.inj (Option.some.inj hstep)
      exact load_moves (fun hdrained => ⟨.stay _ rfl rfl fun _ => hdrained, trivial⟩)
        fun _ => ⟨.stay _ rfl rfl Pc.noConfusion, trivial⟩
    | _ => cases hstep
  | exclusive =>
    cases a with
    | unlockX =>
      obtain ⟨rfl, rfl⟩ := Prod.mk.inj (Option.some.inj hstep)
      exact ⟨.release rfl, trivial⟩
    | _ => cases hstep

end Moves

/-- The word counts the threads that hold S, and its X bit the one behind its exchange. -/
structure Invariant {T : Type} [Fintype T] (s : Latch T) : Prop where
  word : s.word = census Pc.holdsS s.pcs + 2 ^ 16 * census Pc.ownsX s.pcs
  one : census Pc.ownsX s.pcs ≤ 1
  drained : ∀ t, s.pcs t = .exclusive → census Pc.holdsS s.pcs = 0
  expects : ∀ t, (s.pcs t).Expects

section Words

variable {h o : Nat}

theorem sLocked_word (hh : h < 2 ^ 16) : sLocked (h + 2 ^ 16 * o) = h := by
  have hmask : sMask = 2 ^ 16 - 1 := rfl
  rw [sLocked, hmask, Nat.and_two_pow_sub_one_eq_mod]
  omega

theorem xLocked_word (hh : h < 2 ^ 16) (ho : o ≤ 1) : xLocked (h + 2 ^ 16 * o) = 2 ^ 16 * o := by
  have hbit : xBit = 2 ^ 16 := rfl
  have hdiv : (h + 2 ^ 16 * o) / 2 ^ 16 % 2 = o := by omega
  rw [xLocked, hbit, Nat.and_two_pow, Nat.testBit_eq_decide_div_mod_eq, hdiv]
  rcases Nat.le_one_iff_eq_zero_or_eq_one.mp ho with rfl | rfl <;> rfl

theorem exchanged_word (hpos : 0 < h) (hh : h < 2 ^ 16) :
    sub32 h 1 ||| xBit = (h - 1) + 2 ^ 16 := by
  have hbit : xBit = 2 ^ 16 * 1 := rfl
  have hsplit := Nat.two_pow_add_eq_or_of_lt (i := 16) (b := h - 1) (by omega) 1
  rw [sub32_of_le hpos (by omega), hbit, Nat.or_comm, ← hsplit]
  omega

end Words

section Runs

variable {T : Type} [Fintype T] {s : Latch T} {t : T} {word : Nat} {pc : Pc} {a : Act}

theorem initial_invariant : Invariant (initial : Latch T) := by
  have hs : census Pc.holdsS (initial : Latch T).pcs = 0 := by simp [census, initial, Pc.holdsS]
  have hx : census Pc.ownsX (initial : Latch T).pcs = 0 := by simp [census, initial, Pc.ownsX]
  refine ⟨?_, ?_, fun _ _ => hs, fun _ => trivial⟩
  · rw [hs, hx]
    rfl
  · rw [hx]
    exact Nat.zero_le 1

theorem Invariant.masks (inv : Invariant s) (hT : Fintype.card T ≤ 65535) :
    sLocked s.word = census Pc.holdsS s.pcs ∧ xLocked s.word = 2 ^ 16 * census Pc.ownsX s.pcs := by
  have hcard : census Pc.holdsS s.pcs ≤ Fintype.card T := census_le_card
  have hsmall : census Pc.holdsS s.pcs < 2 ^ 16 := by omega
  rw [inv.word]
  exact ⟨sLocked_word hsmall, xLocked_word hsmall inv.one⟩

variable [DecidableEq T]

/-- The counts behind a move of one thread make the invariant. -/
theorem Invariant.update {h o : Nat} (inv : Invariant s) (hexpects : pc.Expects)
    (hs : census Pc.holdsS (Function.update s.pcs t pc) = h)
    (hx : census Pc.ownsX (Function.update s.pcs t pc) = o) (hword : word = h + 2 ^ 16 * o)
    (hone : o ≤ 1) (hdrained : pc = .exclusive → h = 0)
    (hothers : ∀ q, q ≠ t → s.pcs q = .exclusive → h = 0) :
    Invariant ⟨word, Function.update s.pcs t pc⟩ := by
  refine ⟨?_, hx ▸ hone, fun q hq => ?_, fun q => ?_⟩
  · rw [hword, ← hs, ← hx]
  · have hq : Function.update s.pcs t pc q = .exclusive := hq
    rw [hs]
    by_cases hqt : q = t
    · rw [hqt, Function.update_self] at hq
      exact hdrained hq
    · rw [Function.update_of_ne hqt] at hq
      exact hothers q hqt hq
  · by_cases hqt : q = t
    · rw [hqt]
      show (Function.update s.pcs t pc t).Expects
      rw [Function.update_self]
      exact hexpects
    · show (Function.update s.pcs t pc q).Expects
      rw [Function.update_of_ne hqt]
      exact inv.expects q

theorem Invariant.move (inv : Invariant s) (hT : Fintype.card T ≤ 65535)
    (move : Move s.word (s.pcs t) word pc) (hexpects : pc.Expects) :
    Invariant ⟨word, Function.update s.pcs t pc⟩ := by
  have hs := census_update Pc.holdsS s.pcs t pc
  have hx := census_update Pc.ownsX s.pcs t pc
  have hcard : census Pc.holdsS s.pcs ≤ Fintype.card T := census_le_card
  obtain ⟨hsLocked, hxLocked⟩ := inv.masks hT
  have hword := inv.word
  have hone := inv.one
  have howner : ∀ q, s.pcs q = .exclusive → 0 < census Pc.ownsX s.pcs := fun q hq =>
    census_pos (t := q) (by rw [hq]; rfl)
  cases move with
  | stay pc' hsame hsame' hdrained =>
    rw [hsame] at hs
    rw [hsame'] at hx
    refine inv.update hexpects (Nat.add_right_cancel hs) (Nat.add_right_cancel hx) hword hone ?_ ?_
    · intro hpc
      rw [← hsLocked]
      exact hdrained hpc
    · exact fun q _ hq => inv.drained q hq
  | enter pc' hfree hs₀ hs₁ hx₀ hx₁ =>
    rw [hs₀, hs₁, Bool.toNat_false, Bool.toNat_true] at hs
    rw [hx₀, hx₁] at hx
    have hroom : census Pc.holdsS s.pcs < Fintype.card T := census_lt_card hs₀
    have hplus : u32 (s.word + 1) = s.word + 1 := u32_of_lt (by omega)
    refine inv.update hexpects hs (Nat.add_right_cancel hx) ?_ hone ?_ ?_
    · rw [hplus]
      omega
    · rintro rfl
      exact Bool.noConfusion hs₁
    · intro q _ hq
      have := howner q hq
      omega
  | leave pc' hs₀ hs₁ hx₀ hx₁ =>
    rw [hs₀, hs₁, Bool.toNat_false, Bool.toNat_true] at hs
    rw [hx₀, hx₁] at hx
    have hminus : sub32 s.word 1 = s.word - 1 := sub32_of_le (by omega) (by omega)
    refine inv.update (h := census Pc.holdsS s.pcs - 1) hexpects (by omega)
      (Nat.add_right_cancel hx) ?_ hone ?_ ?_
    · rw [hminus]
      omega
    · rintro rfl
      exact Bool.noConfusion hx₁
    · intro q _ hq
      have := inv.drained q hq
      omega
  | take hfree hs₀ hx₀ =>
    have hs₁ : Pc.drain.holdsS = false := rfl
    have hx₁ : Pc.drain.ownsX = true := rfl
    rw [hs₀, hs₁, Bool.toNat_false, Bool.toNat_true] at hs
    rw [hx₀, hx₁, Bool.toNat_false, Bool.toNat_true] at hx
    have hnone : census Pc.ownsX s.pcs = 0 := by omega
    have hpos : 0 < census Pc.holdsS s.pcs := census_pos hs₀
    refine inv.update (h := census Pc.holdsS s.pcs - 1) (o := 1) hexpects (by omega) (by omega) ?_
      (le_refl 1) Pc.noConfusion ?_
    · rw [hword, hnone, Nat.mul_zero, Nat.add_zero]
      exact exchanged_word hpos (by omega)
    · intro q _ hq
      have := howner q hq
      omega
  | release hpc =>
    have hpcx : (s.pcs t).ownsX = true := by rw [hpc]; rfl
    have hpcs : (s.pcs t).holdsS = false := by rw [hpc]; rfl
    have hs₁ : Pc.idle.holdsS = false := rfl
    have hx₁ : Pc.idle.ownsX = false := rfl
    rw [hpcs, hs₁] at hs
    rw [hpcx, hx₁, Bool.toNat_false, Bool.toNat_true] at hx
    have hnone := inv.drained t hpc
    refine inv.update (h := 0) (o := 0) hexpects (by omega) (by omega) rfl (Nat.zero_le 1)
      (fun _ => rfl) (fun _ _ _ => rfl)

theorem Reachable.invariant (hT : Fintype.card T ≤ 65535) (reachable : Reachable s) :
    Invariant s := by
  induction reachable with
  | initial => exact initial_invariant
  | step _ hstep ih =>
    obtain ⟨move, hexpects⟩ := step_moves (ih.expects _) hstep
    exact ih.move hT move hexpects

/-- A thread that has upgraded excludes all others, the low bits count the threads that hold
S, and the X bit is set exactly while one thread drains them or holds X. -/
theorem latch_excludes (hT : Fintype.card T ≤ 65535) (reachable : Reachable s) :
    (∀ t, s.pcs t = .exclusive → ∀ q, q ≠ t → (s.pcs q).holdsS = false ∧ (s.pcs q).ownsX = false) ∧
      sLocked s.word = (Finset.univ.filter fun t => (s.pcs t).holdsS).card ∧
      (xLocked s.word ≠ 0 ↔ ∃ t, (s.pcs t).ownsX = true) ∧
      ∀ t q, (s.pcs t).ownsX = true → (s.pcs q).ownsX = true → t = q := by
  have inv := reachable.invariant hT
  obtain ⟨hsLocked, hxLocked⟩ := inv.masks hT
  have hunique : ∀ t q, (s.pcs t).ownsX = true → (s.pcs q).ownsX = true → t = q :=
    fun t q ht hq => eq_of_census_le_one inv.one ht hq
  refine ⟨fun t ht q hne => ⟨?_, ?_⟩, hsLocked, ?_, hunique⟩
  · by_contra hholds
    have hpos : 0 < census Pc.holdsS s.pcs := census_pos (Bool.eq_true_of_not_eq_false hholds)
    have := inv.drained t ht
    omega
  · by_contra howns
    exact hne (hunique q t (Bool.eq_true_of_not_eq_false howns) (by rw [ht]; rfl))
  · rw [hxLocked]
    constructor
    · intro hne
      exact exists_of_census_pos (by omega)
    · rintro ⟨t, ht⟩
      have hpos : 0 < census Pc.ownsX s.pcs := census_pos ht
      omega

omit [Fintype T] in
/-- Two moves in a row of one thread. -/
theorem Reachable.again {pcs : T → Pc} {word' : Nat} {pc' : Pc}
    (reachable : Reachable ⟨word, Function.update pcs t pc⟩)
    (hstep : SpxLatch.step word a pc = some (word', pc')) :
    Reachable ⟨word', Function.update pcs t pc'⟩ := by
  have hpc : Function.update pcs t pc t = pc := Function.update_self t pc pcs
  have next := reachable.step (t := t) (a := a) (hpc.symm ▸ hstep)
  rwa [Function.update_idem] at next

/-- The first of two threads upgrades. -/
theorem latch_excludes_upgraded :
    ∃ s : Latch (Fin 2), Reachable s ∧ s.pcs 0 = .exclusive ∧ (s.pcs 1).holdsS = false ∧
      (s.pcs 1).ownsX = false := by
  have calls : Reachable (T := Fin 2) ⟨0, Function.update (fun _ => .idle) 0 (.lockLoad false)⟩ :=
    .step (a := .lockS) .initial rfl
  have locks : Reachable (T := Fin 2) ⟨1, Function.update (fun _ => .idle) 0 .shared⟩ :=
    (calls.again (a := .run true) rfl).again (a := .run true) rfl
  have exchanges : Reachable (T := Fin 2) ⟨xBit, Function.update (fun _ => .idle) 0 .drain⟩ :=
    ((locks.again (a := .upgrade) rfl).again (a := .run true) rfl).again (a := .run true) rfl
  have drains : Reachable (T := Fin 2) ⟨xBit, Function.update (fun _ => .idle) 0 .exclusive⟩ :=
    exchanges.again (a := .run true) rfl
  exact ⟨_, drains, rfl, (latch_excludes (by decide) drains).1 0 rfl 1 (by decide)⟩

end Runs

end SpxLatch
