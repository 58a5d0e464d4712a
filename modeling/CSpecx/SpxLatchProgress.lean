import CSpecx.SpxLatch

/-!
# Progress on the S/X latch

While the X bit is set, an upgrading thread that still holds S gives it up and a
drained upgrader goes on. Without the X bit every thread can make its exchange.
-/

namespace SpxLatch

open CExec Census

/-- Inside `spx_lock_s` or `spx_upgrade_s_x`. -/
def Pc.inCall : Pc → Bool
  | idle => false
  | shared => false
  | exclusive => false
  | _ => true

/-- A thread alone runs on; the list says which weak compare-exchanges succeed. -/
def ownRun (word : Nat) (pc : Pc) : List Bool → Option (Nat × Pc)
  | [] => some (word, pc)
  | ok :: oks => (step word (.run ok) pc).bind fun next => ownRun next.1 next.2 oks

/-- Own steps of a thread change the word or complete its call. -/
def Advances (word : Nat) (pc : Pc) : Prop :=
  ∃ oks word' pc', ownRun word pc oks = some (word', pc') ∧ (word' ≠ word ∨ pc'.inCall = false)

/-- `t` drains readers of which `q` is one, or spins on the X bit of `q`. -/
def WaitsFor {T : Type} (s : Latch T) (t q : T) : Prop :=
  (s.pcs t = .drain ∧ (s.pcs q).holdsS = true) ∨
    ((s.pcs t = .upgradeWait ∨ ∃ up, s.pcs t = .lockSpin up) ∧ (s.pcs q).ownsX = true)

section Threads

variable {word word' val : Nat} {pc pc' : Pc} {up ok : Bool}

theorem Advances.before (hstep : step word (.run ok) pc = some (word, pc'))
    (advances : Advances word pc') : Advances word pc := by
  obtain ⟨oks, word', pc'', hrun, hchange⟩ := advances
  refine ⟨ok :: oks, word', pc'', ?_, hchange⟩
  rw [ownRun, hstep]
  exact hrun

theorem Advances.now (hstep : step word (.run ok) pc = some (word', pc')) (hchange : word' ≠ word) :
    Advances word pc := by
  refine ⟨[ok], word', pc', ?_, Or.inl hchange⟩
  rw [ownRun, hstep]
  rfl

/-- The exchange of `spx_lock_s` on the word that was read. -/
theorem lockRetry_advances (hword : word < 2 ^ 32 - 1) : Advances word (.lockRetry up word) := by
  have hplus : u32 (word + 1) = word + 1 := u32_of_lt (by omega)
  have hstep : step word (.run true) (.lockRetry up word) = some (u32 (word + 1), acquired up) := by
    rw [step, tryShared, if_pos ⟨rfl, rfl⟩]
  exact Advances.now hstep (by omega)

theorem lockSpin_advances (hword : word < 2 ^ 32 - 1) (hfree : xLocked word = 0) :
    Advances word (.lockSpin up) := by
  have hstep : step word (.run true) (.lockSpin up) = some (word, .lockRetry up word) := by
    rw [step, if_pos hfree]
  exact Advances.before hstep (lockRetry_advances hword)

theorem tryShared_advances (hword : word < 2 ^ 32 - 1) (hfree : xLocked word = 0)
    (hstep : step word (.run true) pc = some (tryShared up true word val)) : Advances word pc := by
  have hplus : u32 (word + 1) = word + 1 := u32_of_lt (by omega)
  by_cases hval : word = val
  · rw [tryShared, if_pos ⟨hval, rfl⟩, ← hval] at hstep
    exact Advances.now hstep (by omega)
  · rw [tryShared, if_neg fun h => hval h.1] at hstep
    exact Advances.before hstep (lockSpin_advances hword hfree)

theorem lockLoad_advances (hword : word < 2 ^ 32 - 1) (hfree : xLocked word = 0) :
    Advances word (.lockLoad up) := by
  have hload : step word (.run true) (.lockLoad up) = some (word, .lockFast up word) := by
    rw [step, if_pos hfree]
  exact Advances.before hload (tryShared_advances hword hfree rfl)

/-- A reader that has seen the X bit gives up S. -/
theorem upgradeTry_leaves (hpos : 0 < word) (hword : word < 2 ^ 32 - 1) (hbusy : xLocked val ≠ 0) :
    Advances word (.upgradeTry val) := by
  have hminus : sub32 word 1 = word - 1 := sub32_of_le (by omega) (by omega)
  have hstep : step word (.run true) (.upgradeTry val) = some (sub32 word 1, .upgradeWait) := by
    rw [step, if_neg hbusy]
  exact Advances.now hstep (by omega)

theorem xLocked_or : xLocked (word ||| xBit) ≠ 0 := by
  have hbit : xBit = 2 ^ 16 := rfl
  rw [xLocked, hbit, Nat.and_two_pow, Nat.testBit_or, Nat.testBit_two_pow_self, Bool.or_true]
  decide

/-- A reader that finds the latch without the X bit takes it. -/
theorem upgradeTry_takes (hfree : xLocked word = 0) : Advances word (.upgradeTry word) := by
  have hstep : step word (.run true) (.upgradeTry word) = some (sub32 word 1 ||| xBit, .drain) := by
    rw [step, if_pos hfree, if_pos ⟨rfl, rfl⟩]
  refine Advances.now hstep fun heq => ?_
  rw [← heq] at hfree
  exact xLocked_or hfree

theorem upgradeTry_advances (hpos : 0 < word) (hword : word < 2 ^ 32 - 1) :
    Advances word (.upgradeTry val) := by
  by_cases hval : xLocked val = 0
  · by_cases heq : word = val
    · rw [← heq] at hval ⊢
      exact upgradeTry_takes hval
    · -- the exchange fails and reads the word again
      have hstep : step word (.run true) (.upgradeTry val) = some (word, .upgradeTry word) := by
        rw [step, if_pos hval, if_neg fun h => heq h.1]
      refine Advances.before hstep ?_
      by_cases hfree : xLocked word = 0
      · exact upgradeTry_takes hfree
      · exact upgradeTry_leaves hpos hword hfree
  · exact upgradeTry_leaves hpos hword hval

theorem upgradeLoad_advances (hpos : 0 < word) (hword : word < 2 ^ 32 - 1) :
    Advances word .upgradeLoad := by
  have hstep : step word (.run true) .upgradeLoad = some (word, .upgradeTry word) := rfl
  exact Advances.before hstep (upgradeTry_advances hpos hword)

/-- Inside a call that holds S, a thread advances whatever the X bit is. -/
theorem holder_advances (hs : pc.holdsS = true) (hcall : pc.inCall = true) (hpos : 0 < word)
    (hword : word < 2 ^ 32 - 1) : Advances word pc := by
  cases pc with
  | upgradeLoad => exact upgradeLoad_advances hpos hword
  | upgradeTry val => exact upgradeTry_advances hpos hword
  | shared => cases hcall
  | _ => cases hs

/-- Without the X bit every thread inside a call advances. -/
theorem unlocked_advances (hs : pc.holdsS = false) (hx : pc.ownsX = false)
    (hcall : pc.inCall = true)
    (hword : word < 2 ^ 32 - 1) (hfree : xLocked word = 0) : Advances word pc := by
  cases pc with
  | lockLoad up => exact lockLoad_advances hword hfree
  | lockFast up val => exact tryShared_advances hword hfree rfl
  | lockSpin up => exact lockSpin_advances hword hfree
  | lockRetry up val => exact tryShared_advances hword hfree rfl
  | upgradeWait =>
    have hstep : step word (.run true) .upgradeWait = some (word, .lockLoad true) := by
      rw [step, if_pos hfree]
    exact Advances.before hstep (lockLoad_advances hword hfree)
  | idle => cases hcall
  | shared => cases hs
  | upgradeLoad => cases hs
  | upgradeTry val => cases hs
  | drain => cases hx
  | exclusive => cases hx

theorem drain_advances (hdrained : sLocked word = 0) : Advances word .drain := by
  refine ⟨[true], word, .exclusive, ?_, Or.inr rfl⟩
  rw [ownRun, step, if_pos hdrained]
  rfl

end Threads

section Latches

variable {T : Type} {s : Latch T} {t q : T}

/-- A thread that drains readers is not one of those that spin on an X bit. -/
theorem WaitsFor.not_back (h : WaitsFor s t q) : ¬ WaitsFor s q t := by
  rintro (⟨hq, hs⟩ | ⟨hq, hx⟩)
  · rcases h with ⟨-, hs'⟩ | ⟨ht, -⟩
    · rw [hq] at hs'
      cases hs'
    · rcases ht with ht | ⟨up, ht⟩
      · rw [ht] at hs
        cases hs
      · rw [ht] at hs
        cases hs
  · rcases h with ⟨-, hs'⟩ | ⟨-, hx'⟩
    · rcases hq with hq | ⟨up, hq⟩
      · rw [hq] at hs'
        cases hs'
      · rw [hq] at hs'
        cases hs'
    · rcases hq with hq | ⟨up, hq⟩
      · rw [hq] at hx'
        cases hx'
      · rw [hq] at hx'
        cases hx'

/-- The latch never deadlocks against itself, and no two threads wait for each other. -/
theorem latch_never_deadlocks [Fintype T] [DecidableEq T] (hT : Fintype.card T ≤ 65535)
    (reachable : Reachable s) :
    ((∃ t, (s.pcs t).inCall = true) → (∀ t, (s.pcs t).inCall = false → s.pcs t = .idle) →
      ∃ t, (s.pcs t).inCall = true ∧ Advances s.word (s.pcs t)) ∧
      ∀ t q, WaitsFor s t q → ¬ WaitsFor s q t := by
  have inv := reachable.invariant hT
  obtain ⟨hsLocked, hxLocked⟩ := inv.masks hT
  have hcard : census Pc.holdsS s.pcs ≤ Fintype.card T := census_le_card
  have hbound : s.word < 2 ^ 32 - 1 := by
    have hword := inv.word
    have hone := inv.one
    omega
  refine ⟨fun ⟨t, hcall⟩ houtside => ?_, fun t q => WaitsFor.not_back⟩
  by_cases hholder : ∃ q, (s.pcs q).holdsS = true
  · obtain ⟨q, hq⟩ := hholder
    have hin : (s.pcs q).inCall = true := by
      by_contra hout
      rw [houtside q (Bool.eq_false_of_not_eq_true hout)] at hq
      cases hq
    have hpos : 0 < s.word := by
      have hcensus : 0 < census Pc.holdsS s.pcs := census_pos hq
      have hword := inv.word
      omega
    exact ⟨q, hin, holder_advances hq hin hpos hbound⟩
  · have hnone : census Pc.holdsS s.pcs = 0 := by
      by_contra hne
      exact hholder (exists_of_census_pos (Nat.pos_of_ne_zero hne))
    by_cases howner : ∃ q, (s.pcs q).ownsX = true
    · obtain ⟨q, hq⟩ := howner
      have hdrain : s.pcs q = .drain := by
        cases hpc : s.pcs q with
        | drain => rfl
        | exclusive => exact Pc.noConfusion (hpc.symm.trans (houtside q (by rw [hpc]; rfl)))
        | _ =>
          rw [hpc] at hq
          cases hq
      rw [hnone] at hsLocked
      refine ⟨q, by rw [hdrain]; rfl, ?_⟩
      rw [hdrain]
      exact drain_advances hsLocked
    · have hfree : xLocked s.word = 0 := by
        rw [hxLocked]
        have hzero : census Pc.ownsX s.pcs = 0 := by
          by_contra hne
          exact howner (exists_of_census_pos (Nat.pos_of_ne_zero hne))
        rw [hzero, Nat.mul_zero]
      have hs : (s.pcs t).holdsS = false := Bool.eq_false_of_not_eq_true fun h => hholder ⟨t, h⟩
      have hx : (s.pcs t).ownsX = false := Bool.eq_false_of_not_eq_true fun h => howner ⟨t, h⟩
      exact ⟨t, hcall, unlocked_advances hs hx hcall hbound hfree⟩

/-- Both threads held S and both upgrade: the first one drains the second one. -/
theorem two_upgraders_advance :
    ∃ s : Latch (Fin 2), WaitsFor s 0 1 ∧ ¬ WaitsFor s 1 0 ∧
      ∃ t, (s.pcs t).inCall = true ∧ Advances s.word (s.pcs t) := by
  have calls : Reachable (T := Fin 2) ⟨0, Function.update (fun _ => .idle) 0 (.lockLoad false)⟩ :=
    .step (a := .lockS) .initial rfl
  have first : Reachable (T := Fin 2) ⟨1, Function.update (fun _ => .idle) 0 .shared⟩ :=
    (calls.again (a := .run true) rfl).again (a := .run true) rfl
  have enters := first.step (t := 1) (a := .lockS) rfl
  have second := (enters.again (a := .run true) rfl).again (a := .run true) rfl
  have upgrades := second.step (t := 0) (a := .upgrade) rfl
  have drains := (upgrades.again (a := .run true) rfl).again (a := .run true) rfl
  have both := drains.step (t := 1) (a := .upgrade) rfl
  obtain ⟨hadvances, hwaits⟩ := latch_never_deadlocks (by decide) both
  refine ⟨_, ?_, hwaits 0 1 ?_, hadvances ⟨0, rfl⟩ (Fin.forall_fin_two.mpr ⟨?_, ?_⟩)⟩
  · exact Or.inl ⟨rfl, rfl⟩
  · exact Or.inl ⟨rfl, rfl⟩
  · intro hout
    cases hout
  · intro hout
    cases hout

end Latches

end SpxLatch
