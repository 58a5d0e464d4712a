import CSpecx.GranularLockDrain
import Mathlib.Logic.Relation

/-!
# A hierarchy of granular locks

The modes IS and IX announce locks further down: a thread that locks a node
holds the mode of `get_parent_mode`, or a stronger one, at the node above. Each
node has a lock of its own, and nothing but the protocol connects them. It is
enough: what a thread locks at a node is locked all the way down.
-/

namespace GranularLock

open CExec LinkedChain Component

/-- `get_parent_mode`. -/
def getParentMode : LockMode → LockMode
  | .is => .is
  | .s => .is
  | .ix => .ix
  | .six => .ix
  | .x => .ix

/-- A mode that excludes whatever the other one excludes. -/
def AsStrong (held mode : LockMode) : Prop :=
  ∀ other, compatible held other = true → compatible mode other = true

theorem AsStrong.trans {a b c : LockMode} (h : AsStrong a b) (h' : AsStrong b c) : AsStrong a c :=
  fun other hother => h' other (h other hother)

theorem AsStrong.refl (mode : LockMode) : AsStrong mode mode := fun _ h => h

theorem getParentMode_idem (mode : LockMode) :
    getParentMode (getParentMode mode) = getParentMode mode := by
  cases mode <;> rfl

/-- A stronger mode announces as much. -/
theorem AsStrong.parent {held mode : LockMode} (h : AsStrong held mode) :
    AsStrong (getParentMode held) (getParentMode mode) := by
  -- only a mode that announces writing is against S
  have hs : compatible held .s = true → compatible mode .s = true := h .s
  have hix : compatible held .ix = true → compatible mode .ix = true := h .ix
  intro other hother
  cases held <;> cases mode <;> first
    | exact hother
    | exact Bool.noConfusion (hs rfl)
    | exact Bool.noConfusion (hix rfl)
    | (cases other <;> first | rfl | exact hother)

/-- What a thread holds or waits for. -/
def Wants {T : Type} (s : System T) (t : T) (mode : LockMode) : Prop :=
  0 < s.grants t mode ∨ s.phase t = .waiting mode

section Hierarchies

variable {V T : Type} [DecidableEq T] (parent : V → Option V)

/-- The thread has announced a mode at the node above. -/
def Announced (σ : V → System T) (v : V) (t : T) (mode : LockMode) : Prop :=
  ∀ p, parent v = some p → ∃ held, 0 < (σ p).grants t held ∧ AsStrong held (getParentMode mode)

/-- The protocol. A thread that waits does nothing but wait, it locks from the root to the leaves,
and it gives up no mode that announces another one it holds. -/
def Allowed (σ : V → System T) (v : V) : Action T → Prop
  | .lock t mode _ => (∀ u, (σ u).phase t = .outside) ∧ Announced parent σ v t mode
  | .trylock t mode _ => (∀ u, (σ u).phase t = .outside) ∧ Announced parent σ v t mode
  | .resume t => (σ v).phase t ≠ .outside
  | .unlock t mode => (∀ u, (σ u).phase t = .outside) ∧ 0 < (σ v).grants t mode ∧
      ∀ c, parent c = some v → ∀ mode', 0 < (σ c).grants t mode' →
        ∃ held, 0 < updateGrant (σ v).grants t mode ((σ v).grants t mode - 1) t held ∧
          AsStrong held (getParentMode mode')

inductive Reached [DecidableEq V] [Fintype T] : (V → System T) → Prop where
  | start (memory : V → T → Waiter T) : Reached fun v => initial (memory v)
  | next {σ : V → System T} {v : V} {a : Action T} {r : Reply} {s' : System T} :
      Reached σ → Allowed parent σ v a → step (σ v) a = .ok (r, s') →
      Reached (Function.update σ v s')

/-- A node above another one, or the node itself. -/
abbrev Up : V → V → Prop := Relation.ReflTransGen fun v p => parent v = some p

/-- A lock that covers the node lets the thread read it. -/
def Reads (σ : V → System T) (t : T) (v : V) : Prop :=
  ∃ a, Up parent v a ∧ (0 < (σ a).grants t .s ∨ 0 < (σ a).grants t .six ∨ 0 < (σ a).grants t .x)

/-- A lock that covers the node lets the thread write it. -/
def Writes (σ : V → System T) (t : T) (v : V) : Prop :=
  ∃ a, Up parent v a ∧ 0 < (σ a).grants t .x

/-- Every lock keeps its own invariant, and every mode a thread holds or waits for is announced. -/
structure Ordered [Fintype T] (σ : V → System T) : Prop where
  locks : ∀ v, Invariant (σ v)
  announced : ∀ v t mode, Wants (σ v) t mode → Announced parent σ v t mode

end Hierarchies

section Effects

variable {T : Type} [DecidableEq T] {s s' : System T} {t q : T} {mode m : LockMode}

theorem Moved.other (moved : Moved s t mode s') (hq : q ≠ t) :
    s'.phase q = s.phase q ∧ s'.grants q = s.grants q := by
  cases moved with
  | granted hphase hgrants =>
    rw [hphase, hgrants, Function.update_of_ne hq, updateGrant_other _ _ hq]
    exact ⟨rfl, rfl⟩
  | blocked hphase hgrants =>
    rw [hphase, hgrants, Function.update_of_ne hq]
    exact ⟨rfl, rfl⟩
  | failed hphase hgrants =>
    rw [hphase, hgrants]
    exact ⟨rfl, rfl⟩

/-- A thread that asks for a mode gives up none, and wants that one besides. -/
theorem Moved.grows (moved : Moved s t mode s') (h : 0 < s.grants t m) : 0 < s'.grants t m := by
  cases moved with
  | granted _ hgrants =>
    rw [hgrants, updateGrant_self]
    split
    · exact Nat.succ_pos _
    · exact h
  | blocked _ hgrants => rwa [hgrants]
  | failed _ hgrants => rwa [hgrants]

theorem Moved.wants (moved : Moved s t mode s') (h : Wants s' t m) : Wants s t m ∨ m = mode := by
  cases moved with
  | granted hphase hgrants =>
    rcases h with h | h
    · rw [hgrants, updateGrant_self] at h
      by_cases hm : m = mode
      · exact Or.inr hm
      · rw [if_neg hm] at h
        exact Or.inl (Or.inl h)
    · rw [hphase, Function.update_self] at h
      cases h
  | blocked hphase hgrants =>
    rcases h with h | h
    · rw [hgrants] at h
      exact Or.inl (Or.inl h)
    · rw [hphase, Function.update_self] at h
      exact Or.inr (Phase.waiting.inj h).symm
  | failed hphase hgrants =>
    rw [Wants, hphase, hgrants] at h
    exact Or.inl h

end Effects

section Protocol

variable {V T : Type} [DecidableEq V] [DecidableEq T] [Fintype T] {parent : V → Option V}
  {σ : V → System T} {v u a b p c : V} {s' : System T} {t t' : T}
  {mode mode' : LockMode} {r : Reply}

/-- A thread that moves at a node, having announced what it asks for. -/
theorem Ordered.moved (ordered : Ordered parent σ) (inv' : Invariant s')
    (moved : Moved (σ v) t mode s') (hannounced : Announced parent σ v t mode) :
    Ordered parent (Function.update σ v s') := by
  have hkeeps : ∀ u q m, 0 < (σ u).grants q m → 0 < (Function.update σ v s' u).grants q m := by
    intro u q m hpos
    by_cases hu : u = v
    · subst hu
      rw [Function.update_self]
      by_cases hq : q = t
      · subst hq
        exact moved.grows hpos
      · rwa [(moved.other hq).2]
    · rwa [Function.update_of_ne hu]
  have hstill : ∀ u q m, Announced parent σ u q m →
      Announced parent (Function.update σ v s') u q m := by
    intro u q m h p hp
    obtain ⟨held, hpos, hstrong⟩ := h p hp
    exact ⟨held, hkeeps p q held hpos, hstrong⟩
  refine ⟨fun u => ?_, fun u q m hwants => ?_⟩
  · by_cases hu : u = v
    · rw [hu, Function.update_self]
      exact inv'
    · rw [Function.update_of_ne hu]
      exact ordered.locks u
  · refine hstill u q m ?_
    by_cases hu : u = v
    · subst hu
      rw [Function.update_self] at hwants
      by_cases hq : q = t
      · subst hq
        rcases moved.wants hwants with hold | rfl
        · exact ordered.announced u q m hold
        · exact hannounced
      · rw [Wants, (moved.other hq).1, (moved.other hq).2] at hwants
        exact ordered.announced u q m hwants
    · rw [Function.update_of_ne hu] at hwants
      exact ordered.announced u q m hwants

/-- A thread that releases a mode, keeping what announces the rest. -/
theorem Ordered.unlocked (ordered : Ordered parent σ) (inv' : Invariant s')
    (hallowed : Allowed parent σ v (.unlock t mode)) (hphase : s'.phase = (σ v).phase)
    (hgrants : s'.grants = updateGrant (σ v).grants t mode ((σ v).grants t mode - 1)) :
    Ordered parent (Function.update σ v s') := by
  obtain ⟨hout, -, hrest⟩ := hallowed
  have hless : ∀ u q m, Wants (Function.update σ v s' u) q m → Wants (σ u) q m := by
    intro u q m hwants
    by_cases hu : u = v
    · subst hu
      rw [Function.update_self, Wants, hphase, hgrants] at hwants
      rcases hwants with hpos | hwait
      · by_cases hq : q = t
        · subst hq
          rw [updateGrant_self] at hpos
          refine Or.inl ?_
          split at hpos
          · rename_i hm
            subst hm
            omega
          · exact hpos
        · rw [updateGrant_other _ _ hq] at hpos
          exact Or.inl hpos
      · exact Or.inr hwait
    · rwa [Function.update_of_ne hu] at hwants
  refine ⟨fun u => ?_, fun u q m hwants p hp => ?_⟩
  · by_cases hu : u = v
    · rw [hu, Function.update_self]
      exact inv'
    · rw [Function.update_of_ne hu]
      exact ordered.locks u
  · have hold := hless u q m hwants
    by_cases hpv : p = v
    · subst hpv
      rw [Function.update_self, hgrants]
      by_cases hq : q = t
      · subst hq
        refine hrest u hp m ?_
        rcases hold with hpos | hwait
        · exact hpos
        · rw [hout u] at hwait
          cases hwait
      · rw [updateGrant_other _ _ hq]
        exact ordered.announced u q m hold p hp
    · rw [Function.update_of_ne hpv]
      exact ordered.announced u q m hold p hp

omit [DecidableEq V] [Fintype T] in
theorem Allowed.permitted {action : Action T} (h : Allowed parent σ v action) :
    Permitted (σ v) action := by
  cases action with
  | lock t mode condCreated => exact h.1 v
  | resume t => exact h
  | trylock t mode mutexTaken => exact h.1 v
  | unlock t mode => exact h.2.1

theorem Ordered.next {action : Action T} (ordered : Ordered parent σ)
    (hallowed : Allowed parent σ v action) (hstep : step (σ v) action = .ok (r, s')) :
    Ordered parent (Function.update σ v s') := by
  have inv' := preserves_invariant _ _ _ _ (ordered.locks v) hallowed.permitted hstep
  cases action with
  | lock t mode condCreated => exact ordered.moved inv' (lock_moved hstep) hallowed.2
  | trylock t mode mutexTaken => exact ordered.moved inv' (trylock_moved hstep) hallowed.2
  | resume t =>
    obtain ⟨mode, hwait, moved⟩ := resume_moved hstep
    exact ordered.moved inv' moved (ordered.announced v t mode (Or.inr hwait))
  | unlock t mode =>
    obtain ⟨hphase, hgrants⟩ := unlock_moved hstep
    exact ordered.unlocked inv' hallowed hphase hgrants

theorem Reached.ordered (reached : Reached parent σ) : Ordered parent σ := by
  induction reached with
  | start memory =>
    refine ⟨fun v => initial_invariant (memory v), fun v t mode hwants => ?_⟩
    rcases hwants with hpos | hwait
    · exact absurd hpos (Nat.lt_irrefl 0)
    · cases hwait
  | next _ hallowed hstep ih => exact ih.next hallowed hstep

omit [DecidableEq T] in
/-- A mode held at a node is announced at every node above it. -/
theorem Ordered.above (ordered : Ordered parent σ) (hup : Up parent v a) (hne : v ≠ a)
    (hheld : 0 < (σ v).grants t mode) :
    ∃ held, 0 < (σ a).grants t held ∧ AsStrong held (getParentMode mode) := by
  induction hup using Relation.ReflTransGen.head_induction_on generalizing mode with
  | refl => exact absurd rfl hne
  | head hparent hrest ih =>
    rename_i v p
    obtain ⟨held, hpos, hstrong⟩ := ordered.announced v t mode (Or.inl hheld) p hparent
    by_cases hpa : p = a
    · subst hpa
      exact ⟨held, hpos, hstrong⟩
    · obtain ⟨held', hpos', hstrong'⟩ := ih hpa hpos
      refine ⟨held', hpos', hstrong'.trans ?_⟩
      rw [← getParentMode_idem mode]
      exact hstrong.parent

omit [DecidableEq V] in
theorem Ordered.agree (ordered : Ordered parent σ) (hne : t ≠ t')
    (hheld : 0 < (σ v).grants t mode) (hheld' : 0 < (σ v).grants t' mode') :
    compatible mode mode' = true :=
  (ordered.locks v).tally.distinct hheld hheld' fun h => hne (Prod.mk.inj h).1

/-- Two threads cannot both hold a node, one of them to write it, at the node or anywhere above. -/
theorem hierarchy_excludes (reached : Reached parent σ) (hne : t ≠ t')
    (hwrites : Writes parent σ t v) :
    ¬ Reads parent σ t' v ∧ ¬ Writes parent σ t' v := by
  have ordered := reached.ordered
  have hreads : ¬ Reads parent σ t' v := by
    rintro ⟨b, hvb, hb⟩
    obtain ⟨a, hva, hx⟩ := hwrites
    obtain ⟨mode', hmode', hagainst⟩ : ∃ mode', 0 < (σ b).grants t' mode' ∧
        ∀ held, AsStrong held .ix → compatible held mode' = false := by
      have against : ∀ mode', compatible .ix mode' = false →
          ∀ held, AsStrong held .ix → compatible held mode' = false := by
        intro mode' hix held hstrong
        cases hc : compatible held mode' with
        | false => rfl
        | true => exact Bool.noConfusion (hix.symm.trans (hstrong mode' hc))
      rcases hb with hb | hb | hb
      · exact ⟨.s, hb, against .s rfl⟩
      · exact ⟨.six, hb, against .six rfl⟩
      · exact ⟨.x, hb, against .x rfl⟩
    have hunique : Relator.RightUnique fun v p : V => parent v = some p := by
      intro v p q hp hq
      exact Option.some.inj (hp.symm.trans hq)
    -- of two nodes above the same node one is above the other
    rcases Relation.ReflTransGen.total_of_right_unique hunique hva hvb with hab | hba
    · have hix : AsStrong .x .ix := fun other h => by cases other <;> cases h
      by_cases hsame : a = b
      · subst hsame
        exact Bool.noConfusion ((hagainst .x hix).symm.trans (ordered.agree hne hx hmode'))
      · obtain ⟨held, hpos, hstrong⟩ := ordered.above hab hsame hx
        exact Bool.noConfusion ((hagainst held hstrong).symm.trans (ordered.agree hne hpos hmode'))
    · by_cases hsame : b = a
      · subst hsame
        have hx' : compatible .x mode' = false := by cases mode' <;> rfl
        exact Bool.noConfusion (hx'.symm.trans (ordered.agree hne hx hmode'))
      · obtain ⟨held, hpos, -⟩ := ordered.above hba hsame hmode'
        have hx' : compatible .x held = false := by cases held <;> rfl
        exact Bool.noConfusion (hx'.symm.trans (ordered.agree hne hx hpos))
  refine ⟨hreads, ?_⟩
  rintro ⟨b, hvb, hb⟩
  exact hreads ⟨b, hvb, Or.inr (Or.inr hb)⟩

/-- A root and one node below it: the first thread locks the root in IX and the node in X. -/
theorem hierarchy_excludes_two : ∃ σ : Bool → System (Fin 2),
    Writes (fun v => if v then some false else none) σ 0 true ∧
      ¬ Reads (fun v => if v then some false else none) σ 1 true ∧
      ¬ Writes (fun v => if v then some false else none) σ 1 true := by
  have start : Reached (fun v => if v then some false else none) fun _ : Bool =>
      initial fun _ : Fin 2 => ⟨.is, false, none, none⟩ := .start _
  have root := start.next (v := false) (a := .lock 0 .ix true) (r := .granted)
    ⟨fun _ => rfl, fun p hp => by cases hp⟩ rfl
  have node := root.next (v := true) (a := .lock 0 .x true) (r := .granted)
    ⟨fun u => by cases u <;> rfl, fun p hp => by
      obtain rfl : false = p := Option.some.inj hp
      exact ⟨.ix, Nat.one_pos, .refl .ix⟩⟩ rfl
  refine ⟨_, ?_, hierarchy_excludes node Fin.zero_ne_one ?_⟩
  · exact ⟨true, .refl, Nat.one_pos⟩
  · exact ⟨true, .refl, Nat.one_pos⟩

end Protocol

end GranularLock
