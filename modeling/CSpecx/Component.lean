import CSpecx.CExec

/-!
# Components, traces and simulation

A component is a state with operations: a caller's obligation for each
operation and a step that may fault. A trace records the operations of a run
with their replies. A simulation relates the component to an abstract
transition relation one step at a time; its run rules are proved here once.
-/

namespace Component

open CExec

universe u

variable {σ α ι ρ : Type}

structure Interface (σ ι ρ : Type) where
  pre : σ → ι → Prop
  step : σ → ι → Outcome (ρ × σ)

/-- The runs of a component in which every call meets its obligation. -/
inductive Trace (C : Interface σ ι ρ) : σ → List (ι × ρ) → σ → Prop where
  | nil (s : σ) : Trace C s [] s
  | cons {s s' s'' : σ} {i : ι} {r : ρ} {tr : List (ι × ρ)} :
      C.pre s i → C.step s i = .ok (r, s') → Trace C s' tr s'' →
        Trace C s ((i, r) :: tr) s''

/-- The same operations and replies on the abstract side. -/
inductive SpecTrace (A : α → ι → ρ → α → Prop) : α → List (ι × ρ) → α → Prop where
  | nil (a : α) : SpecTrace A a [] a
  | cons {a a' a'' : α} {i : ι} {r : ρ} {tr : List (ι × ρ)} :
      A a i r a' → SpecTrace A a' tr a'' → SpecTrace A a ((i, r) :: tr) a''

/-- Related states answer every permitted call, alike and into related states. -/
def Simulation (C : Interface σ ι ρ) (A : α → ι → ρ → α → Prop)
    (R : σ → α → Prop) : Prop :=
  ∀ s a i, R s a → C.pre s i →
    ∃ r s' a', C.step s i = .ok (r, s') ∧ A a i r a' ∧ R s' a'

theorem Simulation.trace {C : Interface σ ι ρ} {A : α → ι → ρ → α → Prop}
    {R : σ → α → Prop} (sim : Simulation C A R) {s s' : σ} {a : α}
    {tr : List (ι × ρ)} (related : R s a) (run : Trace C s tr s') :
    ∃ a', SpecTrace A a tr a' ∧ R s' a' := by
  induction run generalizing a with
  | nil s => exact ⟨a, .nil a, related⟩
  | cons hpre hstep _ ih =>
    obtain ⟨r, t, b, hstep', habs, hb⟩ := sim _ a _ related hpre
    rw [hstep] at hstep'
    obtain ⟨rfl, rfl⟩ := ok_pair_inj hstep'
    obtain ⟨c, htr, hc⟩ := ih hb
    exact ⟨c, .cons habs htr, hc⟩

/-- A permitted call from a related state returns. -/
theorem Simulation.returns {C : Interface σ ι ρ} {A : α → ι → ρ → α → Prop}
    {R : σ → α → Prop} (sim : Simulation C A R) {s : σ} {a : α} {i : ι}
    (related : R s a) (hpre : C.pre s i) : ∃ r s', C.step s i = .ok (r, s') := by
  obtain ⟨r, s', _, hstep, _, _⟩ := sim s a i related hpre
  exact ⟨r, s', hstep⟩

/-- Every permitted call that returns is one of the abstract side. -/
def Refines (C : Interface σ ι ρ) (A : α → ι → ρ → α → Prop) (R : σ → α → Prop) : Prop :=
  ∀ s a i r s', R s a → C.pre s i → C.step s i = .ok (r, s') → ∃ a', A a i r a' ∧ R s' a'

theorem Refines.trace {C : Interface σ ι ρ} {A : α → ι → ρ → α → Prop} {R : σ → α → Prop}
    (refines : Refines C A R) {s s' : σ} {a : α} {tr : List (ι × ρ)} (related : R s a)
    (run : Trace C s tr s') : ∃ a', SpecTrace A a tr a' ∧ R s' a' := by
  induction run generalizing a with
  | nil s => exact ⟨a, .nil a, related⟩
  | cons hpre hstep _ ih =>
    obtain ⟨b, habs, hb⟩ := refines _ _ _ _ _ related hpre hstep
    obtain ⟨c, htr, hc⟩ := ih hb
    exact ⟨c, .cons habs htr, hc⟩

theorem Trace.append {C : Interface σ ι ρ} {s s' s'' : σ} {tr tr' : List (ι × ρ)}
    (run : Trace C s tr s') (run' : Trace C s' tr' s'') : Trace C s (tr ++ tr') s'' := by
  induction run with
  | nil s => exact run'
  | cons hpre hstep _ ih => exact .cons hpre hstep (ih run')

/-- A run is a run of a component that takes the same steps and asks for less. -/
theorem Trace.weaken {C D : Interface σ ι ρ} {s s' : σ} {tr : List (ι × ρ)}
    (run : Trace C s tr s') (hpre : ∀ s i, C.pre s i → D.pre s i) (hstep : D.step = C.step) :
    Trace D s tr s' := by
  induction run with
  | nil s => exact .nil s
  | cons h hrun _ ih => exact .cons (hpre _ _ h) (hstep ▸ hrun) ih

/-- A predicate every permitted call that returns keeps. -/
def Preserves (C : Interface σ ι ρ) (I : σ → Prop) : Prop :=
  ∀ s i r s', I s → C.pre s i → C.step s i = .ok (r, s') → I s'

theorem Preserves.trace {C : Interface σ ι ρ} {I : σ → Prop} (keeps : Preserves C I)
    {s s' : σ} {tr : List (ι × ρ)} (h : I s) (run : Trace C s tr s') : I s' := by
  induction run with
  | nil s => exact h
  | cons hpre hstep _ ih => exact ih (keeps _ _ _ _ h hpre hstep)

end Component
