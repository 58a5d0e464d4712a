import CSpecx.CExec
import Mathlib.Algebra.BigOperators.Group.Finset.Basic
import Mathlib.Algebra.Order.BigOperators.Group.Finset
import Mathlib.Logic.Function.Basic
import Mathlib.Logic.Relation

/-!
# Sections behind one lock

Threads run sections of code over shared data, one memory access a step, and a
lock keeps all but one of them out. Whatever the lock does, a state of such a
system is one that whole sections lead to, one after the other, and a part of
the section that is open. A section that returns from every state it starts in
does so here too, so no thread is kept from its end.
-/

namespace GuardedSections

open CExec

variable {T S Op R C D K : Type}

/-- What the threads run. A thread asks for sections according to its local data and takes
their results in; a section goes from one access to the next until it has a result. -/
structure Program (S Op R C D : Type) where
  asks : S → Op → Prop
  absorb : S → Op → R → S
  start : Op → C
  access : C → D → Outcome (C × D)
  result : C → Option R

inductive Event where
  | call
  | spin
  | acquire
  | release

structure Lock (T K : Type) where
  step : K → T → Event → K → Prop

inductive Place (S Op C : Type) where
  | outside (s : S)
  | trying (s : S) (op : Op)
  | inside (s : S) (op : Op) (c : C)

inductive Stage where
  | out
  | trying
  | inside
  deriving DecidableEq

namespace Place

def locals : Place S Op C → S
  | outside s => s
  | trying s _ => s
  | inside s _ _ => s

def stage : Place S Op C → Stage
  | outside _ => .out
  | trying _ _ => .trying
  | inside _ _ _ => .inside

/-- The thread has asked for the section it is at. -/
def Asked (P : Program S Op R C D) : Place S Op C → Prop
  | outside _ => True
  | trying s op => P.asks s op
  | inside s op _ => P.asks s op

end Place

structure State (T S Op C D K : Type) where
  lock : K
  places : T → Place S Op C
  data : D

def State.stages (σ : State T S Op C D K) (t : T) : Stage := (σ.places t).stage

def State.initial (k : K) (s : T → S) (d : D) : State T S Op C D K :=
  ⟨k, fun t => .outside (s t), d⟩

section Systems

variable [DecidableEq T]

inductive Step (P : Program S Op R C D) (L : Lock T K) :
    State T S Op C D K → State T S Op C D K → Prop where
  | call {σ : State T S Op C D K} {t : T} {s : S} {op : Op} {k : K} :
      σ.places t = .outside s → P.asks s op → L.step σ.lock t .call k →
      Step P L σ ⟨k, Function.update σ.places t (.trying s op), σ.data⟩
  | spin {σ : State T S Op C D K} {t : T} {s : S} {op : Op} {k : K} :
      σ.places t = .trying s op → L.step σ.lock t .spin k →
      Step P L σ ⟨k, σ.places, σ.data⟩
  | acquire {σ : State T S Op C D K} {t : T} {s : S} {op : Op} {k : K} :
      σ.places t = .trying s op → L.step σ.lock t .acquire k →
      Step P L σ ⟨k, Function.update σ.places t (.inside s op (P.start op)), σ.data⟩
  | access {σ : State T S Op C D K} {t : T} {s : S} {op : Op} {c c' : C} {d : D} :
      σ.places t = .inside s op c → P.result c = none → P.access c σ.data = .ok (c', d) →
      Step P L σ ⟨σ.lock, Function.update σ.places t (.inside s op c'), d⟩
  | release {σ : State T S Op C D K} {t : T} {s : S} {op : Op} {c : C} {r : R} {k : K} :
      σ.places t = .inside s op c → P.result c = some r → L.step σ.lock t .release k →
      Step P L σ ⟨k, Function.update σ.places t (.outside (P.absorb s op r)), σ.data⟩

abbrev Steps (P : Program S Op R C D) (L : Lock T K) :
    State T S Op C D K → State T S Op C D K → Prop := Relation.ReflTransGen (Step P L)

end Systems

/-- A section that started on `d` has got to `c` and to the data. -/
inductive Runs (P : Program S Op R C D) (op : Op) (d : D) : C → D → Prop where
  | start : Runs P op d (P.start op) d
  | access {c c' : C} {d' d'' : D} : Runs P op d c d' → P.result c = none →
      P.access c d' = .ok (c', d'') → Runs P op d c' d''

/-- A whole section, from its start to its result. -/
def Completes (P : Program S Op R C D) (d : D) (op : Op) (r : R) (d' : D) : Prop :=
  ∃ c, Runs P op d c d' ∧ P.result c = some r

/-- A section that is at `c` gets to a result when it goes on alone. -/
inductive Ends (P : Program S Op R C D) : C → D → Prop where
  | now {c : C} {d : D} {r : R} : P.result c = some r → Ends P c d
  | access {c c' : C} {d d' : D} : P.result c = none → P.access c d = .ok (c', d') → Ends P c' d' →
      Ends P c d

/-- The threads with whole sections as steps. -/
structure Whole (T S D : Type) where
  locals : T → S
  data : D

section Wholes

variable [DecidableEq T]

inductive WholeStep (P : Program S Op R C D) : Whole T S D → Whole T S D → Prop where
  | mk {w : Whole T S D} {t : T} {op : Op} {r : R} {d : D} : P.asks (w.locals t) op →
      Completes P w.data op r d →
      WholeStep P w ⟨Function.update w.locals t (P.absorb (w.locals t) op r), d⟩

abbrev WholeSteps (P : Program S Op R C D) : Whole T S D → Whole T S D → Prop :=
  Relation.ReflTransGen (WholeStep P)

/-- The rules of a lock that keeps all threads but one out, by an invariant that relates its
state to the stages of the threads. -/
structure Exclusive (L : Lock T K) (k₀ : K) (I : K → (T → Stage) → Prop) : Prop where
  initial : I k₀ fun _ => .out
  call : ∀ {k g t k'}, I k g → g t = .out → L.step k t .call k' → I k' (Function.update g t .trying)
  spin : ∀ {k g t k'}, I k g → g t = .trying → L.step k t .spin k' → I k' g
  acquire : ∀ {k g t k'}, I k g → g t = .trying → L.step k t .acquire k' →
    (∀ q, g q ≠ .inside) ∧ I k' (Function.update g t .inside)
  release : ∀ {k g t k'}, I k g → g t = .inside → L.step k t .release k' →
    I k' (Function.update g t .out)

/-- A lock that is free can be had, and one that is held can be given back. -/
structure Obliging (L : Lock T K) (I : K → (T → Stage) → Prop) : Prop where
  call : ∀ {k g t}, I k g → g t = .out → ∃ k', L.step k t .call k'
  acquire : ∀ {k g t}, I k g → g t = .trying → (∀ q, g q ≠ .inside) →
    ∃ k' k'', Relation.ReflTransGen (fun a b => L.step a t .spin b) k k' ∧ L.step k' t .acquire k''
  release : ∀ {k g t}, I k g → g t = .inside → ∃ k', L.step k t .release k'

/-- A section a thread can ask for gets to a result from wherever it has got to. -/
def Finishes (P : Program S Op R C D) (s₀ : T → S) (d₀ : D) : Prop :=
  ∀ w, WholeSteps P ⟨s₀, d₀⟩ w → ∀ t op, P.asks (w.locals t) op → ∀ c d, Runs P op w.data c d →
    Ends P c d

/-- All threads are outside and none of them asks for another section. -/
def State.Finished (P : Program S Op R C D) (σ : State T S Op C D K) : Prop :=
  ∀ t, ∃ s, σ.places t = .outside s ∧ ∀ op, ¬ P.asks s op

/-- A state and the whole sections that lead to it: no section is open, or one is. -/
structure Serial (P : Program S Op R C D) (σ : State T S Op C D K) (w : Whole T S D) : Prop where
  locals : ∀ t, (σ.places t).locals = w.locals t
  asked : ∀ t, (σ.places t).Asked P
  data : (∀ t, σ.stages t ≠ .inside) ∧ σ.data = w.data ∨
    ∃ t s op c, σ.places t = .inside s op c ∧ (∀ q, q ≠ t → σ.stages q ≠ .inside) ∧
      Runs P op w.data c σ.data

end Wholes

section Rules

variable [DecidableEq T] {P : Program S Op R C D} {L : Lock T K} {k₀ : K}
  {I : K → (T → Stage) → Prop} {σ σ' : State T S Op C D K} {w : Whole T S D} {s : S} {op : Op}
  {c c' : C} {d : D} {t : T} {pl : Place S Op C}

theorem stages_update (k : K) (d : D) :
    (⟨k, Function.update σ.places t pl, d⟩ : State T S Op C D K).stages =
      Function.update σ.stages t pl.stage := by
  funext q
  by_cases hq : q = t
  · subst hq
    simp [State.stages]
  · simp [State.stages, hq]

theorem Step.locked (excludes : Exclusive L k₀ I) (step : Step P L σ σ') (h : I σ.lock σ.stages) :
    I σ'.lock σ'.stages := by
  have hstage : ∀ {t : T} {pl : Place S Op C}, σ.places t = pl → σ.stages t = pl.stage :=
    fun h => congrArg Place.stage h
  cases step with
  | call hplace _ hlock =>
    rw [stages_update]
    exact excludes.call h (hstage hplace) hlock
  | spin hplace hlock => exact excludes.spin h (hstage hplace) hlock
  | acquire hplace hlock =>
    rw [stages_update]
    exact (excludes.acquire h (hstage hplace) hlock).2
  | @access t s op c c' d hplace _ _ =>
    have hsame : Function.update σ.stages t .inside = σ.stages :=
      Function.update_eq_self_iff.mpr (hstage hplace).symm
    rw [stages_update]
    exact hsame.symm ▸ h
  | release hplace _ hlock =>
    rw [stages_update]
    exact excludes.release h (hstage hplace) hlock

theorem Steps.locked (excludes : Exclusive L k₀ I) (steps : Steps P L σ σ')
    (h : I σ.lock σ.stages) : I σ'.lock σ'.stages := by
  induction steps with
  | refl => exact h
  | tail _ step ih => exact step.locked excludes ih

/-- The thread that is inside is the one the open section belongs to. -/
theorem Serial.open (serial : Serial P σ w) (hplace : σ.places t = .inside s op c) :
    Runs P op w.data c σ.data ∧ ∀ q, q ≠ t → σ.stages q ≠ .inside := by
  rcases serial.data with ⟨hnone, -⟩ | ⟨t', s', op', c', hplace', hothers, hruns⟩
  · exact absurd (congrArg Place.stage hplace) (hnone t)
  · have hsame : t = t' := by
      by_contra hne
      exact hothers t hne (congrArg Place.stage hplace)
    subst hsame
    obtain ⟨rfl, rfl, rfl⟩ := Place.inside.inj (hplace.symm.trans hplace')
    exact ⟨hruns, hothers⟩

/-- A thread that moves without its local data and outside the section that is open. -/
theorem Serial.move (serial : Serial P σ w) (k : K) (hlocals : pl.locals = (σ.places t).locals)
    (hasked : pl.Asked P) (hold : σ.stages t ≠ .inside) (hnew : pl.stage ≠ .inside) :
    Serial P ⟨k, Function.update σ.places t pl, σ.data⟩ w := by
  refine ⟨fun q => ?_, fun q => ?_, ?_⟩
  · by_cases hq : q = t
    · rw [hq, ← serial.locals t, ← hlocals]
      simp
    · simpa [hq] using serial.locals q
  · by_cases hq : q = t
    · rw [hq]
      simpa using hasked
    · simpa [hq] using serial.asked q
  · rw [stages_update]
    have hstages : ∀ q, σ.stages q ≠ .inside → Function.update σ.stages t pl.stage q ≠ .inside := by
      intro q hq
      by_cases hqt : q = t
      · rwa [hqt, Function.update_self]
      · rwa [Function.update_of_ne hqt]
    rcases serial.data with ⟨hnone, hdata⟩ | ⟨q, s, op, c, hq, hothers, hruns⟩
    · exact Or.inl ⟨fun q => hstages q (hnone q), hdata⟩
    · have hqt : q ≠ t := by
        rintro rfl
        exact hold (congrArg Place.stage hq)
      exact Or.inr ⟨q, s, op, c, (Function.update_of_ne hqt _ _).trans hq,
        fun q' hne => hstages q' (hothers q' hne), hruns⟩

/-- The thread goes on in the section, which is the only open one. -/
theorem Serial.inside (serial : Serial P σ w) (k : K) (hlocals : s = (σ.places t).locals)
    (hasks : P.asks s op) (hothers : ∀ q, q ≠ t → σ.stages q ≠ .inside)
    (hruns : Runs P op w.data c d) :
    Serial P ⟨k, Function.update σ.places t (.inside s op c), d⟩ w := by
  refine ⟨fun q => ?_, fun q => ?_,
    Or.inr ⟨t, s, op, c, Function.update_self .., fun q hq => ?_, hruns⟩⟩
  · by_cases hq : q = t
    · rw [hq, ← serial.locals t, ← hlocals]
      simp [Place.locals]
    · simpa [hq] using serial.locals q
  · by_cases hq : q = t
    · rw [hq]
      simpa [Place.Asked] using hasks
    · simpa [hq] using serial.asked q
  · rw [stages_update, Function.update_of_ne hq]
    exact hothers q hq

/-- A step inside a section stays in the open section; a release makes it one of the whole ones;
the other steps change no data. -/
theorem Step.serial (excludes : Exclusive L k₀ I) (step : Step P L σ σ') (h : I σ.lock σ.stages)
    (serial : Serial P σ w) : ∃ w', WholeSteps P w w' ∧ Serial P σ' w' := by
  have hstage : ∀ {t : T} {pl : Place S Op C}, σ.places t = pl → σ.stages t = pl.stage :=
    fun h => congrArg Place.stage h
  have hlocals : ∀ {t : T} (pl : Place S Op C), σ.places t = pl → pl.locals = (σ.places t).locals :=
    fun _ h => congrArg Place.locals h.symm
  cases step with
  | @call t s op k hplace hasks _ =>
    exact ⟨w, .refl, serial.move k (hlocals (.outside s) hplace) hasks
      (hstage hplace ▸ Stage.noConfusion) Stage.noConfusion⟩
  | spin _ _ => exact ⟨w, .refl, serial.locals, serial.asked, serial.data⟩
  | @acquire t s op k hplace hlock =>
    have hnone := (excludes.acquire h (hstage hplace) hlock).1
    have hasks : P.asks s op := by
      have hasked := serial.asked t
      rwa [hplace] at hasked
    refine ⟨w, .refl, serial.inside k (hlocals (.trying s op) hplace) hasks
      (fun q _ => hnone q) ?_⟩
    rcases serial.data with ⟨-, hdata⟩ | ⟨q, _, _, _, hq, -⟩
    · rw [← hdata]
      exact .start
    · exact absurd (hstage hq) (hnone q)
  | @access t s op c c' d hplace hresult haccess =>
    obtain ⟨hruns, hothers⟩ := serial.open hplace
    have hasks : P.asks s op := by
      have hasked := serial.asked t
      rwa [hplace] at hasked
    exact ⟨w, .refl, serial.inside σ.lock (hlocals (.inside s op c) hplace) hasks hothers
      (hruns.access hresult haccess)⟩
  | @release t s op c r k hplace hresult _ =>
    obtain ⟨hruns, hothers⟩ := serial.open hplace
    have hasks : P.asks s op := by
      have hasked := serial.asked t
      rwa [hplace] at hasked
    have hlocal : s = w.locals t := by rw [← serial.locals t, hplace]; rfl
    subst hlocal
    refine ⟨_, .single (.mk hasks ⟨c, hruns, hresult⟩), fun q => ?_, fun q => ?_,
      Or.inl ⟨fun q => ?_, rfl⟩⟩
    · by_cases hq : q = t
      · subst hq
        simp [Place.locals]
      · simpa [hq] using serial.locals q
    · by_cases hq : q = t
      · subst hq
        simp [Place.Asked]
      · simpa [hq] using serial.asked q
    · rw [stages_update]
      by_cases hq : q = t
      · rw [hq, Function.update_self]
        exact Stage.noConfusion
      · rw [Function.update_of_ne hq]
        exact hothers q hq

/-- Every state is reached by whole sections and a part of the open one. -/
theorem Steps.serial {s₀ : T → S} {d₀ : D} (excludes : Exclusive L k₀ I)
    (steps : Steps P L (.initial k₀ s₀ d₀) σ) :
    ∃ w, WholeSteps P ⟨s₀, d₀⟩ w ∧ Serial P σ w := by
  induction steps with
  | refl =>
    exact ⟨_, .refl, fun _ => rfl, fun _ => trivial, Or.inl ⟨fun _ => Stage.noConfusion, rfl⟩⟩
  | tail steps step ih =>
    obtain ⟨w, hw, serial⟩ := ih
    have hlocked := Steps.locked excludes steps excludes.initial
    obtain ⟨w', hw', serial'⟩ := step.serial excludes hlocked serial
    exact ⟨w', hw.trans hw', serial'⟩

/-- The only open section goes on to its release. -/
theorem Steps.close {s₀ : T → S} {d₀ : D} (excludes : Exclusive L k₀ I) (obliges : Obliging L I)
    (finishes : Finishes P s₀ d₀) (steps : Steps P L (.initial k₀ s₀ d₀) σ)
    (hplace : σ.places t = .inside s op c) :
    ∃ σ' r, Steps P L σ σ' ∧
      σ'.places = Function.update σ.places t (.outside (P.absorb s op r)) := by
  obtain ⟨w, hw, serial⟩ := Steps.serial excludes steps
  obtain ⟨hruns, -⟩ := serial.open hplace
  have hasks : P.asks (w.locals t) op := by
    have hasked := serial.asked t
    rw [← serial.locals t]
    rw [hplace] at hasked ⊢
    exact hasked
  -- the accesses that are left, one after the other
  obtain ⟨σ', c', r, hsteps, hplaces, hresult⟩ : ∃ (σ' : State T S Op C D K) (c' : C) (r : R),
      Steps P L σ σ' ∧ σ'.places = Function.update σ.places t (.inside s op c') ∧
        P.result c' = some r := by
    suffices h : ∀ c d, Ends P c d → ∀ τ : State T S Op C D K,
      τ.places t = .inside s op c → τ.data = d →
        ∃ (τ' : State T S Op C D K) (c' : C) (r : R), Steps P L τ τ' ∧
          τ'.places = Function.update τ.places t (.inside s op c') ∧ P.result c' = some r from
      h _ _ (finishes w hw t op hasks c σ.data hruns) σ hplace rfl
    intro c d ends
    induction ends with
    | @now c d r hresult =>
      intro τ hτ _
      exact ⟨τ, c, r, .refl, (Function.update_eq_self_iff.mpr hτ.symm).symm, hresult⟩
    | access hresult haccess _ ih =>
      intro τ hτ hdata
      obtain ⟨τ', c', r, hτ', hplaces, hlast⟩ := ih
        ⟨τ.lock, Function.update τ.places t (.inside s op _), _⟩ (Function.update_self ..) rfl
      refine ⟨τ', c', r, .head (.access hτ hresult (hdata ▸ haccess)) hτ', ?_, hlast⟩
      rw [hplaces, Function.update_idem]
  have hinside : σ'.places t = .inside s op c' := by rw [hplaces, Function.update_self]
  have hlocked := Steps.locked excludes (steps.trans hsteps) excludes.initial
  obtain ⟨k, hlock⟩ := obliges.release hlocked (congrArg Place.stage hinside)
  refine ⟨_, r, hsteps.tail (.release hinside hresult hlock), ?_⟩
  simp only [hplaces, Function.update_idem]

/-- A thread that tries while nobody is inside gets in and to its release. -/
theorem Steps.pass {s₀ : T → S} {d₀ : D} (excludes : Exclusive L k₀ I) (obliges : Obliging L I)
    (finishes : Finishes P s₀ d₀) (steps : Steps P L (.initial k₀ s₀ d₀) σ)
    (hfree : ∀ q, σ.stages q ≠ .inside) (hplace : σ.places t = .trying s op) :
    ∃ σ' r, Steps P L σ σ' ∧
      σ'.places = Function.update σ.places t (.outside (P.absorb s op r)) := by
  have hlocked := Steps.locked excludes steps excludes.initial
  obtain ⟨k', k'', hspins, hacquire⟩ := obliges.acquire hlocked (congrArg Place.stage hplace) hfree
  have hspinning : Steps P L σ ⟨k', σ.places, σ.data⟩ := by
    clear hacquire
    induction hspins with
    | refl => exact .refl
    | tail _ hspin ih => exact ih.tail (.spin hplace hspin)
  have hin := hspinning.tail (.acquire hplace hacquire)
  obtain ⟨σ', r, hsteps, hplaces⟩ :=
    Steps.close excludes obliges finishes (steps.trans hin) (Function.update_self ..)
  refine ⟨σ', r, hin.trans hsteps, ?_⟩
  rw [hplaces, Function.update_idem]

/-- A thread that asks while nobody is inside gets in and to its release. -/
theorem Steps.ask {s₀ : T → S} {d₀ : D} (excludes : Exclusive L k₀ I) (obliges : Obliging L I)
    (finishes : Finishes P s₀ d₀) (steps : Steps P L (.initial k₀ s₀ d₀) σ)
    (hfree : ∀ q, σ.stages q ≠ .inside) (hplace : σ.places t = .outside s) (hasks : P.asks s op) :
    ∃ σ' r, Steps P L σ σ' ∧
      σ'.places = Function.update σ.places t (.outside (P.absorb s op r)) := by
  have hlocked := Steps.locked excludes steps excludes.initial
  obtain ⟨k, hcall⟩ := obliges.call hlocked (congrArg Place.stage hplace)
  have hcalling : Step P L σ _ := .call hplace hasks hcall
  obtain ⟨σ', r, hsteps, hplaces⟩ := Steps.pass excludes obliges finishes (steps.tail hcalling)
    (fun q => by
      rw [stages_update]
      by_cases hq : q = t
      · rw [hq, Function.update_self]
        exact Stage.noConfusion
      · rw [Function.update_of_ne hq]
        exact hfree q) (Function.update_self ..)
  refine ⟨σ', r, .head hcalling hsteps, ?_⟩
  rw [hplaces, Function.update_idem]

/-- Where every thread asks for finitely many sections, every state can go on to the end. -/
theorem Steps.finish [Fintype T] {s₀ : T → S} {d₀ : D} (excludes : Exclusive L k₀ I)
    (obliges : Obliging L I) (finishes : Finishes P s₀ d₀) (rank : S → Nat)
    (hrank : ∀ s op r, P.asks s op → rank (P.absorb s op r) < rank s)
    (steps : Steps P L (.initial k₀ s₀ d₀) σ) : ∃ σ', Steps P L σ σ' ∧ σ'.Finished P := by
  generalize hn : ∑ t, rank (σ.places t).locals = n
  induction n using Nat.strong_induction_on generalizing σ with
  | _ n ih =>
    obtain ⟨w, -, serial⟩ := Steps.serial excludes steps
    -- one section more, and what the threads have left is less
    have next : ∀ t s op, (σ.places t).locals = s → P.asks s op →
        (∃ σ' r, Steps P L σ σ' ∧
          σ'.places = Function.update σ.places t (.outside (P.absorb s op r))) →
        ∃ σ', Steps P L σ σ' ∧ σ'.Finished P := by
      rintro t s op hlocals hasks ⟨σ', r, hsteps, hplaces⟩
      have hless : ∑ q, rank (σ'.places q).locals < n := by
        rw [← hn]
        refine Finset.sum_lt_sum (fun q _ => ?_) ⟨t, Finset.mem_univ t, ?_⟩
        · by_cases hq : q = t
          · subst hq
            rw [hplaces, Function.update_self, hlocals]
            exact (hrank s op r hasks).le
          · rw [hplaces, Function.update_of_ne hq]
        · rw [hplaces, Function.update_self, hlocals]
          exact hrank s op r hasks
      obtain ⟨σ'', hsteps', hfinished⟩ := ih _ hless (steps.trans hsteps) rfl
      exact ⟨σ'', hsteps.trans hsteps', hfinished⟩
    by_cases hinside : ∃ t s op c, σ.places t = .inside s op c
    · obtain ⟨t, s, op, c, hplace⟩ := hinside
      have hasked := serial.asked t
      rw [hplace] at hasked
      exact next t s op (congrArg Place.locals hplace) hasked
        (Steps.close excludes obliges finishes steps hplace)
    · have hfree : ∀ q, σ.stages q ≠ .inside := by
        intro q hq
        cases hplace : σ.places q with
        | outside s => simp [State.stages, hplace, Place.stage] at hq
        | trying s op => simp [State.stages, hplace, Place.stage] at hq
        | inside s op c => exact hinside ⟨q, s, op, c, hplace⟩
      by_cases htrying : ∃ t s op, σ.places t = .trying s op
      · obtain ⟨t, s, op, hplace⟩ := htrying
        have hasked := serial.asked t
        rw [hplace] at hasked
        exact next t s op (congrArg Place.locals hplace) hasked
          (Steps.pass excludes obliges finishes steps hfree hplace)
      · by_cases hasking : ∃ t s op, σ.places t = .outside s ∧ P.asks s op
        · obtain ⟨t, s, op, hplace, hasks⟩ := hasking
          exact next t s op (congrArg Place.locals hplace) hasks
            (Steps.ask excludes obliges finishes steps hfree hplace hasks)
        · refine ⟨σ, .refl, fun t => ?_⟩
          cases hplace : σ.places t with
          | outside s => exact ⟨s, rfl, fun op hasks => hasking ⟨t, s, op, hplace, hasks⟩⟩
          | trying s op => exact absurd ⟨t, s, op, hplace⟩ htrying
          | inside s op c => exact absurd ⟨t, s, op, c, hplace⟩ hinside

end Rules

end GuardedSections
