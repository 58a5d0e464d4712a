import Mathlib.Data.Int.Init
import Mathlib.Logic.Function.Basic
import Mathlib.Tactic.Linarith
import Mathlib.Tactic.Ring

/-!
# Walks that displace entries

An entry is carried from slot to slot. It goes past the entries that are at
least as far from home and takes the slot of the first one that is nearer, which
is carried on in its place. What an entry probes is any relation, and a walk may
come back to a slot; where the probes run round a ring, it does not.
-/

namespace ProbeWalk

abbrev Slots (E : Type) := Nat → Option (E × Nat)

section Walks

variable {E : Type} (probes : E → Nat → Nat → Prop) (same : E → E → Bool)

/-- The slot the entry probes at `i` is one its search goes past. -/
def Passed (t : Slots E) (e : E) (i : Nat) : Prop :=
  ∃ s e₀ d₀, probes e i s ∧ t s = some (e₀, d₀) ∧ i ≤ d₀ ∧ same e₀ e = false

/-- One round that goes on: the slots, and the entry that is carried next. -/
inductive Round (t : Slots E) (e : E) (d : Nat) : Slots E → E → Nat → Prop where
  | pass : Passed probes same t e d → Round t e d t e (d + 1)
  | swap {s : Nat} {e₀ : E} {d₀ : Nat} : probes e d s → t s = some (e₀, d₀) → d₀ < d →
      Round t e d (Function.update t s (some (e, d))) e₀ (d₀ + 1)

/-- A walk of at most `n` rounds. One that is `full` makes them all, and drops
the entry it carries last. -/
inductive Walk : Nat → Slots E → E → Nat → Bool → Slots E → Prop where
  | dropped (t : Slots E) (e : E) (d : Nat) : Walk 0 t e d true t
  | stop {n : Nat} {t t' : Slots E} {e : E} {d s : Nat} : probes e d s →
      t' = t ∨ t' = Function.update t s (some (e, d)) → Walk (n + 1) t e d false t'
  | step {n : Nat} {t t₁ t' : Slots E} {e e₁ : E} {d d₁ : Nat} {full : Bool} :
      Round probes same t e d t₁ e₁ d₁ → Walk n t₁ e₁ d₁ full t' → Walk (n + 1) t e d full t'

/-- A gap on the path of `e` that is closed by moving displaced entries back. -/
inductive Shift (e : E) : Nat → Slots E → Nat → Slots E → Prop where
  | done (t : Slots E) (i : Nat) : Shift e 0 t i t
  | clear {n : Nat} (t : Slots E) (i hole : Nat) :
      Shift e (n + 1) t i (Function.update t hole none)
  | move {n : Nat} {t t' : Slots E} {e₀ : E} {i d hole next : Nat} : probes e i hole →
      probes e (i + 1) next → t next = some (e₀, d + 1) →
      Shift e n (Function.update t hole (some (e₀, d))) (i + 1) t' → Shift e (n + 1) t i t'

/-- The probes of the entry run round a ring of `m` slots. -/
def Straight (m : Int) (home : E → Int) (e : E) : Prop :=
  ∀ i s : Nat, (i : Int) ≤ m → probes e i s → m ∣ home e + i - s

/-- The entries probe round the ring, and each sits at its distance. -/
def Homed (m : Int) (home : E → Int) (t : Slots E) : Prop :=
  ∀ s e d, t s = some (e, d) → Straight probes m home e ∧ m ∣ home e + d - s

end Walks

variable {E : Type} {probes : E → Nat → Nat → Prop} {same : E → E → Bool} {t t' t₁ : Slots E}
  {e e₀ e₁ : E} {n d d₀ d₁ i j s : Nat}

/-- A walk passes every slot, or swaps first at some slot and carries the
displaced entry on. -/
theorem Walk.first_swap (walk : Walk probes same n t e i true t') :
    (t' = t ∧ ∀ k, i ≤ k → k < i + n → Passed probes same t e k) ∨
    ∃ j s e₀ d₀, j < i + n ∧ (∀ k, i ≤ k → k < j → Passed probes same t e k) ∧ probes e j s ∧
      t s = some (e₀, d₀) ∧ d₀ < j ∧ i ≤ j ∧
      Walk probes same (i + n - j - 1) (Function.update t s (some (e, j))) e₀ (d₀ + 1) true t' := by
  induction n generalizing i with
  | zero =>
    cases walk
    exact .inl ⟨rfl, fun k h₁ h₂ => by omega⟩
  | succ n ih =>
    cases walk with
    | step round walk =>
    cases round with
    | pass passed =>
      have hextend : ∀ k, (∀ c, i + 1 ≤ c → c < k → Passed probes same t e c) →
          ∀ c, i ≤ c → c < k → Passed probes same t e c := by
        intro k hk c h₁ h₂
        by_cases hci : c = i
        · exact hci ▸ passed
        · exact hk c (by omega) h₂
      rcases ih walk with ⟨rfl, hall⟩ | ⟨j, s, e₀, d₀, hj, hall, hs, hp, hlt, hij, rest⟩
      · exact .inl ⟨rfl, hextend _ fun k h₁ h₂ => hall k h₁ (by omega)⟩
      · have hcount : i + 1 + n - j - 1 = i + (n + 1) - j - 1 := by omega
        rw [hcount] at rest
        exact .inr ⟨j, s, e₀, d₀, by omega, hextend j hall, hs, hp, hlt, by omega, rest⟩
    | swap hs hp hlt =>
      have hcount : i + (n + 1) - i - 1 = n := by omega
      exact .inr ⟨i, _, _, _, by omega, fun k h₁ h₂ => by omega, hs, hp, hlt, le_rfl,
        hcount.symm ▸ walk⟩

section Ring

variable {m : Int} {home : E → Int}

@[simp] theorem homed_empty : Homed probes m home (fun _ => none) := fun _ _ _ h => nomatch h

theorem Homed.put (homed : Homed probes m home t) (straight : Straight probes m home e)
    (h : m ∣ home e + d - s) : Homed probes m home (Function.update t s (some (e, d))) := by
  intro s' e' d' hslot
  by_cases hs : s' = s
  · rw [hs, Function.update_self] at hslot
    obtain ⟨rfl, rfl⟩ := Prod.mk.inj (Option.some.inj hslot)
    exact ⟨straight, hs ▸ h⟩
  · rw [Function.update_of_ne hs] at hslot
    exact homed s' e' d' hslot

theorem Homed.clear (homed : Homed probes m home t) :
    Homed probes m home (Function.update t s none) := by
  intro s' e' d' hslot
  by_cases hs : s' = s
  · rw [hs, Function.update_self] at hslot
    cases hslot
  · rw [Function.update_of_ne hs] at hslot
    exact homed s' e' d' hslot

/-- A round keeps the entries homed and moves on by one slot. -/
theorem Round.homed (round : Round probes same t e d t₁ e₁ d₁) (homed : Homed probes m home t)
    (straight : Straight probes m home e) (hd : (d : Int) < m) :
    Homed probes m home t₁ ∧ Straight probes m home e₁ ∧ d₁ ≤ d + 1 ∧
      m ∣ home e₁ + d₁ - (home e + d + 1) ∧
      ∀ s : Nat, ¬ m ∣ home e + d - s → t₁ s = t s := by
  cases round with
  | pass passed =>
    refine ⟨homed, straight, le_rfl, ⟨0, ?_⟩, fun s _ => rfl⟩
    push_cast
    ring
  | @swap s _ d₀ hs hp hlt =>
    obtain ⟨straight₁, hhome⟩ := homed s _ _ hp
    have hslot := straight d s hd.le hs
    refine ⟨homed.put straight hslot, straight₁, by omega, ?_, fun s' hs' => ?_⟩
    · convert Int.dvd_sub hhome hslot using 1
      push_cast
      ring
    · have hne : s' ≠ s := by
        rintro rfl
        exact hs' hslot
      exact Function.update_of_ne hne _ _

theorem Walk.homed {full : Bool} (walk : Walk probes same n t e d full t')
    (homed : Homed probes m home t) (straight : Straight probes m home e)
    (hn : (d + n : Int) ≤ m) : Homed probes m home t' := by
  induction walk with
  | dropped => exact homed
  | @stop n t t' e d s hs hput =>
    push_cast at hn
    rcases hput with rfl | rfl
    · exact homed
    · exact homed.put straight (straight d s (by omega) hs)
  | step round _ ih =>
    push_cast at hn
    obtain ⟨homed₁, straight₁, hd₁, -, -⟩ := round.homed homed straight (by omega)
    exact ih homed₁ straight₁ (by omega)

/-- An entry that is moved back to the slot before it is homed there. -/
theorem Shift.homed (shift : Shift probes e n t i t') (homed : Homed probes m home t)
    (straight : Straight probes m home e) (hn : (i + n : Int) ≤ m) : Homed probes m home t' := by
  induction shift with
  | done => exact homed
  | clear => exact homed.clear
  | @move n t t' e₀ i d hole next hhole hnext hslot _ ih =>
    push_cast at hn
    obtain ⟨straight₀, hhome⟩ := homed next _ _ hslot
    refine ih (homed.put straight₀ ?_) (by omega)
    have hsum := Int.dvd_add (Int.dvd_sub hhome (straight (i + 1) next (by omega) hnext))
      (straight i hole (by omega) hhole)
    convert hsum using 1
    push_cast
    ring

/-- Slots off the probes to come keep their entries. -/
theorem Walk.frame (walk : Walk probes same n t e d true t') (homed : Homed probes m home t)
    (straight : Straight probes m home e) (hn : (d + n : Int) ≤ m)
    (hoff : ∀ c < n, ¬ m ∣ home e + d + c - s) : t' s = t s := by
  induction n generalizing t e d with
  | zero =>
    cases walk
    rfl
  | succ n ih =>
    cases walk with
    | @step _ _ t₁ _ _ e₁ _ d₁ _ round walk =>
    have hfirst : ¬ m ∣ home e + d - s := by
      simpa using hoff 0 (Nat.succ_pos n)
    push_cast at hn
    obtain ⟨homed₁, straight₁, hd₁, hmove, hkeep⟩ := round.homed homed straight (by omega)
    rw [← hkeep s hfirst]
    refine ih walk homed₁ straight₁ (by omega) fun c hc hdvd => hoff (c + 1) (by omega) ?_
    convert Int.dvd_sub hdvd hmove using 1
    push_cast
    ring

/-- After a swap on a ring the entry is found although another one was dropped. -/
theorem Walk.swapped_found (homed : Homed probes m home t) (straight : Straight probes m home e)
    (hall : ∀ k < j, Passed probes same t e k) (hs : probes e j s) (hp : t s = some (e₀, d₀))
    (hlt : d₀ < j) (hn : (j + 1 + n : Int) ≤ m)
    (walk : Walk probes same n (Function.update t s (some (e, j))) e₀ (d₀ + 1) true t') :
    (∀ k < j, Passed probes same t' e k) ∧ t' s = some (e, j) := by
  have round : Round probes same t e j _ _ _ := .swap hs hp hlt
  obtain ⟨homed₁, straight₁, -, hmove, -⟩ := round.homed homed straight (by omega)
  -- the slots of the path up to the swap are not probed again
  have hkeep : ∀ k r, k ≤ j → probes e k r →
      t' r = Function.update t s (some (e, j)) r := by
    intro k r hkj hr
    refine walk.frame homed₁ straight₁ (by omega) fun c hc hdvd => ?_
    have hdiff : m ∣ ((j + 1 + c - k : Nat) : Int) := by
      have hcast : ((j + 1 + c - k : Nat) : Int) = j + 1 + c - k := by omega
      convert Int.dvd_sub (Int.dvd_sub hdvd hmove) (straight k r (by omega) hr) using 1
      rw [hcast]
      push_cast
      ring
    have hbound := Int.le_of_dvd (by omega) hdiff
    omega
  refine ⟨fun k hk => ?_, ?_⟩
  · obtain ⟨r, f, c, hr, hslot, rest⟩ := hall k hk
    have hne : r ≠ s := by
      rintro rfl
      have hdiff : m ∣ ((j - k : Nat) : Int) := by
        have hcast : ((j - k : Nat) : Int) = j - k := by omega
        convert Int.dvd_sub (straight j r (by omega) hs) (straight k r (by omega) hr) using 1
        rw [hcast]
        ring
      have hbound := Int.le_of_dvd (by omega) hdiff
      omega
    refine ⟨r, f, c, hr, ?_, rest⟩
    rw [hkeep k r hk.le hr, Function.update_of_ne hne, hslot]
  · rw [hkeep j s le_rfl hs, Function.update_self]

end Ring

end ProbeWalk
