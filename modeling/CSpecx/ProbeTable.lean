import Mathlib.Data.ZMod.Basic
import Mathlib.Tactic.Abel

/-!
# Open addressing with ordered displacement

A ring of slots stores entries with their distance from the slot they hash to.
The order is local: an entry at a positive distance `d + 1` has a predecessor
slot whose entry is at distance `d` or more. From it follow the search, the
insertion that displaces nearer entries, and the deletion that shifts the
following entries back.
-/

namespace ProbeTable

variable {E : Type} {cap : Nat}

abbrev Table (E : Type) (cap : Nat) := ZMod cap → Option (E × Nat)

inductive Placed where
  | new
  | duplicate
  | full
  deriving DecidableEq, Repr

/-- Look for an entry along the path from `q`; the answer is its distance. -/
def search (test : E → Bool) (q : ZMod cap) (t : Table E cap) : Nat → Nat → Option Nat
  | 0, _ => none
  | n + 1, i =>
    match t (q + i) with
    | none => none
    | some (e, d) =>
      if d < i then none else if test e then some i else search test q t n (i + 1)

def place (home : E → ZMod cap) (same : E → E → Bool) :
    Nat → Table E cap → E → Nat → Placed × Table E cap
  | 0, t, _, _ => (.full, t)
  | n + 1, t, e, d =>
    match t (home e + d) with
    | none => (.new, Function.update t (home e + d) (some (e, d)))
    | some (e₀, d₀) =>
      if d₀ < d then
        let t' := Function.update t (home e + d) (some (e, d))
        if same e e₀ then (.duplicate, t') else place home same n t' e₀ (d₀ + 1)
      else if same e₀ e then (.duplicate, t) else place home same n t e (d + 1)

/-- Close the gap at `h` by moving the following displaced entries back. -/
def shift : Nat → Table E cap → ZMod cap → Option (Table E cap)
  | 0, _, _ => none
  | n + 1, t, h =>
    match t (h + 1) with
    | some (e, c + 1) => shift n (Function.update t h (some (e, c))) (h + 1)
    | some (_, 0) => some (Function.update t h none)
    | none => some (Function.update t h none)

structure Ordered (home : E → ZMod cap) (t : Table E cap) : Prop where
  distance : ∀ p e d, t p = some (e, d) → d < cap ∧ home e + d = p
  descent : ∀ p e d, t (p + 1) = some (e, d + 1) → ∃ e' d', t p = some (e', d') ∧ d ≤ d'

def Distinct (same : E → E → Bool) (t : Table E cap) : Prop :=
  ∀ p q e c e' c', t p = some (e, c) → t q = some (e', c') → same e e' = true → p = q

def Fresh (same : E → E → Bool) (t : Table E cap) (e : E) : Prop :=
  ∀ p e' c, t p = some (e', c) → same e' e = false

def Holds (t : Table E cap) (e : E) : Prop := ∃ p c, t p = some (e, c)

/-- Some path starts or ends here, so a chain of shifts has an end. -/
def Rooted (t : Table E cap) : Prop := ∃ p, ∀ e d, t p = some (e, d) → d = 0

/-- What an entry on its way knows about the slot it left last. -/
def Carried (home : E → ZMod cap) (t : Table E cap) (e : E) (d : Nat) : Prop :=
  ∀ c, d = c + 1 → ∃ e' c', t (home e + c) = some (e', c') ∧ c ≤ c'

theorem cast_inj {i j : Nat} (hi : i < cap) (hj : j < cap)
    (h : (i : ZMod cap) = (j : ZMod cap)) : i = j := by
  rwa [ZMod.natCast_eq_natCast_iff', Nat.mod_eq_of_lt hi, Nat.mod_eq_of_lt hj] at h

theorem offset_inj {q : ZMod cap} {i j : Nat} (hi : i < cap) (hj : j < cap)
    (h : q + i = q + j) : i = j :=
  cast_inj hi hj (add_left_cancel h)

/-- A slot that is its own successor is the only one. -/
theorem cap_eq_one {p : ZMod cap} (h : p + 1 = p) : cap = 1 := by
  have h₁ : ((1 : Nat) : ZMod cap) = 0 := by simpa using h
  rw [ZMod.natCast_eq_zero_iff] at h₁
  exact Nat.dvd_one.mp h₁

theorem exists_offset [NeZero cap] (q p : ZMod cap) : ∃ j < cap, q + (j : ZMod cap) = p := by
  refine ⟨(p - q).val, ZMod.val_lt _, ?_⟩
  rw [ZMod.natCast_zmod_val]
  abel

/-- A path goes on one slot further. -/
theorem path_succ (q : ZMod cap) (i : Nat) : q + ((i + 1 : Nat) : ZMod cap) = q + i + 1 := by
  rw [Nat.cast_add, Nat.cast_one, add_assoc]

/-- The rest of a path starts one slot further. -/
theorem path_rest (q : ZMod cap) (i : Nat) : q + ((i + 1 : Nat) : ZMod cap) = q + 1 + i := by
  rw [path_succ, add_right_comm]

theorem update_some_ne_none {t : Table E cap} {p : ZMod cap} (hp : t p ≠ none) (h : ZMod cap)
    (x : E × Nat) : Function.update t h (some x) p ≠ none := by
  by_cases hph : p = h
  · rw [hph, Function.update_self]
    exact Option.some_ne_none x
  · rw [Function.update_of_ne hph]
    exact hp

section Order

variable {home : E → ZMod cap} {t : Table E cap} {e e₀ : E} {d d₀ : Nat}

/-- The path to an entry is full, and never nearer to home than the path is long. -/
theorem Ordered.path (ord : Ordered home t) {q : ZMod cap} {c : Nat}
    (h : t (q + d) = some (e, c)) (hd : d ≤ c) {j : Nat} (hj : j ≤ d) :
    ∃ e' c', t (q + j) = some (e', c') ∧ j ≤ c' := by
  induction d generalizing e c with
  | zero =>
    have hj0 : j = 0 := by omega
    subst hj0
    exact ⟨e, c, h, hd⟩
  | succ d ih =>
    by_cases hlast : j = d + 1
    · subst hlast
      exact ⟨e, c, h, hd⟩
    · obtain ⟨c, rfl⟩ : ∃ n, c = n + 1 := ⟨c - 1, by omega⟩
      have hsucc : t ((q + d) + 1) = some (e, c + 1) := by
        rw [← path_succ]
        exact h
      obtain ⟨e', d', hpred, hle⟩ := ord.descent _ _ _ hsucc
      exact ih hpred (by omega) (by omega)

theorem carried_zero : Carried home t e 0 := fun c hc => absurd hc (by omega)

/-- Write an entry to its slot over nothing or over an entry not farther. -/
theorem Ordered.put (ord : Ordered home t) (hd : d < cap) (carried : Carried home t e d)
    (hover : ∀ e₀ d₀, t (home e + d) = some (e₀, d₀) → d₀ ≤ d) :
    Ordered home (Function.update t (home e + d) (some (e, d))) := by
  refine ⟨fun p x c hx => ?_, fun p x c hx => ?_⟩
  · by_cases hp : p = home e + d
    · subst hp
      simp only [Function.update_self, Option.some.injEq, Prod.mk.injEq] at hx
      obtain ⟨rfl, rfl⟩ := hx
      exact ⟨hd, rfl⟩
    · rw [Function.update_of_ne hp] at hx
      exact ord.distance p x c hx
  · have hpred : ∃ e' c', t p = some (e', c') ∧ c ≤ c' := by
      by_cases hs : p + 1 = home e + d
      · rw [hs] at hx
        simp only [Function.update_self, Option.some.injEq, Prod.mk.injEq] at hx
        obtain ⟨rfl, rfl⟩ := hx
        obtain ⟨e', c', hc, hle⟩ := carried c rfl
        have hp : p = home e + c := by
          rw [path_succ] at hs
          exact add_right_cancel hs
        exact ⟨e', c', hp ▸ hc, hle⟩
      · rw [Function.update_of_ne hs] at hx
        exact ord.descent p x c hx
    obtain ⟨e', c', hc, hle⟩ := hpred
    by_cases hp : p = home e + d
    · exact ⟨e, d, by rw [hp, Function.update_self], le_trans hle (hover e' c' (hp ▸ hc))⟩
    · exact ⟨e', c', by rw [Function.update_of_ne hp, hc], hle⟩

/-- An entry displaces a nearer one. -/
theorem Ordered.displace (ord : Ordered home t) (hd : d < cap) (carried : Carried home t e d)
    (h : t (home e + d) = some (e₀, d₀)) (hlt : d₀ < d) :
    Ordered home (Function.update t (home e + d) (some (e, d))) := by
  refine ord.put hd carried fun x c hx => ?_
  rw [h] at hx
  obtain ⟨-, rfl⟩ := Prod.mk.inj (Option.some.inj hx)
  exact le_of_lt hlt

theorem Carried.pass (h : t (home e + d) = some (e₀, d₀)) (hle : d ≤ d₀) :
    Carried home t e (d + 1) := by
  intro c hc
  obtain rfl : d = c := by omega
  exact ⟨e₀, d₀, h, hle⟩

theorem Carried.displace (ord : Ordered home t) (h : t (home e + d) = some (e₀, d₀))
    (hlt : d₀ < d) :
    Carried home (Function.update t (home e + d) (some (e, d))) e₀ (d₀ + 1) := by
  intro c hc
  obtain rfl : d₀ = c := by omega
  rw [(ord.distance _ _ _ h).2, Function.update_self]
  exact ⟨e, d, rfl, le_of_lt hlt⟩

/-- After the empty slot comes a slot that starts a path, or another empty one. -/
theorem Ordered.rooted_put (ord : Ordered home t) (hd : d < cap)
    (hempty : t (home e + d) = none) :
    Rooted (Function.update t (home e + d) (some (e, d))) := by
  refine ⟨home e + d + 1, fun x c hx => ?_⟩
  by_cases hs : home e + d + 1 = home e + d
  · have hcap := cap_eq_one hs
    rw [hs] at hx
    simp only [Function.update_self, Option.some.injEq, Prod.mk.injEq] at hx
    omega
  · rw [Function.update_of_ne hs] at hx
    cases c with
    | zero => rfl
    | succ c =>
      obtain ⟨e', d', hp, -⟩ := ord.descent _ _ _ hx
      rw [hempty] at hp
      cases hp

end Order

section Insertion

variable {home : E → ZMod cap} {same : E → E → Bool} {t : Table E cap} {e e₀ : E}
  {d d₀ : Nat}

theorem Distinct.put (dis : Distinct same t) (symm : ∀ x y, same x y = same y x)
    (fresh : Fresh same t e) (p : ZMod cap) :
    Distinct same (Function.update t p (some (e, d))) := by
  intro a b x c y c' hx hy hsame
  by_cases ha : a = p
  · by_cases hb : b = p
    · rw [ha, hb]
    · subst ha
      rw [Function.update_self] at hx
      rw [Function.update_of_ne hb] at hy
      obtain ⟨rfl, rfl⟩ := Prod.mk.inj (Option.some.inj hx)
      rw [symm, fresh b y c' hy] at hsame
      cases hsame
  · by_cases hb : b = p
    · subst hb
      rw [Function.update_self] at hy
      rw [Function.update_of_ne ha] at hx
      obtain ⟨rfl, rfl⟩ := Prod.mk.inj (Option.some.inj hy)
      rw [fresh a x c hx] at hsame
      cases hsame
    · rw [Function.update_of_ne ha] at hx
      rw [Function.update_of_ne hb] at hy
      exact dis a b x c y c' hx hy hsame

/-- The entry that is displaced is fresh in the table it leaves. -/
theorem Fresh.displace (dis : Distinct same t) (symm : ∀ x y, same x y = same y x)
    (fresh : Fresh same t e) {p : ZMod cap} (h : t p = some (e₀, d₀)) :
    Fresh same (Function.update t p (some (e, d))) e₀ := by
  intro q x c hx
  by_cases hq : q = p
  · subst hq
    rw [Function.update_self] at hx
    obtain ⟨rfl, rfl⟩ := Prod.mk.inj (Option.some.inj hx)
    rw [symm]
    exact fresh q e₀ d₀ h
  · rw [Function.update_of_ne hq] at hx
    refine Bool.eq_false_iff.mpr fun hsame => hq ?_
    exact dis q p x c e₀ d₀ hx h hsame

theorem holds_put (p : ZMod cap) (h : t p = none) (x : E) :
    Holds (Function.update t p (some (e, d))) x ↔ Holds t x ∨ x = e := by
  constructor
  · rintro ⟨q, c, hx⟩
    by_cases hq : q = p
    · subst hq
      rw [Function.update_self] at hx
      exact Or.inr (Prod.mk.inj (Option.some.inj hx)).1.symm
    · rw [Function.update_of_ne hq] at hx
      exact Or.inl ⟨q, c, hx⟩
  · rintro (⟨q, c, hx⟩ | rfl)
    · have hq : q ≠ p := by
        rintro rfl
        rw [h] at hx
        cases hx
      exact ⟨q, c, by rw [Function.update_of_ne hq, hx]⟩
    · exact ⟨p, d, Function.update_self _ _ _⟩

theorem holds_displace {p : ZMod cap} (h : t p = some (e₀, d₀)) (x : E) :
    Holds (Function.update t p (some (e, d))) x ∨ x = e₀ ↔ Holds t x ∨ x = e := by
  constructor
  · rintro (⟨q, c, hx⟩ | rfl)
    · by_cases hq : q = p
      · subst hq
        rw [Function.update_self] at hx
        exact Or.inr (Prod.mk.inj (Option.some.inj hx)).1.symm
      · rw [Function.update_of_ne hq] at hx
        exact Or.inl ⟨q, c, hx⟩
    · exact Or.inl ⟨p, d₀, h⟩
  · rintro (⟨q, c, hx⟩ | rfl)
    · by_cases hq : q = p
      · subst hq
        rw [h] at hx
        exact Or.inr (Prod.mk.inj (Option.some.inj hx)).1.symm
      · exact Or.inl ⟨q, c, by rw [Function.update_of_ne hq, hx]⟩
    · exact Or.inl ⟨p, d, Function.update_self _ _ _⟩

/-- An absent entry finds a place while a slot ahead is empty. -/
theorem place_fresh {n : Nat} (symm : ∀ x y, same x y = same y x) (ord : Ordered home t)
    (dis : Distinct same t) (fresh : Fresh same t e) (carried : Carried home t e d)
    (hbound : d + n ≤ cap) (hempty : ∃ j < n, t (home e + d + j) = none) :
    ∃ t', place home same n t e d = (.new, t') ∧ Ordered home t' ∧ Distinct same t' ∧
      Rooted t' ∧ ∀ x, Holds t' x ↔ Holds t x ∨ x = e := by
  induction n generalizing t e d with
  | zero =>
    obtain ⟨j, hj, -⟩ := hempty
    omega
  | succ n ih =>
    cases hslot : t (home e + d) with
    | none =>
      refine ⟨Function.update t (home e + d) (some (e, d)), by simp only [place, hslot],
        ord.put (by omega) carried (fun e₀ d₀ h₀ => ?_), dis.put symm fresh _,
        ord.rooted_put (by omega) hslot, holds_put _ hslot⟩
      rw [hslot] at h₀
      cases h₀
    | some o =>
      obtain ⟨e₀, d₀⟩ := o
      obtain ⟨hd₀, hhome⟩ := ord.distance _ _ _ hslot
      -- the slot read now is not the empty one, which is still ahead
      obtain ⟨j, hj, hfree⟩ : ∃ j < n, t (home e + d + 1 + j) = none := by
        obtain ⟨j, hj, hfree⟩ := hempty
        cases j with
        | zero =>
          rw [Nat.cast_zero, add_zero, hslot] at hfree
          cases hfree
        | succ j =>
          rw [path_rest] at hfree
          exact ⟨j, by omega, hfree⟩
      have hne₀ : same e₀ e = false := fresh _ _ _ hslot
      by_cases hlt : d₀ < d
      · obtain ⟨t', hrun, ord', dis', root, holds⟩ := ih
          (ord.displace (by omega) carried hslot hlt)
          (dis.put symm fresh _) (fresh.displace dis symm hslot)
          (Carried.displace ord hslot hlt) (by omega) ⟨j, hj, by
            have hpos : home e₀ + ((d₀ + 1 : Nat) : ZMod cap) + j = home e + d + 1 + j := by
              rw [path_succ, hhome]
            rw [hpos, Function.update_of_ne (fun he => by
              rw [he, hslot] at hfree
              cases hfree), hfree]⟩
        refine ⟨t', ?_, ord', dis', root, fun x => ?_⟩
        · simp only [place, hslot, hlt, if_true, symm e e₀, hne₀, Bool.false_eq_true,
            if_false, hrun]
        · rw [holds, holds_displace hslot]
      · obtain ⟨t', hrun, rest⟩ := ih ord dis fresh (Carried.pass hslot (by omega))
          (by omega) ⟨j, hj, by
            rw [path_succ]
            exact hfree⟩
        refine ⟨t', ?_, rest⟩
        simp only [place, hslot, hlt, if_false, hne₀, Bool.false_eq_true, hrun]

/-- An absent entry among full slots goes round; the slots that are not met stay. -/
theorem place_full {n : Nat} (symm : ∀ x y, same x y = same y x) (ord : Ordered home t)
    (dis : Distinct same t) (fresh : Fresh same t e) (carried : Carried home t e d)
    (hbound : d + n ≤ cap) (hfull : ∀ p, t p ≠ none) :
    ∃ t', place home same n t e d = (.full, t') ∧ Ordered home t' ∧ Distinct same t' ∧
      (∀ p, (∀ j < n, p ≠ home e + d + j) → t' p = t p) ∧
      ∀ x, Holds t' x → Holds t x ∨ x = e := by
  induction n generalizing t e d with
  | zero => exact ⟨t, rfl, ord, dis, fun _ _ => rfl, fun _ => Or.inl⟩
  | succ n ih =>
    obtain ⟨⟨e₀, d₀⟩, hslot⟩ := Option.ne_none_iff_exists'.mp (hfull (home e + d))
    obtain ⟨hd₀, hhome⟩ := ord.distance _ _ _ hslot
    have hne₀ : same e₀ e = false := fresh _ _ _ hslot
    have hfirst : ∀ p, (∀ j < n + 1, p ≠ home e + d + j) → p ≠ home e + d := by
      intro p hp
      have h₀ := hp 0 (Nat.succ_pos n)
      rwa [Nat.cast_zero, add_zero] at h₀
    by_cases hlt : d₀ < d
    · obtain ⟨s, hs⟩ : ∃ s, s = Function.update t (home e + d) (some (e, d)) := ⟨_, rfl⟩
      have ord' : Ordered home s := by
        rw [hs]
        exact ord.displace (by omega) carried hslot hlt
      have hfull' : ∀ p, s p ≠ none := by
        intro p
        rw [hs]
        exact update_some_ne_none (hfull p) _ _
      obtain ⟨t', hrun, ord', dis', hframe, holds⟩ := ih ord' (hs ▸ dis.put symm fresh _)
        (hs ▸ fresh.displace dis symm hslot) (hs ▸ Carried.displace ord hslot hlt) (by omega) hfull'
      refine ⟨t', ?_, ord', dis', fun p hp => ?_, fun x hx => ?_⟩
      · simp only [place, hslot, hlt, if_true, symm e e₀, hne₀, Bool.false_eq_true,
          if_false, ← hs, hrun]
      · rw [hframe p fun j hj => ?_, hs, Function.update_of_ne (hfirst p hp)]
        have hpos : home e₀ + ((d₀ + 1 : Nat) : ZMod cap) + j =
            home e + d + ((j + 1 : Nat) : ZMod cap) := by
          rw [path_succ, hhome, path_rest]
        rw [hpos]
        exact hp (j + 1) (by omega)
      · have hx' : Holds s x ∨ x = e₀ := holds x hx
        rw [hs] at hx'
        exact (holds_displace hslot x).mp hx'
    · obtain ⟨t', hrun, ord', dis', hframe, holds⟩ := ih ord dis fresh
        (Carried.pass hslot (by omega)) (by omega) hfull
      refine ⟨t', ?_, ord', dis', fun p hp => hframe p fun j hj => ?_, holds⟩
      · simp only [place, hslot, hlt, if_false, hne₀, Bool.false_eq_true, hrun]
      · have hpos : home e + ((d + 1 : Nat) : ZMod cap) + j =
            home e + d + ((j + 1 : Nat) : ZMod cap) := by
          rw [path_succ, path_rest]
        rw [hpos]
        exact hp (j + 1) (by omega)

/-- An entry that starts at a root leaves that root where it is. -/
theorem place_full_rooted (symm : ∀ x y, same x y = same y x) (ord : Ordered home t)
    (dis : Distinct same t) (fresh : Fresh same t e) (hfull : ∀ p, t p ≠ none)
    (hroot : t (home e) = some (e₀, 0)) :
    ∃ t', place home same cap t e 0 = (.full, t') ∧ Ordered home t' ∧ Distinct same t' ∧
      Rooted t' ∧ ∀ x, Holds t' x → Holds t x ∨ x = e := by
  have hcap := (ord.distance _ _ _ hroot).1
  obtain ⟨n, rfl⟩ : ∃ n, cap = n + 1 := ⟨cap - 1, by omega⟩
  have hslot : t (home e + ((0 : Nat) : ZMod (n + 1))) = some (e₀, 0) := by
    rw [Nat.cast_zero, add_zero]
    exact hroot
  obtain ⟨t', hrun, ord', dis', hframe, holds⟩ := place_full (n := n) symm ord dis fresh
    (Carried.pass hslot le_rfl) (by omega) hfull
  refine ⟨t', ?_, ord', dis', ⟨home e, fun x c hx => ?_⟩, holds⟩
  · simp only [place, hslot, lt_irrefl, if_false, fresh _ _ _ hroot, Bool.false_eq_true, hrun]
  · rw [hframe _ fun j hj heq => ?_, hroot] at hx
    · exact (Prod.mk.inj (Option.some.inj hx)).2.symm
    · have hzero : ((0 : Nat) : ZMod (n + 1)) = ((0 + 1 + j : Nat) : ZMod (n + 1)) := by
        have hsum : home e + ((0 : Nat) : ZMod (n + 1)) =
            home e + ((0 + 1 + j : Nat) : ZMod (n + 1)) := by
          rw [Nat.cast_zero, add_zero, Nat.cast_add, ← add_assoc]
          exact heq
        exact add_left_cancel hsum
      have := cast_inj (Nat.succ_pos n) (by omega) hzero
      omega

/-- An entry that is there is met before anything is displaced. -/
theorem place_duplicate {n i : Nat} (ord : Ordered home t) (dis : Distinct same t)
    (trans : ∀ x y z, same x y = true → same z y = true → same x z = true)
    (h : t (home e + d) = some (e₀, d)) (hsame : same e₀ e = true) (hi : i ≤ d)
    (hn : d < i + n) : place home same n t e i = (.duplicate, t) := by
  have hd : d < cap := (ord.distance _ _ _ h).1
  induction n generalizing i with
  | zero => omega
  | succ n ih =>
    obtain ⟨x, c, hx, hc⟩ := ord.path h le_rfl hi
    have hnot : ¬ c < i := by omega
    by_cases hlast : i = d
    · subst hlast
      rw [h] at hx
      obtain ⟨rfl, rfl⟩ := Prod.mk.inj (Option.some.inj hx)
      simp only [place, h, lt_irrefl, if_false, hsame, if_true]
    · have hne : same x e = false := by
        refine Bool.eq_false_iff.mpr fun hxe => hlast ?_
        exact offset_inj (by omega) hd (dis _ _ _ _ _ _ hx h (trans _ _ _ hxe hsame))
      simp only [place, hx, hnot, if_false, hne, Bool.false_eq_true]
      exact ih (by omega) (by omega)

end Insertion

section Searching

variable {home : E → ZMod cap} {same : E → E → Bool} {t : Table E cap} {e : E} {d : Nat}
  {test : E → Bool}

theorem search_missing {q : ZMod cap} {n i : Nat}
    (h : ∀ p e c, t p = some (e, c) → test e = false) : search test q t n i = none := by
  induction n generalizing i with
  | zero => rfl
  | succ n ih =>
    cases hslot : t (q + i) with
    | none => simp only [search, hslot]
    | some o =>
      obtain ⟨x, c⟩ := o
      simp only [search, hslot, h _ _ _ hslot, Bool.false_eq_true, if_false, ih, ite_self]

theorem search_found {q : ZMod cap} {n i : Nat} (ord : Ordered home t)
    (dis : Distinct same t) (h : t (q + d) = some (e, d)) (htest : test e = true)
    (honly : ∀ x, test x = true → same x e = true) (hi : i ≤ d) (hn : d < i + n) :
    search test q t n i = some d := by
  have hd : d < cap := (ord.distance _ _ _ h).1
  induction n generalizing i with
  | zero => omega
  | succ n ih =>
    obtain ⟨x, c, hx, hc⟩ := ord.path h le_rfl hi
    have hnot : ¬ c < i := by omega
    by_cases hlast : i = d
    · subst hlast
      rw [h] at hx
      obtain ⟨rfl, rfl⟩ := Prod.mk.inj (Option.some.inj hx)
      simp only [search, h, lt_irrefl, if_false, htest, if_true]
    · have hne : test x = false := by
        refine Bool.eq_false_iff.mpr fun hxt => hlast ?_
        exact offset_inj (by omega) hd (dis _ _ _ _ _ _ hx h (honly x hxt))
      simp only [search, hx, hnot, if_false, hne, Bool.false_eq_true]
      exact ih (by omega) (by omega)

end Searching

section Deletion

variable {home : E → ZMod cap} {same : E → E → Bool} {t : Table E cap} {e : E} {c : Nat}

/-- The entries outside the gap are distinct. -/
def DistinctBut (same : E → E → Bool) (h : ZMod cap) (t : Table E cap) : Prop :=
  Distinct same (Function.update t h none)

theorem Distinct.but (dis : Distinct same t) (h : ZMod cap) : DistinctBut same h t := by
  -- an entry outside the gap was there before
  have hold : ∀ p x k, Function.update t h none p = some (x, k) → t p = some (x, k) := by
    intro p x k hp
    by_cases hph : p = h
    · rw [hph, Function.update_self] at hp
      cases hp
    · rwa [Function.update_of_ne hph] at hp
  intro p q x k x' k' hp hq hsame
  exact dis p q x k x' k' (hold p x k hp) (hold q x' k' hq) hsame

theorem holds_of_gap {h : ZMod cap} {x : E} (hx : Holds (Function.update t h none) x) :
    Holds t x := by
  obtain ⟨p, k, hp⟩ := hx
  by_cases hph : p = h
  · rw [hph, Function.update_self] at hp
    cases hp
  · rw [Function.update_of_ne hph] at hp
    exact ⟨p, k, hp⟩

/-- With its slot emptied, an entry is gone and every other one stays. -/
theorem holds_clear (dis : Distinct same t) (hself : same e e = true) {p : ZMod cap} {d : Nat}
    (h : t p = some (e, d)) (x : E) :
    Holds (Function.update t p none) x ↔ Holds t x ∧ x ≠ e := by
  constructor
  · rintro ⟨q, k, hq⟩
    have hqp : q ≠ p := by
      rintro rfl
      rw [Function.update_self] at hq
      cases hq
    rw [Function.update_of_ne hqp] at hq
    refine ⟨⟨q, k, hq⟩, ?_⟩
    rintro rfl
    exact hqp (dis q p x k x d hq h hself)
  · rintro ⟨⟨q, k, hq⟩, hne⟩
    have hqp : q ≠ p := by
      rintro rfl
      rw [h] at hq
      exact hne (Prod.mk.inj (Option.some.inj hq)).1.symm
    exact ⟨q, k, by rw [Function.update_of_ne hqp, hq]⟩

theorem ne_succ_of_displaced (ord : Ordered home t) {h : ZMod cap}
    (hnext : t (h + 1) = some (e, c + 1)) : h + 1 ≠ h := by
  intro hs
  have hcap := cap_eq_one hs
  have hlt := (ord.distance _ _ _ hnext).1
  omega

/-- One shift keeps the order: the copy left at the next slot is farther than
the entry before it by one at most. -/
theorem Ordered.shift_back (ord : Ordered home t) {h : ZMod cap}
    (hnext : t (h + 1) = some (e, c + 1)) :
    Ordered home (Function.update t h (some (e, c))) := by
  obtain ⟨hcap, hhome⟩ := ord.distance _ _ _ hnext
  have hself : home e + c = h := by
    rw [path_succ] at hhome
    exact add_right_cancel hhome
  obtain ⟨e₀, c₀, hgap, hle⟩ := ord.descent _ _ _ hnext
  refine ⟨fun p x k hx => ?_, fun p x k hx => ?_⟩
  · by_cases hp : p = h
    · subst hp
      rw [Function.update_self] at hx
      obtain ⟨rfl, rfl⟩ := Prod.mk.inj (Option.some.inj hx)
      exact ⟨by omega, hself⟩
    · rw [Function.update_of_ne hp] at hx
      exact ord.distance p x k hx
  · by_cases hs : p + 1 = h
    · subst hs
      rw [Function.update_self] at hx
      obtain ⟨rfl, rfl⟩ := Prod.mk.inj (Option.some.inj hx)
      -- the entry that leaves the gap was at least as far
      obtain ⟨c₀, rfl⟩ : ∃ n, c₀ = n + 1 := ⟨c₀ - 1, by omega⟩
      obtain ⟨e', c', hp, hle'⟩ := ord.descent _ _ _ hgap
      by_cases hps : p = p + 1
      · exact ⟨e, k + 1, by rw [← hps, Function.update_self], by omega⟩
      · exact ⟨e', c', by rw [Function.update_of_ne hps, hp], by omega⟩
    · rw [Function.update_of_ne hs] at hx
      by_cases hp : p = h
      · subst hp
        rw [hnext] at hx
        obtain ⟨rfl, hk⟩ := Prod.mk.inj (Option.some.inj hx)
        exact ⟨e, c, Function.update_self _ _ _, by omega⟩
      · obtain ⟨e', c', hc, hle'⟩ := ord.descent p x k hx
        exact ⟨e', c', by rw [Function.update_of_ne hp, hc], hle'⟩

/-- What stands in a table behind an emptied slot stood there before. -/
theorem update_none_some {h p : ZMod cap} {x : E × Nat}
    (hx : Function.update t h none p = some x) : p ≠ h ∧ t p = some x := by
  have hp : p ≠ h := by
    rintro rfl
    rw [Function.update_self] at hx
    cases hx
  rw [Function.update_of_ne hp] at hx
  exact ⟨hp, hx⟩

theorem DistinctBut.shift_back {h : ZMod cap} (hne : h + 1 ≠ h)
    (dis : DistinctBut same h t) (hnext : t (h + 1) = some (e, c + 1)) :
    DistinctBut same (h + 1) (Function.update t h (some (e, c))) := by
  -- where an entry of the new table was before the shift
  have hback : ∀ p x k, Function.update (Function.update t h (some (e, c))) (h + 1) none p =
      some (x, k) → ∃ p' k', Function.update t h none p' = some (x, k') ∧
        p' = if p = h then h + 1 else p := by
    intro p x k hx
    obtain ⟨-, hx⟩ := update_none_some hx
    by_cases hp : p = h
    · subst hp
      rw [Function.update_self] at hx
      obtain ⟨rfl, rfl⟩ := Prod.mk.inj (Option.some.inj hx)
      exact ⟨p + 1, c + 1, by rw [Function.update_of_ne hne, hnext], by rw [if_pos rfl]⟩
    · rw [Function.update_of_ne hp] at hx
      exact ⟨p, k, by rw [Function.update_of_ne hp, hx], by rw [if_neg hp]⟩
  have hgap : ∀ p x k, Function.update (Function.update t h (some (e, c))) (h + 1) none p =
      some (x, k) → p ≠ h + 1 :=
    fun p x k hx => (update_none_some hx).1
  intro a b x k y k' hx hy hsame
  obtain ⟨a', ka, ha, ha'⟩ := hback a x k hx
  obtain ⟨b', kb, hb, hb'⟩ := hback b y k' hy
  have hab : a' = b' := dis a' b' x ka y kb ha hb hsame
  have ha₁ := hgap a x k hx
  have hb₁ := hgap b y k' hy
  rw [ha', hb'] at hab
  split at hab
  · next haeq =>
    split at hab
    · next hbeq => rw [haeq, hbeq]
    · exact absurd hab.symm hb₁
  · split at hab
    · exact absurd hab ha₁
    · exact hab

theorem holds_shift_back {h : ZMod cap} (hne : h + 1 ≠ h)
    (hnext : t (h + 1) = some (e, c + 1)) (x : E) :
    Holds (Function.update (Function.update t h (some (e, c))) (h + 1) none) x ↔
      Holds (Function.update t h none) x := by
  constructor
  · rintro ⟨p, k, hx⟩
    obtain ⟨-, hx⟩ := update_none_some hx
    by_cases hp : p = h
    · subst hp
      rw [Function.update_self] at hx
      obtain ⟨rfl, rfl⟩ := Prod.mk.inj (Option.some.inj hx)
      exact ⟨p + 1, c + 1, by rw [Function.update_of_ne hne, hnext]⟩
    · rw [Function.update_of_ne hp] at hx
      exact ⟨p, k, by rw [Function.update_of_ne hp, hx]⟩
  · rintro ⟨p, k, hx⟩
    obtain ⟨hp, hx⟩ := update_none_some hx
    by_cases hp₁ : p = h + 1
    · subst hp₁
      rw [hnext] at hx
      obtain ⟨rfl, rfl⟩ := Prod.mk.inj (Option.some.inj hx)
      exact ⟨h, c, by rw [Function.update_of_ne hne.symm, Function.update_self]⟩
    · exact ⟨p, k, by rw [Function.update_of_ne hp₁, Function.update_of_ne hp, hx]⟩

theorem Ordered.clear (ord : Ordered home t) {h : ZMod cap}
    (hend : ∀ e d, t (h + 1) = some (e, d) → d = 0) :
    Ordered home (Function.update t h none) := by
  refine ⟨fun p x k hx => ?_, fun p x k hx => ?_⟩
  · obtain ⟨-, hx⟩ := update_none_some hx
    exact ord.distance p x k hx
  · obtain ⟨-, hx₁⟩ := update_none_some hx
    obtain ⟨e', c', hc, hle⟩ := ord.descent p x k hx₁
    have hne : p ≠ h := by
      rintro rfl
      have := hend x (k + 1) hx₁
      omega
    exact ⟨e', c', by rw [Function.update_of_ne hne, hc], hle⟩

theorem rooted_clear (t : Table E cap) (h : ZMod cap) : Rooted (Function.update t h none) := by
  refine ⟨h, fun x k hx => ?_⟩
  rw [Function.update_self] at hx
  cases hx

/-- The shifts stop at a root ahead; the gap is then empty. -/
theorem shift_spec {n j : Nat} {h : ZMod cap} (ord : Ordered home t)
    (dis : DistinctBut same h t) (hj : 0 < j) (hn : j ≤ n)
    (root : ∀ e d, t (h + j) = some (e, d) → d = 0) :
    ∃ t', shift n t h = some t' ∧ Ordered home t' ∧ Distinct same t' ∧ Rooted t' ∧
      ∀ x, Holds t' x ↔ Holds (Function.update t h none) x := by
  induction n generalizing t h j with
  | zero => omega
  | succ n ih =>
    cases hnext : t (h + 1) with
    | none =>
      refine ⟨_, by simp only [shift, hnext], ord.clear fun x k hx => ?_, dis,
        rooted_clear t h, fun x => Iff.rfl⟩
      rw [hnext] at hx
      cases hx
    | some o =>
      obtain ⟨x, k⟩ := o
      cases k with
      | zero =>
        refine ⟨_, by simp only [shift, hnext], ord.clear fun y k hy => ?_, dis,
          rooted_clear t h, fun x => Iff.rfl⟩
        rw [hnext] at hy
        exact (Prod.mk.inj (Option.some.inj hy)).2.symm
      | succ k =>
        have hne := ne_succ_of_displaced ord hnext
        obtain ⟨j, rfl⟩ : ∃ m, j = m + 1 := ⟨j - 1, by omega⟩
        have hj' : 0 < j := by
          refine Nat.pos_of_ne_zero fun hj0 => ?_
          subst hj0
          have := root x (k + 1) (by simpa using hnext)
          omega
        rw [path_rest] at root
        -- a root at the gap itself passes to the entry that fills it
        have root' : ∀ y m, Function.update t h (some (x, k)) (h + 1 + j) = some (y, m) →
            m = 0 := by
          intro y m hy
          by_cases hwrap : h + 1 + (j : ZMod cap) = h
          · rw [hwrap, Function.update_self] at hy
            obtain ⟨-, rfl⟩ := Prod.mk.inj (Option.some.inj hy)
            obtain ⟨e₀, c₀, hgap, hle⟩ := ord.descent _ _ _ hnext
            rw [hwrap] at root
            have := root e₀ c₀ hgap
            omega
          · rw [Function.update_of_ne hwrap] at hy
            exact root y m hy
        obtain ⟨t', hrun, hord, hdis, hroot, holds⟩ := ih (ord.shift_back hnext)
          (dis.shift_back hne hnext) hj' (by omega) root'
        refine ⟨t', by simp only [shift, hnext, hrun], hord, hdis, hroot, fun y => ?_⟩
        rw [holds, holds_shift_back hne hnext]

/-- A root off the slot where a path starts is ahead of any entry on the path. -/
theorem root_ahead_of_ne [NeZero cap] (ord : Ordered home t) {p q : ZMod cap} {d : Nat}
    (hroot : ∀ e d, t p = some (e, d) → d = 0) (hp : p ≠ q) (h : t (q + d) = some (e, d)) :
    ∃ j, 0 < j ∧ d + j < cap ∧ ∀ x k, t (q + d + j) = some (x, k) → k = 0 := by
  obtain ⟨m, hm, rfl⟩ := exists_offset q p
  -- on the path to the entry only the first slot can be a root
  have hlt : d < m := by
    by_contra hle
    obtain ⟨x, k, hx, hk⟩ := ord.path h le_rfl (not_lt.mp hle)
    have hm0 : m = 0 := Nat.le_zero.mp (hroot x k hx ▸ hk)
    rw [hm0, Nat.cast_zero, add_zero] at hp
    exact hp rfl
  refine ⟨m - d, by omega, by omega, ?_⟩
  have hpos : q + (d : ZMod cap) + ((m - d : Nat) : ZMod cap) = q + m := by
    rw [Nat.cast_sub (le_of_lt hlt)]
    abel
  rw [hpos]
  exact hroot

/-- From any entry a root is ahead within the ring. -/
theorem root_ahead [NeZero cap] (ord : Ordered home t) (rooted : Rooted t) {q : ZMod cap}
    {d : Nat} (h : t (q + d) = some (e, d)) :
    ∃ j, 0 < j ∧ d + j ≤ cap ∧ ∀ x k, t (q + d + j) = some (x, k) → k = 0 := by
  obtain ⟨p, hroot⟩ := rooted
  have hd := (ord.distance _ _ _ h).1
  by_cases hp : p = q
  · refine ⟨cap - d, by omega, by omega, ?_⟩
    have hpos : q + (d : ZMod cap) + ((cap - d : Nat) : ZMod cap) = p := by
      rw [Nat.cast_sub (le_of_lt hd), ZMod.natCast_self, hp]
      abel
    rw [hpos]
    exact hroot
  · obtain ⟨j, hj, hlt, hahead⟩ := root_ahead_of_ne ord hroot hp h
    exact ⟨j, hj, hlt.le, hahead⟩

end Deletion

end ProbeTable
