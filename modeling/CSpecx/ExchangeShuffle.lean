import Mathlib.Data.List.Basic
import Mathlib.Data.List.Nodup
import Mathlib.Data.Set.Function

/-!
# Shuffles by exchanges

A list is shuffled from its end: the last place is exchanged with a chosen
place not behind it, then the place before. The choices decide the result, and
where no value repeats each arrangement has choices of its own.
-/

namespace ExchangeShuffle

universe u

variable {α : Type u} {xs ys : List α} {i j k : Nat} {js : List Nat}

def exchange (xs : List α) (i j : Nat) : List α :=
  match xs[i]?, xs[j]? with
  | some x, some y => (xs.set i y).set j x
  | _, _ => xs

/-- The places from `i` down to the first are exchanged with the chosen ones. -/
def shuffle : Nat → List Nat → List α → List α
  | i + 1, j :: js, xs => shuffle i js (exchange xs (i + 1) j)
  | _, _, xs => xs

/-- One choice for each place from `i` down, none behind it. -/
inductive Choices : Nat → List Nat → Prop where
  | done : Choices 0 []
  | next {i j : Nat} {js : List Nat} : j ≤ i + 1 → Choices i js → Choices (i + 1) (j :: js)

theorem exchange_of_lt (hi : i < xs.length) (hj : j < xs.length) :
    exchange xs i j = (xs.set i xs[j]).set j xs[i] := by
  rw [exchange, List.getElem?_eq_getElem hi, List.getElem?_eq_getElem hj]

theorem exchange_perm (xs : List α) (i j : Nat) : (exchange xs i j).Perm xs := by
  rw [exchange]
  split
  · next x y hx hy =>
    obtain ⟨hi, rfl⟩ := List.getElem?_eq_some_iff.mp hx
    obtain ⟨hj, rfl⟩ := List.getElem?_eq_some_iff.mp hy
    exact List.set_set_perm hi hj
  · exact .refl xs

theorem exchange_left (hi : i < xs.length) (hj : j < xs.length) :
    (exchange xs i j)[i]? = xs[j]? := by
  rw [exchange_of_lt hi hj]
  by_cases hij : i = j
  · subst hij
    rw [List.set_set, List.getElem?_set_self hi, List.getElem?_eq_getElem hi]
  · rw [List.getElem?_set_ne (Ne.symm hij), List.getElem?_set_self hi, List.getElem?_eq_getElem hj]

theorem exchange_elsewhere (hki : k ≠ i) (hkj : k ≠ j) : (exchange xs i j)[k]? = xs[k]? := by
  rw [exchange]
  split
  · rw [List.getElem?_set_ne hkj.symm, List.getElem?_set_ne hki.symm]
  · rfl

theorem shuffle_perm (i : Nat) (js : List Nat) (xs : List α) : (shuffle i js xs).Perm xs := by
  induction i generalizing js xs with
  | zero => exact .refl xs
  | succ i ih =>
    cases js with
    | nil => exact .refl xs
    | cons j js => exact (ih js _).trans (exchange_perm xs (i + 1) j)

/-- The places behind `i` are finished. -/
theorem shuffle_behind (choices : Choices i js) (xs : List α) (hk : i < k) :
    (shuffle i js xs)[k]? = xs[k]? := by
  induction choices generalizing xs with
  | done => rfl
  | next hj _ ih =>
    rw [shuffle, ih _ (by omega), exchange_elsewhere (by omega) (by omega)]

/-- The choice of the last place is where its value came from. -/
theorem shuffle_last (hi : i + 1 < xs.length) (hj : j ≤ i + 1) (choices : Choices i js) :
    (shuffle (i + 1) (j :: js) xs)[i + 1]? = xs[j]? := by
  rw [shuffle, shuffle_behind choices _ (Nat.lt_succ_self i), exchange_left hi (by omega)]

/-- Arrangements that agree from a place on are arrangements before it. -/
theorem take_perm {m : Nat} (hperm : ys.Perm xs) (hsame : ∀ k, m ≤ k → ys[k]? = xs[k]?) :
    (ys.take m).Perm (xs.take m) := by
  have hdrop : ys.drop m = xs.drop m := by
    refine List.ext_getElem? fun k => ?_
    rw [List.getElem?_drop, List.getElem?_drop]
    exact hsame (m + k) (Nat.le_add_right m k)
  rw [← List.take_append_drop m ys, ← List.take_append_drop m xs, hdrop] at hperm
  exact (List.perm_append_right_iff _).mp hperm

/-- The value at a place stood somewhere up to it. -/
theorem exists_source {m : Nat} (hperm : ys.Perm xs) (hm : m < xs.length)
    (hsame : ∀ k, m < k → ys[k]? = xs[k]?) : ∃ j ≤ m, xs[j]? = ys[m]? := by
  have htake := take_perm hperm (m := m + 1) fun k hk => hsame k hk
  have hlast : m < ys.length := by
    rw [hperm.length_eq]
    exact hm
  have hmem : ys[m] ∈ ys.take (m + 1) := List.mem_take_iff_getElem.mpr ⟨m, by omega, rfl⟩
  obtain ⟨j, hj, heq⟩ := List.mem_take_iff_getElem.mp (htake.mem_iff.mp hmem)
  refine ⟨j, by omega, ?_⟩
  rw [List.getElem?_eq_getElem (by omega), heq, List.getElem?_eq_getElem hlast]

/-- With at most the first place left there is nothing to choose. -/
theorem eq_of_behind_first (hperm : ys.Perm xs) (hsame : ∀ k, 0 < k → ys[k]? = xs[k]?) :
    ys = xs := by
  refine List.ext_getElem? fun k => ?_
  obtain rfl | hk := Nat.eq_zero_or_pos k
  · by_cases hlen : 0 < xs.length
    · obtain ⟨j, hj, heq⟩ := exists_source hperm hlen hsame
      obtain rfl := Nat.le_zero.mp hj
      exact heq.symm
    · have hlength := hperm.length_eq
      rw [List.getElem?_eq_none (by omega), List.getElem?_eq_none (by omega)]
  · exact hsame k hk

/-- The induction is on the place: its value tells the choice, and the exchange leaves
an arrangement of the places before. -/
theorem existsUnique_choices (hnodup : xs.Nodup) (hi : i ≤ xs.length - 1) (hperm : ys.Perm xs)
    (hsame : ∀ k, i < k → ys[k]? = xs[k]?) :
    ∃! js, Choices i js ∧ shuffle i js xs = ys := by
  induction i generalizing xs with
  | zero =>
    refine ⟨[], ⟨.done, (eq_of_behind_first hperm hsame).symm⟩, ?_⟩
    rintro js ⟨choices, -⟩
    cases choices
    rfl
  | succ i ih =>
    have hlast : i + 1 < xs.length := by omega
    obtain ⟨j, hj, hsource⟩ := exists_source hperm hlast hsame
    have hexchange := exchange_perm xs (i + 1) j
    have hsame' : ∀ k, i < k → ys[k]? = (exchange xs (i + 1) j)[k]? := by
      intro k hk
      by_cases hki : k = i + 1
      · rw [hki, exchange_left hlast (by omega), hsource]
      · rw [exchange_elsewhere hki (by omega), hsame k (by omega)]
    obtain ⟨js, ⟨choices, hresult⟩, hunique⟩ := ih (hexchange.nodup_iff.mpr hnodup)
      (by rw [hexchange.length_eq]; omega) (hperm.trans hexchange.symm) hsame'
    refine ⟨j :: js, ⟨.next hj choices, hresult⟩, ?_⟩
    rintro js' ⟨choices', hresult'⟩
    obtain _ | ⟨hj', rest'⟩ := choices'
    rename_i j' js'
    have htold : xs[j']? = xs[j]? := by
      rw [← shuffle_last hlast hj' rest', hresult', hsource]
    obtain rfl : j' = j := (List.getElem?_inj (by omega) hnodup).mp htold
    rw [hunique js' ⟨rest', hresult'⟩]

/-- Every arrangement comes from exactly one sequence of choices. -/
theorem shuffle_bijOn (hnodup : xs.Nodup) :
    Set.BijOn (fun js => shuffle (xs.length - 1) js xs) {js | Choices (xs.length - 1) js}
      {ys | ys.Perm xs} := by
  have hunique : ∀ ys, ys.Perm xs →
      ∃! js, Choices (xs.length - 1) js ∧ shuffle (xs.length - 1) js xs = ys := by
    intro ys hperm
    have hlength := hperm.length_eq
    refine existsUnique_choices hnodup le_rfl hperm fun k hk => ?_
    rw [List.getElem?_eq_none (by omega), List.getElem?_eq_none (by omega)]
  refine ⟨fun js _ => shuffle_perm _ js xs, ?_, ?_⟩
  · intro js choices js' choices' heq
    exact (hunique _ (shuffle_perm _ js' xs)).unique ⟨choices, heq⟩ ⟨choices', rfl⟩
  · intro ys hperm
    obtain ⟨js, ⟨choices, heq⟩, -⟩ := hunique ys hperm
    exact ⟨js, choices, heq⟩

end ExchangeShuffle
