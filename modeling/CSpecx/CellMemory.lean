import Mathlib.Data.List.Basic
import Mathlib.Data.List.Range
import Mathlib.Tactic.Common

/-!
# Cells, ranges and ranges that wrap

A memory is a function from offsets to cells. `load` and `store` copy a range;
`ringLoad` and `RingStored` follow a range that continues at offset zero once
it reaches the capacity. Nothing here depends on what a cell holds.
-/

namespace CellMemory

universe u

variable {α : Type u} {m m' m'' : Nat → α} {cap o n k : Nat} {xs ys : List α}

def load (m : Nat → α) (o n : Nat) : List α := (List.range n).map fun i => m (o + i)

def store (m : Nat → α) (o : Nat) (xs : List α) : Nat → α :=
  fun i => if o ≤ i then xs.getD (i - o) (m i) else m i

@[simp] theorem length_load : (load m o n).length = n := by simp [load]

@[simp] theorem load_zero : load m o 0 = [] := rfl

theorem getElem_load {i : Nat} (h : i < (load m o n).length) :
    (load m o n)[i] = m (o + i) := by simp [load]

theorem load_add (m : Nat → α) (o a b : Nat) :
    load m o (a + b) = load m o a ++ load m (o + a) b := by
  simp [load, List.range_add, Function.comp_def, Nat.add_assoc]

theorem load_congr (h : ∀ i, o ≤ i → i < o + n → m i = m' i) :
    load m o n = load m' o n := by
  apply List.map_congr_left
  intro i hi
  have := List.mem_range.mp hi
  exact h (o + i) (by omega) (by omega)

theorem load_eq {o' : Nat} (h : ∀ i < n, m (o + i) = m' (o' + i)) : load m o n = load m' o' n :=
  List.map_congr_left fun i hi => h i (List.mem_range.mp hi)

theorem take_load : (load m o n).take k = load m o (min k n) := by
  simp [load, ← List.map_take, List.take_range]

theorem drop_load : (load m o n).drop k = load m (o + k) (n - k) := by
  apply List.ext_getElem
  · simp
  · intro i h₁ h₂
    simp [load, Nat.add_assoc]

@[simp] theorem store_nil : store m o [] = m := by
  funext i
  simp [store]

theorem store_outside {i : Nat} (h : i < o ∨ o + xs.length ≤ i) : store m o xs i = m i := by
  unfold store
  split
  · simp [List.getD, List.getElem?_eq_none (show xs.length ≤ i - o by omega)]
  · rfl

theorem store_inside (h : k < xs.length) : store m o xs (o + k) = xs[k] := by
  simp [store, h]

theorem load_store : load (store m o xs) o xs.length = xs := by
  apply List.ext_getElem
  · simp
  · intro i h₁ h₂
    rw [getElem_load, store_inside h₂]

theorem load_store_of_length (h : xs.length = n) : load (store m o xs) o n = xs := by
  rw [← h, load_store]

theorem load_store_of_disjoint {o' : Nat} (h : o + n ≤ o' ∨ o' + xs.length ≤ o) :
    load (store m o' xs) o n = load m o n :=
  load_congr fun i hi hi' => store_outside (by omega)

theorem store_append : store (store m o xs) (o + xs.length) ys = store m o (xs ++ ys) := by
  funext i
  by_cases h₁ : i < o
  · rw [store_outside (Or.inl (by omega)), store_outside (Or.inl h₁),
      store_outside (Or.inl h₁)]
  · obtain ⟨d, rfl⟩ : ∃ d, i = o + d := ⟨i - o, by omega⟩
    by_cases h₂ : d < xs.length
    · rw [store_outside (Or.inl (by omega)), store_inside h₂,
        store_inside (by simp; omega), List.getElem_append_left h₂]
    · by_cases h₃ : d < (xs ++ ys).length
      · have hd : d - xs.length < ys.length := by simp at h₃; omega
        have he : o + d = o + xs.length + (d - xs.length) := by omega
        rw [store_inside h₃, List.getElem_append_right (by omega), he, store_inside hd]
      · have hd : xs.length + ys.length ≤ d := by simpa using h₃
        rw [store_outside (Or.inr (by omega)), store_outside (Or.inr (by omega)),
          store_outside (Or.inr (by simpa using hd))]

theorem store_append_of_length (h : xs.length = n) :
    store (store m o xs) (o + n) ys = store m o (xs ++ ys) := by
  rw [← h, store_append]

/-! ## Ranges that wrap at the capacity -/

/-- A sum that passes the capacity at most once. -/
theorem mod_once {a c : Nat} (h : a < 2 * c) : a % c = if a < c then a else a - c := by
  split
  · rename_i hlt
    exact Nat.mod_eq_of_lt hlt
  · rw [Nat.mod_eq_sub_mod (by omega), Nat.mod_eq_of_lt (by omega)]

def ringLoad (m : Nat → α) (cap o n : Nat) : List α :=
  (List.range n).map fun i => m ((o + i) % cap)

@[simp] theorem length_ringLoad : (ringLoad m cap o n).length = n := by simp [ringLoad]

@[simp] theorem ringLoad_zero : ringLoad m cap o 0 = [] := rfl

theorem getElem_ringLoad {i : Nat} (h : i < (ringLoad m cap o n).length) :
    (ringLoad m cap o n)[i] = m ((o + i) % cap) := by simp [ringLoad]

theorem ringLoad_mod : ringLoad m cap (o % cap) n = ringLoad m cap o n := by
  simp [ringLoad]

theorem ringLoad_add (m : Nat → α) (cap o a b : Nat) :
    ringLoad m cap o (a + b) = ringLoad m cap o a ++ ringLoad m cap (o + a) b := by
  simp [ringLoad, List.range_add, Function.comp_def, Nat.add_assoc]

theorem ringLoad_straight (h : o + n ≤ cap) : ringLoad m cap o n = load m o n := by
  apply List.map_congr_left
  intro i hi
  have := List.mem_range.mp hi
  rw [Nat.mod_eq_of_lt (by omega)]

theorem ringLoad_wrapped (ho : o ≤ cap) (h : cap ≤ o + n) (hn : n ≤ cap) :
    ringLoad m cap o n = load m o (cap - o) ++ load m 0 (n - (cap - o)) := by
  have hsplit := ringLoad_add m cap o (cap - o) (n - (cap - o))
  have he : cap - o + (n - (cap - o)) = n := by omega
  rw [he] at hsplit
  rw [hsplit, ringLoad_straight (by omega), show o + (cap - o) = cap by omega,
    ← ringLoad_mod (o := cap), Nat.mod_self, ringLoad_straight (by omega)]

theorem take_ringLoad : (ringLoad m cap o n).take k = ringLoad m cap o (min k n) := by
  simp [ringLoad, ← List.map_take, List.take_range]

theorem drop_ringLoad : (ringLoad m cap o n).drop k = ringLoad m cap (o + k) (n - k) := by
  apply List.ext_getElem
  · simp
  · intro i h₁ h₂
    simp [ringLoad, Nat.add_assoc]

/-- `m'` is `m` with `xs` written at `o`, continuing at zero past the capacity. -/
structure RingStored (m m' : Nat → α) (cap o : Nat) (xs : List α) : Prop where
  written : ∀ k (h : k < xs.length), m' ((o + k) % cap) = xs[k]
  kept : ∀ j, (∀ k, k < xs.length → j ≠ (o + k) % cap) → m' j = m j

theorem RingStored.refl (m : Nat → α) (cap o : Nat) : RingStored m m cap o [] :=
  ⟨fun k h => absurd h (Nat.not_lt_zero k), fun _ _ => rfl⟩

/-- Offsets less than one capacity apart are different cells. -/
theorem ring_offset_ne {a b : Nat} (hab : a < b) (hb : b < a + cap) : a % cap ≠ b % cap := by
  intro he
  have hd : cap ∣ b - a := Nat.dvd_of_mod_eq_zero (Nat.sub_mod_eq_zero_of_mod_eq he.symm)
  have := Nat.le_of_dvd (by omega) hd
  omega

theorem RingStored.append (hx : RingStored m m' cap o xs)
    (hy : RingStored m' m'' cap (o + xs.length) ys) (fits : xs.length + ys.length ≤ cap) :
    RingStored m m'' cap o (xs ++ ys) := by
  constructor
  · intro k hk
    rw [List.length_append] at hk
    by_cases hkx : k < xs.length
    · rw [List.getElem_append_left hkx, ← hx.written k hkx]
      apply hy.kept
      intro i hi
      exact ring_offset_ne (by omega) (by omega)
    · have he : o + k = o + xs.length + (k - xs.length) := by omega
      rw [List.getElem_append_right (by omega), he]
      exact hy.written _ (by omega)
  · intro j hj
    rw [hy.kept j, hx.kept j]
    · intro k hk
      exact hj k (by rw [List.length_append]; omega)
    · intro k hk
      have := hj (xs.length + k) (by rw [List.length_append]; omega)
      rwa [← Nat.add_assoc] at this

theorem RingStored.straight (h : o + xs.length ≤ cap) :
    RingStored m (store m o xs) cap o xs := by
  constructor
  · intro k hk
    rw [Nat.mod_eq_of_lt (by omega), store_inside hk]
  · intro j hj
    apply store_outside
    by_contra hin
    refine hj (j - o) (by omega) ?_
    rw [Nat.mod_eq_of_lt (by omega)]
    omega

theorem RingStored.mod (h : RingStored m m' cap (o % cap) xs) : RingStored m m' cap o xs := by
  constructor
  · intro k hk
    rw [← h.written k hk, Nat.mod_add_mod]
  · intro j hj
    apply h.kept
    intro k hk
    rw [Nat.mod_add_mod]
    exact hj k hk

/-- What is stored where decides the whole memory. -/
theorem RingStored.unique (h : RingStored m m' cap o xs) (h' : RingStored m m'' cap o xs) :
    m' = m'' := by
  funext j
  by_cases hj : ∃ k, k < xs.length ∧ j = (o + k) % cap
  · obtain ⟨k, hk, rfl⟩ := hj
    rw [h.written k hk, h'.written k hk]
  · have houtside : ∀ k, k < xs.length → j ≠ (o + k) % cap := fun k hk he => hj ⟨k, hk, he⟩
    rw [h.kept j houtside, h'.kept j houtside]

/-- The written range reads back. -/
theorem RingStored.ringLoad_self (h : RingStored m m' cap o xs) :
    ringLoad m' cap o xs.length = xs := by
  apply List.ext_getElem
  · simp
  · intro i h₁ h₂
    rw [getElem_ringLoad, h.written i h₂]

/-- A range that ends before the written one starts, seen round the ring, is kept. -/
theorem RingStored.ringLoad_before (h : RingStored m m' cap (o + n) xs)
    (fits : n + xs.length ≤ cap) : ringLoad m' cap o n = ringLoad m cap o n := by
  apply List.map_congr_left
  intro i hi
  have := List.mem_range.mp hi
  apply h.kept
  intro k hk
  exact ring_offset_ne (by omega) (by omega)

/-- A range that starts where the written one ends is kept. -/
theorem RingStored.ringLoad_after (h : RingStored m m' cap o xs)
    (fits : xs.length + n ≤ cap) :
    ringLoad m' cap (o + xs.length) n = ringLoad m cap (o + xs.length) n := by
  apply List.map_congr_left
  intro i hi
  have := List.mem_range.mp hi
  apply h.kept
  intro k hk
  exact (ring_offset_ne (by omega) (by omega)).symm

end CellMemory
