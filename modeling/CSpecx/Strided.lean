import CSpecx.CellMemory
import Mathlib.Tactic.Ring

/-!
# Strided selections of a sequence

A selection names elements of `size` cells each: the first at index `start`,
the next `step` indices further, `elems` of them. `select` and `overlay` walk a
sequence from a given position and pick or replace cells by position, so a
program that walks the sequence in pieces is followed piece by piece.
-/

namespace Strided

open CellMemory

universe u

variable {α : Type u}

structure Selection where
  start : Nat
  step : Nat
  elems : Nat
  size : Nat

namespace Selection

variable (s : Selection)

/-- Where element `k` begins. -/
def pos (k : Nat) : Nat := (s.start + k * s.step) * s.size

def Picked (p : Nat) : Prop := ∃ k < s.elems, s.pos k ≤ p ∧ p < s.pos k + s.size

instance : DecidablePred s.Picked := fun p =>
  inferInstanceAs (Decidable (∃ k < s.elems, s.pos k ≤ p ∧ p < s.pos k + s.size))

/-- The elements that lie inside a sequence of `len` cells. -/
def count (len : Nat) : Nat :=
  (List.range s.elems).countP fun k => decide (s.pos k + s.size ≤ len)

/-- The index of a picked cell among the picked cells. -/
def rank (p : Nat) : Nat :=
  (p - s.pos 0) / (s.step * s.size) * s.size + (p - s.pos 0) % (s.step * s.size)

variable {s} {j k p len : Nat}

theorem pos_add (k n : Nat) : s.pos (k + n) = s.pos k + n * s.step * s.size := by
  unfold pos
  ring

theorem pos_succ (k : Nat) : s.pos (k + 1) = s.pos k + s.step * s.size := by
  simpa using pos_add k 1

theorem pos_mono (h : j ≤ k) : s.pos j ≤ s.pos k := by
  obtain ⟨n, rfl⟩ := Nat.exists_eq_add_of_le h
  simpa only [pos_add] using Nat.le_add_right _ _

theorem size_le_step (hstep : 0 < s.step) : s.size ≤ s.step * s.size :=
  Nat.le_mul_of_pos_left _ hstep

theorem end_le_pos (hstep : 0 < s.step) (h : j < k) : s.pos j + s.size ≤ s.pos k := by
  have hnext : s.pos (j + 1) = s.pos j + s.step * s.size := pos_succ j
  have hsize := size_le_step hstep
  have hmono : s.pos (j + 1) ≤ s.pos k := pos_mono h
  omega

theorem Picked.intro (hk : k < s.elems) (h : s.pos k ≤ p) (h' : p < s.pos k + s.size) :
    s.Picked p := ⟨k, hk, h, h'⟩

/-- A cell behind the first `k` elements and before the next is not picked. -/
theorem not_picked (behind : ∀ j < k, s.pos j + s.size ≤ p)
    (before : p < s.pos k ∨ s.elems ≤ k) : ¬ s.Picked p := by
  rintro ⟨j, hj, hlow, hhigh⟩
  by_cases hjk : j < k
  · have := behind j hjk
    omega
  · have hmono : s.pos k ≤ s.pos j := pos_mono (by omega)
    omega

/-- The cells between two elements. -/
theorem not_picked_gap (h : s.pos k + s.size ≤ p)
    (h' : p < s.pos (k + 1)) : ¬ s.Picked p := by
  refine not_picked (k := k + 1) (fun j hj => ?_) (.inl h')
  have hmono : s.pos j ≤ s.pos k := pos_mono (Nat.le_of_lt_succ hj)
  omega

theorem count_eq (hk : k ≤ s.elems) (inside : ∀ j < k, s.pos j + s.size ≤ len)
    (outside : k < s.elems → len < s.pos k + s.size) : s.count len = k := by
  obtain ⟨n, hn⟩ := Nat.exists_eq_add_of_le hk
  have hfirst : (List.range k).countP (fun j => decide (s.pos j + s.size ≤ len)) = k := by
    have hall := (List.countP_eq_length (p := fun j => decide (s.pos j + s.size ≤ len))
      (l := List.range k)).mpr fun j hj => decide_eq_true (inside j (List.mem_range.mp hj))
    simpa only [List.length_range] using hall
  have hrest : ((List.range n).map (k + ·)).countP
      (fun j => decide (s.pos j + s.size ≤ len)) = 0 := by
    apply List.countP_eq_zero.mpr
    intro j hj
    obtain ⟨i, hi, rfl⟩ := List.mem_map.mp hj
    have hlen := outside (by have := List.mem_range.mp hi; omega)
    have hmono : s.pos k ≤ s.pos (k + i) := pos_mono (Nat.le_add_right k i)
    simp only [decide_eq_true_eq]
    omega
  rw [count, hn, List.range_add, List.countP_append, hfirst, hrest, Nat.add_zero]

/-- The counted elements are the first ones. -/
theorem count_whole (s : Selection) (len : Nat) :
    s.count len ≤ s.elems ∧ (∀ j < s.count len, s.pos j + s.size ≤ len) ∧
    (s.count len < s.elems → len < s.pos (s.count len) + s.size) := by
  have hstop : ∃ k, k ≤ s.elems ∧ (∀ j < k, s.pos j + s.size ≤ len) ∧
      (k < s.elems → len < s.pos k + s.size) := by
    obtain ⟨n, hn⟩ : ∃ n, n = s.elems := ⟨_, rfl⟩
    rw [← hn]
    clear hn
    induction n with
    | zero =>
      exact ⟨0, le_refl 0, fun j hj => absurd hj (Nat.not_lt_zero j),
        fun h => absurd h (Nat.lt_irrefl 0)⟩
    | succ n ih =>
      obtain ⟨k, hk, inside, outside⟩ := ih
      by_cases hlast : k = n ∧ s.pos n + s.size ≤ len
      · obtain ⟨rfl, hfits⟩ := hlast
        refine ⟨k + 1, le_refl _, fun j hj => ?_, fun h => absurd h (Nat.lt_irrefl _)⟩
        have hmono : s.pos j ≤ s.pos k := pos_mono (Nat.le_of_lt_succ hj)
        omega
      · refine ⟨k, Nat.le_succ_of_le hk, inside, fun h => ?_⟩
        by_cases hkn : k = n
        · subst hkn
          exact Nat.lt_of_not_le fun hfits => hlast ⟨rfl, hfits⟩
        · exact outside (by omega)
  obtain ⟨k, hk, inside, outside⟩ := hstop
  rw [count_eq hk inside outside]
  exact ⟨hk, inside, outside⟩

theorem lt_count_iff {k : Nat} : k < s.count len ↔ k < s.elems ∧ s.pos k + s.size ≤ len := by
  obtain ⟨hle, inside, outside⟩ := s.count_whole len
  constructor
  · exact fun hk => ⟨Nat.lt_of_lt_of_le hk hle, inside k hk⟩
  · rintro ⟨hk, hfits⟩
    refine Nat.lt_of_not_le fun hge => ?_
    have hend := outside (Nat.lt_of_le_of_lt hge hk)
    have hmono : s.pos (s.count len) ≤ s.pos k := pos_mono hge
    omega

/-- Elements do not overlap. -/
theorem pos_unique (hstep : 0 < s.step) {k : Nat} (hj : s.pos j ≤ p) (hj' : p < s.pos j + s.size)
    (hk : s.pos k ≤ p) (hk' : p < s.pos k + s.size) : j = k := by
  rcases Nat.lt_trichotomy j k with h | h | h
  · have := end_le_pos hstep h
    omega
  · exact h
  · have := end_le_pos hstep h
    omega

theorem rank_pos_add (hstep : 0 < s.step) (hj : j < s.size) :
    s.rank (s.pos k + j) = k * s.size + j := by
  have hlt : j < s.step * s.size := lt_of_lt_of_le hj (size_le_step hstep)
  have hdist : s.pos k + j - s.pos 0 = j + s.step * s.size * k := by
    have := pos_add (s := s) 0 k
    rw [Nat.zero_add] at this
    have hcomm : k * s.step * s.size = s.step * s.size * k := by ring
    omega
  have hpos : 0 < s.step * s.size := Nat.lt_of_le_of_lt (Nat.zero_le j) hlt
  rw [rank, hdist, Nat.add_mul_div_left _ _ hpos, Nat.add_mul_mod_self_left,
    Nat.div_eq_of_lt hlt, Nat.mod_eq_of_lt hlt, Nat.zero_add]

end Selection

/-! ## Cells by position -/

section Positions

variable (P : Nat → Prop) [DecidablePred P]

/-- The cells at positions of `P`, the sequence beginning at position `o`. -/
def select (o : Nat) (xs : List α) : List α :=
  ((xs.zipIdx o).filter fun a => decide (P a.2)).map Prod.fst

/-- The sequence with the cells at positions of `P` replaced. -/
def overlay (f : Nat → α) (o : Nat) (xs : List α) : List α :=
  (xs.zipIdx o).map fun a => if P a.2 then f a.2 else a.1

variable {P} {f : Nat → α} {o : Nat} {xs ys : List α}

@[simp] theorem select_nil : select P o ([] : List α) = [] := rfl

@[simp] theorem overlay_nil : overlay P f o ([] : List α) = [] := rfl

theorem select_append :
    select P o (xs ++ ys) = select P o xs ++ select P (o + xs.length) ys := by
  simp only [select, List.zipIdx_append, List.filter_append, List.map_append]

theorem overlay_append :
    overlay P f o (xs ++ ys) = overlay P f o xs ++ overlay P f (o + xs.length) ys := by
  simp only [overlay, List.zipIdx_append, List.map_append]

@[simp] theorem length_overlay : (overlay P f o xs).length = xs.length := by simp [overlay]

theorem select_take_add {k : Nat} (h : o ≤ xs.length) :
    select P 0 (xs.take (o + k)) =
      select P 0 (xs.take o) ++ select P o ((xs.drop o).take k) := by
  rw [List.take_add, select_append, List.length_take, Nat.min_eq_left h, Nat.zero_add]

theorem select_split (h : o ≤ xs.length) :
    select P 0 xs = select P 0 (xs.take o) ++ select P o (xs.drop o) := by
  have hall : select P 0 (xs.take o ++ xs.drop o) = _ := select_append
  rwa [List.take_append_drop, List.length_take, Nat.min_eq_left h, Nat.zero_add] at hall

theorem position_bounds {a : α × Nat} (h : a ∈ xs.zipIdx o) : o ≤ a.2 ∧ a.2 < o + xs.length :=
  ⟨List.le_snd_of_mem_zipIdx h, List.snd_lt_add_of_mem_zipIdx h⟩

theorem select_all (h : ∀ p, o ≤ p → p < o + xs.length → P p) : select P o xs = xs := by
  have hall : ∀ a ∈ xs.zipIdx o, decide (P a.2) = true := fun a ha =>
    decide_eq_true (h a.2 (position_bounds ha).1 (position_bounds ha).2)
  rw [select, List.filter_eq_self.mpr hall, List.zipIdx_map_fst]

theorem select_none (h : ∀ p, o ≤ p → p < o + xs.length → ¬ P p) : select P o xs = [] := by
  have hnone : ∀ a ∈ xs.zipIdx o, ¬ decide (P a.2) = true := fun a ha hp =>
    h a.2 (position_bounds ha).1 (position_bounds ha).2 (of_decide_eq_true hp)
  rw [select, List.filter_eq_nil_iff.mpr hnone, List.map_nil]

theorem overlay_none (h : ∀ p, o ≤ p → p < o + xs.length → ¬ P p) :
    overlay P f o xs = xs := by
  have hkeep : ∀ a ∈ xs.zipIdx o, (if P a.2 then f a.2 else a.1) = Prod.fst a := fun a ha =>
    if_neg (h a.2 (position_bounds ha).1 (position_bounds ha).2)
  rw [overlay, List.map_congr_left hkeep, List.zipIdx_map_fst]

theorem overlay_all (h : ∀ p, o ≤ p → p < o + xs.length → P p) :
    overlay P f o xs = load f o xs.length := by
  apply List.ext_getElem
  · simp
  · intro i h₁ h₂
    have hi : i < xs.length := by simpa using h₁
    simp [overlay, load, h (o + i) (by omega) (by omega)]

theorem getElem?_overlay {p : Nat} (hp : p < xs.length) :
    (overlay P f 0 xs)[p]? = some (if P p then f p else xs[p]) := by
  simp [overlay, hp]

theorem length_select : (select P o xs).length = (xs.zipIdx o).countP fun a => decide (P a.2) := by
  rw [select, List.length_map, List.countP_eq_length_filter]

/-- Every cell is picked or not. -/
theorem length_select_add :
    (select P o xs).length + (select (fun p => ¬ P p) o xs).length = xs.length := by
  have hsplit := List.length_eq_countP_add_countP (fun a : α × Nat => decide (P a.2))
    (l := xs.zipIdx o)
  rw [List.length_zipIdx] at hsplit
  simp only [length_select, hsplit, decide_not, decide_eq_true_eq]

/-- More cells are picked when one is picked that was not. -/
theorem length_select_lt {Q : Nat → Prop} [DecidablePred Q] (h : ∀ p < xs.length, P p → Q p)
    {p : Nat} (hp : p < xs.length) (hQ : Q p) (hP : ¬ P p) :
    (select P 0 xs).length < (select Q 0 xs).length := by
  have hle : ∀ (ys : List α) (o : Nat), o + ys.length ≤ xs.length →
      (select P o ys).length ≤ (select Q o ys).length := by
    intro ys o hlen
    rw [length_select, length_select]
    refine List.countP_mono_left fun a ha hdec => ?_
    have hbounds := position_bounds ha
    exact decide_eq_true (h a.2 (by omega) (of_decide_eq_true hdec))
  have hsplit : xs = xs.take p ++ xs[p] :: xs.drop (p + 1) := by
    rw [List.getElem_cons_drop, List.take_append_drop]
  have htake : (xs.take p).length = p := by rw [List.length_take, Nat.min_eq_left (le_of_lt hp)]
  have hone : ∀ (R : Nat → Prop) [DecidablePred R],
      (select R 0 xs).length = (select R 0 (xs.take p)).length +
        ((if R p then 1 else 0) + (select R (p + 1) (xs.drop (p + 1))).length) := by
    intro R _
    have hcons : xs[p] :: xs.drop (p + 1) = [xs[p]] ++ xs.drop (p + 1) := rfl
    have hsingle : (select R p [xs[p]]).length = if R p then 1 else 0 := by
      by_cases hR : R p
      · simp [select, hR]
      · simp [select, hR]
    have hall : (select R 0 xs).length =
        (select R 0 (xs.take p ++ xs[p] :: xs.drop (p + 1))).length :=
      congrArg (fun ys => (select R 0 ys).length) hsplit
    rw [hall, hcons, select_append, select_append, htake, Nat.zero_add, List.length_append,
      List.length_append, hsingle, List.length_singleton]
  have hbefore := hle (xs.take p) 0 (by rw [htake]; omega)
  have hbehind := hle (xs.drop (p + 1)) (p + 1) (by rw [List.length_drop]; omega)
  rw [hone P, hone Q, if_neg hP, if_pos hQ]
  omega

theorem select_congr {Q : Nat → Prop} [DecidablePred Q]
    (h : ∀ p, o ≤ p → p < o + xs.length → (P p ↔ Q p)) : select P o xs = select Q o xs := by
  unfold select
  refine congrArg _ (List.filter_congr fun a ha => ?_)
  have hbounds := position_bounds ha
  exact decide_eq_decide.mpr (h a.2 hbounds.1 hbounds.2)

/-- Going on over cells that are all picked. -/
theorem select_load_all {m : Nat → α} {a b : Nat} (hab : a ≤ b)
    (h : ∀ p, a ≤ p → p < b → P p) :
    select P 0 (load m 0 b) = select P 0 (load m 0 a) ++ load m a (b - a) := by
  obtain ⟨n, rfl⟩ := Nat.exists_eq_add_of_le hab
  have hnew : select P a (load m a n) = load m a n := select_all (by simpa using h)
  simpa only [load_add, select_append, length_load, Nat.zero_add, Nat.add_sub_cancel_left]
    using congrArg (select P 0 (load m 0 a) ++ ·) hnew

/-- Going on over cells of which none is picked. -/
theorem select_load_none {m : Nat → α} {a b : Nat} (hab : a ≤ b)
    (h : ∀ p, a ≤ p → p < b → ¬ P p) :
    select P 0 (load m 0 b) = select P 0 (load m 0 a) := by
  obtain ⟨n, rfl⟩ := Nat.exists_eq_add_of_le hab
  have hnew : select P a (load m a n) = [] := select_none (by simpa using h)
  simpa only [load_add, select_append, length_load, Nat.zero_add, List.append_nil]
    using congrArg (select P 0 (load m 0 a) ++ ·) hnew

/-- From one element to the next. -/
theorem select_element {s : Selection} {k len : Nat} {m : Nat → α} (hstep : 0 < s.step)
    (hk : k < s.elems) (inside : s.pos k + s.size ≤ len) :
    select s.Picked 0 (load m 0 (min (s.pos (k + 1)) len)) =
      select s.Picked 0 (load m 0 (s.pos k)) ++ load m (s.pos k) s.size := by
  have hnext : s.pos k + s.size ≤ s.pos (k + 1) := Selection.end_le_pos hstep (Nat.lt_succ_self k)
  have hgap : select s.Picked 0 (load m 0 (min (s.pos (k + 1)) len)) =
      select s.Picked 0 (load m 0 (s.pos k + s.size)) :=
    select_load_none (le_min hnext inside) fun p hp hlt =>
      Selection.not_picked_gap hp (lt_of_lt_of_le hlt (Nat.min_le_left _ _))
  have helement := select_load_all (m := m) (Nat.le_add_right (s.pos k) s.size)
    fun p hp hlt => Selection.Picked.intro hk hp hlt
  rw [hgap, helement, Nat.add_sub_cancel_left]

/-- Whole elements are as long as their cells. -/
theorem length_select_whole {s : Selection} {n len : Nat} {m : Nat → α} (hstep : 0 < s.step)
    (hn : n ≤ s.elems) (inside : ∀ k < n, s.pos k + s.size ≤ len) :
    (select s.Picked 0 (load m 0 (min (s.pos n) len))).length = n * s.size := by
  induction n with
  | zero =>
    have hnone : select s.Picked 0 (load m 0 (min (s.pos 0) len)) = [] := by
      refine select_none fun p _ hp => ?_
      rw [length_load, Nat.zero_add] at hp
      exact Selection.not_picked (k := 0) (fun j hj => absurd hj (Nat.not_lt_zero j))
        (.inl (lt_of_lt_of_le hp (Nat.min_le_left _ _)))
    rw [hnone, Nat.zero_mul]
    rfl
  | succ n ih =>
    have hlast := inside n (Nat.lt_succ_self n)
    have hbefore := ih (Nat.le_of_succ_le hn) fun k hk => inside k (Nat.lt_succ_of_lt hk)
    rw [Nat.min_eq_left (by omega)] at hbefore
    rw [select_element hstep hn hlast, List.length_append, hbefore, length_load, Nat.succ_mul]

theorem overlay_load {m m' : Nat → α} {n : Nat}
    (h : ∀ p < n, m' p = if P p then f p else m p) :
    load m' 0 n = overlay P f 0 (load m 0 n) := by
  apply List.ext_getElem
  · simp
  · intro i h₁ h₂
    have hi : i < n := by simpa using h₁
    simp [overlay, load, h i hi]

end Positions

end Strided
