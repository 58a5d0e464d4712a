import CSpecx.Slices
import CSpecx.Strided
import Mathlib.Algebra.BigOperators.Group.List.Basic

/-!
# Strided selections of items

A sequence of cells that holds items of one size, each in one piece. What a
selection does to the cells of whole items it does to the items, and the
positions of a slice are such a selection.
-/

namespace Strided

open CellMemory

universe u

variable {α : Type u}

/-- All items have the size. -/
def Uniform (size : Nat) (items : List (List α)) : Prop := ∀ x ∈ items, x.length = size

namespace Selection

/-- The index of a selected item. -/
def Index (s : Selection) (k : Nat) : Prop := ∃ j < s.elems, s.start + j * s.step = k

/-- The cells picked are those of the selected items. -/
theorem picked_iff {s : Selection} {k p : Nat} (hlow : k * s.size ≤ p)
    (hhigh : p < (k + 1) * s.size) :
    s.Picked p ↔ s.Index k := by
  have hsize : 0 < s.size := by
    refine Nat.pos_of_ne_zero fun hzero => ?_
    rw [hzero, Nat.mul_zero] at hhigh
    exact Nat.not_lt_zero p hhigh
  constructor
  · rintro ⟨j, hj, hfrom, hto⟩
    refine ⟨j, hj, ?_⟩
    have hto : p < (s.start + j * s.step + 1) * s.size := by
      rw [Nat.succ_mul]
      exact hto
    have hle : k < s.start + j * s.step + 1 := Nat.lt_of_mul_lt_mul_right (lt_of_le_of_lt hlow hto)
    have hge : s.start + j * s.step < k + 1 :=
      Nat.lt_of_mul_lt_mul_right (lt_of_le_of_lt hfrom hhigh)
    omega
  · rintro ⟨j, hj, rfl⟩
    rw [Nat.succ_mul] at hhigh
    exact ⟨j, hj, hlow, hhigh⟩

/-- The cells of a selected item are ranked in one piece. -/
theorem load_rank (s : Selection) (j : Nat) (src : Nat → α) (hstep : 0 < s.step) :
    load (fun p => src (s.rank p)) ((s.start + j * s.step) * s.size) s.size =
      load src (j * s.size) s.size :=
  load_eq fun _ hi => congrArg src (rank_pos_add hstep hi)

end Selection

section Items

variable {items : List (List α)} {size o : Nat} {P Q : Nat → Prop} [DecidablePred P]
  [DecidablePred Q]

theorem Uniform.cons_iff {x : List α} :
    Uniform size (x :: items) ↔ x.length = size ∧ Uniform size items := List.forall_mem_cons

theorem Uniform.length_flatten (uniform : Uniform size items) :
    items.flatten.length = items.length * size := by
  rw [List.length_flatten, List.map_congr_left uniform, List.map_const', List.sum_replicate_nat]

theorem Uniform.lengths_take (uniform : Uniform size items) {i : Nat} (hi : i ≤ items.length) :
    ((items.map List.length).take i).sum = i * size := by
  rw [List.map_congr_left uniform, List.map_const', List.take_replicate,
    List.sum_replicate_nat, Nat.min_eq_left hi]

theorem Uniform.take_flatten (uniform : Uniform size items) {i : Nat} (hi : i ≤ items.length) :
    items.flatten.take (i * size) = (items.take i).flatten := by
  rw [← uniform.lengths_take hi, List.take_sum_flatten]

theorem Uniform.drop_flatten (uniform : Uniform size items) {i : Nat} (hi : i ≤ items.length) :
    items.flatten.drop (i * size) = (items.drop i).flatten := by
  rw [← uniform.lengths_take hi, List.drop_sum_flatten]

theorem Uniform.select (uniform : Uniform size items) : Uniform size (select Q o items) := by
  intro x hx
  obtain ⟨a, ha, rfl⟩ := List.mem_map.mp hx
  exact uniform _ (List.fst_mem_of_mem_zipIdx (List.mem_filter.mp ha).1)

/-- The cells of an item in a buffer that holds the items one behind the other. -/
theorem Uniform.load_item (uniform : Uniform size items) {j : Nat} (hj : j < items.length) (a : α) :
    load (fun p => items.flatten.getD p a) (j * size) size = items[j] := by
  have hsize : items[j].length = size := uniform _ (List.getElem_mem hj)
  have hdrop : items.flatten.drop (j * size) = items[j] ++ (items.drop (j + 1)).flatten := by
    rw [uniform.drop_flatten (Nat.le_of_lt hj), List.drop_eq_getElem_cons hj, List.flatten_cons]
  refine List.ext_getElem (length_load.trans hsize.symm) fun i hi hi' => ?_
  have hget : items.flatten[j * size + i]? = some items[j][i] := by
    rw [← List.getElem?_drop, hdrop, List.getElem?_append_left hi', List.getElem?_eq_getElem hi']
  rw [getElem_load, List.getD_eq_getElem?_getD, hget, Option.getD_some]

theorem Uniform.overlay {g : Nat → List α} (uniform : Uniform size items)
    (hg : ∀ k, Q k → (g k).length = size) : Uniform size (overlay Q g o items) := by
  intro x hx
  obtain ⟨a, ha, rfl⟩ := List.mem_map.mp hx
  by_cases hQ : Q a.2
  · rw [if_pos hQ]
    exact hg a.2 hQ
  · rw [if_neg hQ]
    exact uniform _ (List.fst_mem_of_mem_zipIdx ha)

/-- Cells picked item by item are the cells of the items picked. -/
theorem select_flatten (uniform : Uniform size items)
    (h : ∀ k p, k * size ≤ p → p < (k + 1) * size → (P p ↔ Q k)) :
    select P (o * size) items.flatten = (select Q o items).flatten := by
  induction items generalizing o with
  | nil => rfl
  | cons x items ih =>
    obtain ⟨hx, hrest⟩ := Uniform.cons_iff.mp uniform
    have hnext : o * size + x.length = (o + 1) * size := by rw [hx, Nat.succ_mul]
    have hsplit : select Q o ([x] ++ items) = select Q o [x] ++ select Q (o + 1) items :=
      select_append
    rw [List.singleton_append] at hsplit
    rw [List.flatten_cons, select_append, hnext, ih hrest, hsplit, List.flatten_append]
    congr 1
    by_cases hQ : Q o
    · have hone : select Q o [x] = [x] := by simp [select, hQ]
      rw [hone, List.flatten_singleton]
      exact select_all fun p hlow hhigh => (h o p hlow (hnext ▸ hhigh)).mpr hQ
    · have hone : select Q o [x] = [] := by simp [select, hQ]
      rw [hone, List.flatten_nil]
      exact select_none fun p hlow hhigh hP => hQ ((h o p hlow (hnext ▸ hhigh)).mp hP)

/-- Cells replaced item by item are the cells of the items replaced. -/
theorem overlay_flatten {f : Nat → α} {g : Nat → List α} (uniform : Uniform size items)
    (h : ∀ k p, k * size ≤ p → p < (k + 1) * size → (P p ↔ Q k))
    (hf : ∀ k, Q k → load f (k * size) size = g k) :
    overlay P f (o * size) items.flatten = (overlay Q g o items).flatten := by
  induction items generalizing o with
  | nil => rfl
  | cons x items ih =>
    obtain ⟨hx, hrest⟩ := Uniform.cons_iff.mp uniform
    have hnext : o * size + x.length = (o + 1) * size := by rw [hx, Nat.succ_mul]
    have hsplit : overlay Q g o ([x] ++ items) = overlay Q g o [x] ++ overlay Q g (o + 1) items :=
      overlay_append
    rw [List.singleton_append] at hsplit
    rw [List.flatten_cons, overlay_append, hnext, ih hrest, hsplit, List.flatten_append]
    congr 1
    by_cases hQ : Q o
    · have hone : overlay Q g o [x] = [g o] := by simp [overlay, hQ]
      rw [hone, List.flatten_singleton, ← hf o hQ]
      rw [overlay_all fun p hlow hhigh => (h o p hlow (hnext ▸ hhigh)).mpr hQ, hx]
    · have hone : overlay Q g o [x] = [x] := by simp [overlay, hQ]
      rw [hone, List.flatten_singleton]
      exact overlay_none fun p hlow hhigh hP => hQ ((h o p hlow (hnext ▸ hhigh)).mp hP)

end Items

end Strided

namespace Slices

open CellMemory Strided

universe u

variable {α : Type u}

namespace Slice

/-- `xs[s]`. -/
def get (s : Slice) (xs : List α) : List α := select (· ∈ s.indices xs.length) 0 xs

/-- What is left after `del xs[s]`. -/
def del (s : Slice) (xs : List α) : List α := select (· ∉ s.indices xs.length) 0 xs

/-- What `xs[s] = ys` leaves. -/
def set [Inhabited α] (s : Slice) (xs ys : List α) : List α :=
  overlay (· ∈ s.indices xs.length) (fun k => ys.getD ((s.indices xs.length).idxOf k) default) 0 xs

/-- The selection of the positions. -/
def selection (s : Slice) (n size : Nat) : Selection := ⟨s.lower n, s.step, s.count n, size⟩

variable {s : Slice} {n size : Nat}

theorem index_iff (hstep : 0 < s.step) {k : Nat} :
    (s.selection n size).Index k ↔ k ∈ s.indices n := (mem_indices hstep).symm

theorem idxOf_indices (hstep : 0 < s.step) {j : Nat} (hj : j < s.count n) :
    (s.indices n).idxOf (s.lower n + j * s.step) = j := by
  have hlength : j < (s.indices n).length := by rwa [length_indices hstep]
  have hget : (s.indices n)[j] = s.lower n + j * s.step := by
    simp [indices_eq hstep, progression]
  have hnodup : (s.indices n).Nodup := List.nodup_range.filter _
  rw [← hget, hnodup.idxOf_getElem j hlength]

/-- The item that an assignment to the slice puts at a position. -/
theorem getD_idxOf (hstep : 0 < s.step) {ys : List (List α)}
    (hlength : ys.length = (s.indices n).length)
    {j : Nat} (hj : j < s.count n) :
    ∃ h : j < ys.length,
      ys.getD ((s.indices n).idxOf (s.lower n + j * s.step)) default = ys[j] := by
  have hitem : j < ys.length := by rwa [hlength, length_indices hstep]
  refine ⟨hitem, ?_⟩
  rw [idxOf_indices hstep hj, List.getD_eq_getElem?_getD, List.getElem?_eq_getElem hitem,
    Option.getD_some]

theorem uniform_set {xs ys : List (List α)} (hstep : 0 < s.step) (uniform : Uniform size xs)
    (huniform : Uniform size ys) (hlength : ys.length = (s.indices xs.length).length) :
    Uniform size (s.set xs ys) := by
  refine uniform.overlay fun k hk => ?_
  obtain ⟨j, hj, rfl⟩ := (mem_indices hstep).mp hk
  obtain ⟨hitem, hget⟩ := getD_idxOf hstep hlength hj
  rw [hget]
  exact huniform _ (List.getElem_mem hitem)

/-- The last position lies inside. -/
theorem end_le (hstep : 0 < s.step) (hsome : s.indices n ≠ []) :
    s.lower n + s.count n * s.step ≤ n + s.step := by
  have hpos : 0 < s.count n := by
    rw [← length_indices hstep]
    exact List.length_pos_iff.mpr hsome
  have hlast := (lt_count_iff (n := n) (k := s.count n - 1) hstep).mp (by omega)
  have hupper := s.upper_le n
  have hmul : s.count n * s.step = (s.count n - 1) * s.step + s.step := by
    rw [← Nat.succ_mul, Nat.succ_eq_add_one, Nat.sub_add_cancel hpos]
  omega

theorem length_get (hstep : 0 < s.step) (xs : List α) : (s.get xs).length = s.count xs.length := by
  have hpositions : (s.get xs).length =
      (List.range xs.length).countP fun k => decide (k ∈ s.indices xs.length) := by
    rw [get, length_select, List.range_eq_range', ← List.zipIdx_map_snd, List.countP_map]
    rfl
  rw [hpositions, ← length_indices hstep, indices, ← List.countP_eq_length_filter]
  refine List.countP_congr fun k hk => ?_
  rw [decide_eq_true_iff, List.mem_filter]
  exact and_iff_right hk

end Slice

end Slices
