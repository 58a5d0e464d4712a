import CSpecx.EmptySelections

/-!
# Elements that the end of the data cuts

A count says which bytes an operation has changed. `ext_array_write` stops before
an element that does not fit. `block_array_write` and `block_array_remove` go
through such an element without counting it, and `ext_array_remove` takes the
rest of the data for a whole element.
-/

namespace ByteSequence

open CellMemory Strided

/-- An element begins inside the data and ends behind it. -/
def Cut (str : Stride) (size len : Nat) : Prop :=
  ∃ k < str.nelems, (str.selection size).pos k < len ∧ len < (str.selection size).pos k + size

/-- The source holds what stands in the part of such an element that is inside. -/
def Repeats (str : Stride) (size : Nat) (src : Nat → UInt8) (xs : List UInt8) : Prop :=
  ∀ k < str.nelems, xs.length < (str.selection size).pos k + size →
    ∀ p, (str.selection size).pos k ≤ p → p < xs.length →
      xs[p]? = some (src ((str.selection size).rank p))

/-- A write that returns `n`. -/
structure ChangesOnly (str : Stride) (size n : Nat) (xs ys : List UInt8) : Prop where
  length_eq : ys.length = xs.length
  outside : ∀ p, ¬ ((str.first n).selection size).Picked p → ys[p]? = xs[p]?

/-- A removal that returns `n`. -/
structure TakesOnly (str : Stride) (size n : Nat) (xs ys : List UInt8) : Prop where
  kept : ys = remaining (str.first n) size xs
  length_eq : ys.length + n * size = xs.length

section Counted

variable {str : Stride} {size p k : Nat} {src : Nat → UInt8} {xs : List UInt8}

theorem picked_first_iff :
    ((str.first (elements str size xs)).selection size).Picked p ↔
      ∃ k < str.nelems, (str.selection size).pos k + size ≤ xs.length ∧
        (str.selection size).pos k ≤ p ∧ p < (str.selection size).pos k + size := by
  constructor
  · rintro ⟨k, hk, hlow, hhigh⟩
    obtain ⟨hlt, hfits⟩ := Selection.lt_count_iff.mp hk
    exact ⟨k, hlt, hfits, hlow, hhigh⟩
  · rintro ⟨k, hlt, hfits, hlow, hhigh⟩
    exact ⟨k, Selection.lt_count_iff.mpr ⟨hlt, hfits⟩, hlow, hhigh⟩

theorem picked_of_first (h : ((str.first (elements str size xs)).selection size).Picked p) :
    (str.selection size).Picked p := by
  obtain ⟨k, hlt, -, hlow, hhigh⟩ := picked_first_iff.mp h
  exact ⟨k, hlt, hlow, hhigh⟩

/-- A cell of an element that is cut belongs to no counted one. -/
theorem not_picked_cut (hstep : 0 < str.stride)
    (hcut : xs.length < (str.selection size).pos k + size)
    (hlow : (str.selection size).pos k ≤ p) (hhigh : p < (str.selection size).pos k + size) :
    ¬ ((str.first (elements str size xs)).selection size).Picked p := by
  intro h
  obtain ⟨j, -, hfits, hlow', hhigh'⟩ := picked_first_iff.mp h
  have hjk : j = k :=
    Selection.pos_unique (s := str.selection size) hstep hlow' hhigh' hlow hhigh
  subst hjk
  omega

theorem overwritten_changesOnly_iff (range : Bounded str size) :
    ChangesOnly str size (elements str size xs) xs (overwritten str size src xs) ↔
      Repeats str size src xs := by
  constructor
  · intro changes k hk hcut p hlow hp
    have hhigh : p < (str.selection size).pos k + size := by omega
    have hsame := changes.outside p (not_picked_cut range.stride_pos hcut hlow hhigh)
    have hpick : (str.selection size).Picked p := ⟨k, hk, hlow, hhigh⟩
    rw [overwritten, getElem?_overlay hp, if_pos hpick] at hsame
    exact hsame.symm
  · intro repeats
    refine ⟨length_overlay, fun p hnot => ?_⟩
    by_cases hp : p < xs.length
    · rw [overwritten, getElem?_overlay hp]
      by_cases hpick : (str.selection size).Picked p
      · obtain ⟨k, hk, hlow, hhigh⟩ := hpick
        have hcut : xs.length < (str.selection size).pos k + size :=
          Nat.lt_of_not_le fun hfits => hnot (picked_first_iff.mpr ⟨k, hk, hfits, hlow, hhigh⟩)
        rw [if_pos ⟨k, hk, hlow, hhigh⟩]
        exact (repeats k hk hcut p hlow hp).symm
      · rw [if_neg hpick, List.getElem?_eq_getElem hp]
    · have hend : xs.length ≤ p := Nat.le_of_not_lt hp
      rw [List.getElem?_eq_none hend,
        List.getElem?_eq_none (by rw [overwritten, length_overlay]; exact hend)]

/-- Counted elements are whole. -/
theorem length_remaining_first (range : Bounded str size) :
    (remaining (str.first (elements str size xs)) size xs).length + elements str size xs * size =
      xs.length := by
  obtain ⟨n, hn⟩ : ∃ n, n = elements str size xs := ⟨_, rfl⟩
  rw [← hn]
  have inside : ∀ k < n, ((str.first n).selection size).pos k + size ≤ xs.length := fun k hk =>
    (Selection.lt_count_iff.mp (hn ▸ hk : k < elements str size xs)).2
  have hload : xs = load (fun i => xs.getD i 0) 0 xs.length := by
    apply List.ext_getElem
    · simp
    · intro i h₁ h₂
      simp [load, h₁]
  have hwhole := length_select_whole (s := (str.first n).selection size)
    (m := fun i => xs.getD i 0) range.stride_pos (le_refl n) inside
  have hall : select ((str.first n).selection size).Picked 0 xs =
      select ((str.first n).selection size).Picked 0
        (load (fun i => xs.getD i 0) 0 (min (((str.first n).selection size).pos n) xs.length)) := by
    have hnone := select_load_none (P := ((str.first n).selection size).Picked)
      (m := fun i => xs.getD i 0)
      (Nat.min_le_right (((str.first n).selection size).pos n) xs.length)
      fun p hp hlt => Selection.not_picked (k := n) (fun j hj => by
        have hend : ((str.first n).selection size).pos j + size ≤
          ((str.first n).selection size).pos n := Selection.end_le_pos range.stride_pos hj
        show ((str.first n).selection size).pos j + size ≤ p
        omega) (.inr (le_refl n))
    rw [← hload] at hnone
    exact hnone
  have hsplit : (select ((str.first n).selection size).Picked 0 xs).length +
      (remaining (str.first n) size xs).length = xs.length := length_select_add
  rw [hall, hwhole] at hsplit
  rw [Nat.add_comm]
  exact hsplit

theorem remaining_takesOnly_iff (range : Bounded str size) :
    TakesOnly str size (elements str size xs) xs (remaining str size xs) ↔
      ¬ Cut str size xs.length := by
  constructor
  · rintro takes ⟨k, hk, hinside, hcut⟩
    have hsize := range.size_pos
    have hnot := not_picked_cut (p := (str.selection size).pos k) range.stride_pos hcut (le_refl _)
      (by omega)
    have hshort : (remaining str size xs).length <
        (remaining (str.first (elements str size xs)) size xs).length :=
      length_select_lt (fun p _ hout hin => hout (picked_of_first hin)) hinside hnot
        fun hout => hout ⟨k, hk, le_refl _, by show _ < _ + size; omega⟩
    rw [← takes.kept] at hshort
    exact Nat.lt_irrefl _ hshort
  · intro whole
    have hsame : remaining str size xs = remaining (str.first (elements str size xs)) size xs := by
      refine select_congr fun p _ hp => not_congr ⟨?_, picked_of_first⟩
      rintro ⟨k, hk, hlow, hhigh⟩
      have hfits : (str.selection size).pos k + size ≤ xs.length :=
        Nat.le_of_not_lt fun hcut => whole ⟨k, hk, by omega, hcut⟩
      exact picked_first_iff.mpr ⟨k, hk, hfits, hlow, hhigh⟩
    refine ⟨hsame, ?_⟩
    rw [hsame]
    exact length_remaining_first range

theorem not_cut_of_divides (divides : size ∣ xs.length) :
    ¬ Cut str size xs.length := by
  rintro ⟨k, -, hinside, hcut⟩
  have := pos_whole divides hinside
  omega

end Counted

end ByteSequence

namespace ExtArrays

open CExec CellMemory Component Strided ByteSequence

variable {e e' : ExtArray} {xs : List UInt8} {str : Stride} {size n k m : Nat} {dest : Bool}
  {src : Nat → UInt8}

theorem Overwriting.changesOnly (written : Overwriting e str size src n e') :
    ChangesOnly str size n (contents e) (contents e') := by
  have hlen : (contents e').length = (contents e).length := by
    rw [contents, contents, length_load, length_load, written.len_eq]
  refine ⟨hlen, fun p hnot => ?_⟩
  by_cases hp : p < (contents e).length
  · have hp' : p < (contents e').length := hlen ▸ hp
    have hin : p < e.len := by rwa [contents, length_load] at hp
    have hkept : ¬ ((str.selection size).Picked p ∧ p < (str.selection size).pos n) := by
      rintro ⟨⟨k, hk, hlow, hhigh⟩, hbefore⟩
      have hkn : k < n := by
        refine Nat.lt_of_not_le fun hge => ?_
        have hmono : (str.selection size).pos n ≤ (str.selection size).pos k :=
          Selection.pos_mono hge
        omega
      exact hnot ⟨k, hkn, hlow, hhigh⟩
    have hcell := written.cells_eq p hin
    rw [if_neg hkept] at hcell
    rw [List.getElem?_eq_getElem hp, List.getElem?_eq_getElem hp']
    simp only [contents, getElem_load, Nat.zero_add, hcell]
  · have hend := Nat.le_of_not_lt hp
    rw [List.getElem?_eq_none hend, List.getElem?_eq_none (hlen ▸ hend)]

theorem moveDown_len {wpos rpos : Nat} (hrun : moveDown e wpos rpos size = .ok e') :
    e'.len = e.len := by
  by_cases hmove : wpos ≠ rpos
  · simp only [moveDown, if_pos hmove] at hrun
    obtain ⟨bytes, -, hstore⟩ := bind_eq_ok.mp hrun
    exact (storeBytes_eq_ok hstore).2.2.1
  · simp only [moveDown, if_neg hmove] at hrun
    obtain rfl := Except.ok.inj hrun
    rfl

/-- The sweep takes or keeps every element that begins inside the data. -/
theorem removeLoop_sum {s s' : Sweep} (hbefore : ∀ j < m, j * size < e.len)
    (hlast : e.len ≤ m * size) (hsmall : m * size < 2 ^ 32) (hsize : 0 < size) (hrpos : s.rpos ≤ m)
    (hsum : s.wpos + s.total = s.rpos)
    (hrun : removeLoop str size dest n e s = .ok (e', s')) : s'.wpos + s'.total = m := by
  have hm : m ≤ m * size := Nat.le_mul_of_pos_right _ hsize
  induction n generalizing e s with
  | zero => cases hrun
  | succ n ih =>
    have hle : s.rpos * size ≤ m * size := Nat.mul_le_mul_right size hrpos
    have hpos : u32 (s.rpos * size) = s.rpos * size := u32_of_lt (by omega)
    rw [removeLoop, hpos] at hrun
    by_cases hend : s.rpos = m
    · have hdone : ¬ s.rpos * size < e.len := by
        rw [hend]
        omega
      rw [if_neg hdone] at hrun
      obtain ⟨-, rfl⟩ := ok_pair_inj hrun
      exact hsum.trans hend
    · have hlt : s.rpos < m := by omega
      have hnext : u32 (s.rpos + 1) = s.rpos + 1 := u32_of_lt (by omega)
      rw [if_pos (hbefore s.rpos hlt)] at hrun
      by_cases htake : s.total < str.nelems ∧ s.rpos = s.nextRemove
      · rw [if_pos htake] at hrun
        obtain ⟨bytes, -, hrun⟩ := bind_eq_ok.mp hrun
        have htotal : u32 (s.total + 1) = s.total + 1 := u32_of_lt (by omega)
        rw [hnext, htotal] at hrun
        refine ih hbefore hlast ?_ ?_ hrun
        · exact hlt
        · show s.wpos + (s.total + 1) = s.rpos + 1
          omega
      · rw [if_neg htake] at hrun
        obtain ⟨e'', hmove, hrun⟩ := bind_eq_ok.mp hrun
        have hwpos : u32 (s.wpos + 1) = s.wpos + 1 := u32_of_lt (by omega)
        have hlen := moveDown_len hmove
        rw [hnext, hwpos] at hrun
        refine ih (hlen ▸ hbefore) (hlen ▸ hlast) ?_ ?_ hrun
        · exact hlt
        · show s.wpos + 1 + s.total = s.rpos + 1
          omega

/-- What is removed and what is left are whole elements. -/
theorem extArrayRemove_divides (rep : Represents e xs) (range : Bounded str size)
    {out : List UInt8} (hrun : extArrayRemove e str size dest = .ok (n, out, e')) :
    size ∣ e'.len + n * size := by
  obtain ⟨⟨q, s⟩, hloop, hrun⟩ := bind_eq_ok.mp hrun
  obtain ⟨rfl, -, rfl⟩ := ok_triple_inj hrun
  have hsize := range.size_pos
  have hsmall := rep.small
  have hfits : size < 2 ^ 32 := by
    have hend := range.end_le range.nelems_pos
    omega
  obtain ⟨m, hm⟩ : ∃ m, m = (e.len + (size - 1)) / size := ⟨_, rfl⟩
  have hdiv := Nat.div_add_mod (e.len + (size - 1)) size
  have hmod := Nat.mod_lt (e.len + (size - 1)) hsize
  rw [← hm, Nat.mul_comm] at hdiv
  have hbefore : ∀ j < m, j * size < e.len := by
    intro j hj
    have hmul : (j + 1) * size ≤ m * size := Nat.mul_le_mul_right size hj
    rw [Nat.succ_mul] at hmul
    omega
  have hbound : m * size < 2 ^ 32 := by
    by_cases hone : m ≤ 1
    · have hmul : m * size ≤ 1 * size := Nat.mul_le_mul_right size hone
      omega
    · have hmul := hbefore 1 (by omega)
      omega
  have hsum := removeLoop_sum hbefore (by omega) hbound hsize (Nat.zero_le m) rfl hloop
  have hle : s.wpos * size ≤ m * size := Nat.mul_le_mul_right size (by omega)
  refine ⟨m, ?_⟩
  show u32 (s.wpos * size) + s.total * size = size * m
  rw [u32_of_lt (by omega), ← Nat.add_mul, hsum, Nat.mul_comm]

theorem extArrayRemove_takesOnly_iff (rep : Represents e xs) (range : Bounded str size) :
    (∃ n out e', extArrayRemove e str size dest = .ok (n, out, e') ∧
      TakesOnly str size n (contents e) (contents e')) ↔ size ∣ e.len := by
  have hlen : (contents e).length = e.len := by rw [contents, length_load]
  constructor
  · rintro ⟨n, out, e', hrun, takes⟩
    have hdiv := extArrayRemove_divides rep range hrun
    have hsum := takes.length_eq
    rw [hlen, contents, length_load] at hsum
    rwa [hsum] at hdiv
  · intro divides
    obtain ⟨e', hrun, rep'⟩ := extArrayRemove_spec rep ⟨range, divides⟩ dest
    refine ⟨_, _, e', hrun, ?_⟩
    rw [rep'.contents_eq, rep.contents_eq]
    rw [rep.contents_eq] at hlen
    exact (remaining_takesOnly_iff range).mpr (not_cut_of_divides (hlen ▸ divides))

/-- An `ext_array` on its own; what is removed from is a whole number of elements. -/
def extRuns : Interface ExtArray Op Reply where
  pre e op := Allowed e.len op ∧ ∀ str size dest, op = .remove str size dest → size ∣ e.len
  step := step

theorem extRuns_keep : Preserves extRuns fun e => ∃ xs, Represents e xs := by
  rintro e op reply e' ⟨xs, rep⟩ ⟨allowed, divides⟩ hrun
  cases op with
  | insert ofst src grown =>
    obtain ⟨hofst, hsrc, hsmall⟩ := allowed
    rw [← rep.length] at hofst hsmall
    obtain ⟨e'', hok, rep'⟩ := extArrayInsert_spec rep grown hofst hsrc hsmall
    simp only [extRuns, step, hok, ok_bind] at hrun
    obtain ⟨-, rfl⟩ := ok_pair_inj hrun
    exact ⟨_, rep'⟩
  | read str size =>
    obtain ⟨⟨n, bytes⟩, -, hrun⟩ := bind_eq_ok.mp hrun
    obtain ⟨-, rfl⟩ := ok_pair_inj hrun
    exact ⟨xs, rep⟩
  | write str size src =>
    by_cases hnone : str.nelems = 0
    · simp only [extRuns, step, extArrayWrite_empty hnone, ok_bind] at hrun
      obtain ⟨-, rfl⟩ := ok_pair_inj hrun
      exact ⟨xs, rep⟩
    · have range : Bounded str size := allowed.bounded (Nat.pos_of_ne_zero hnone)
      obtain ⟨e'', hok, written⟩ := extArrayWrite_run rep range src
      simp only [extRuns, step, hok, ok_bind] at hrun
      obtain ⟨-, rfl⟩ := ok_pair_inj hrun
      exact ⟨_, written.represents rep⟩
  | remove str size dest =>
    have hdiv := divides str size dest rfl
    by_cases hnone : str.nelems = 0
    · have hlen : e.len < 2 ^ 32 := lt_trans rep.small (by decide)
      simp only [extRuns, step, extArrayRemove_empty hlen allowed.size_pos hdiv hnone, ok_bind]
        at hrun
      obtain ⟨-, rfl⟩ := ok_pair_inj hrun
      exact ⟨xs, rep⟩
    · have range : Bounded str size := allowed.bounded (Nat.pos_of_ne_zero hnone)
      obtain ⟨e'', hok, rep'⟩ := extArrayRemove_spec rep ⟨range, hdiv⟩ dest
      simp only [extRuns, step, hok, ok_bind] at hrun
      obtain ⟨-, rfl⟩ := ok_pair_inj hrun
      exact ⟨_, rep'⟩
  | getlen =>
    obtain ⟨-, rfl⟩ := ok_pair_inj hrun
    exact ⟨xs, rep⟩

end ExtArrays

namespace PartialElements

open CExec Component Strided ByteSequence BlockArrays ExtArrays

/-- When a count says exactly what was changed: in `block_array` an element must
not be cut, in `ext_array` a removal needs a whole number of elements. -/
theorem changes_counted_iff {A : Nat → Nat → BlockAllocator} {tail : Nat → UInt8}
    {blocks : Nat → BlockArrays.Block} {cap : Nat} {r₀ r : BlockArray (blocksOf A cap)}
    {e : ExtArray} {trace etrace : List (Op × Reply)} {str : Stride} {size : Nat} {xs : List UInt8}
    (init : blockArrayCreate A tail blocks cap = .ok r₀) (run : Trace (blockRuns _) r₀ trace r)
    (erun : Trace extRuns extArrayCreate etrace e) (range : Bounded str size)
    (src : Nat → UInt8) (dest : Bool) (hxs : BlockArrays.contents r = .ok xs) :
    ((∃ n r' ys, blockArrayWrite r str size src = .ok (n, r') ∧
        BlockArrays.contents r' = .ok ys ∧ ChangesOnly str size n xs ys) ↔
      Repeats str size src xs) ∧
    ((∃ n out r' ys, blockArrayRemove r str size dest = .ok (n, out, r') ∧
        BlockArrays.contents r' = .ok ys ∧ TakesOnly str size n xs ys) ↔
      ¬ Cut str size xs.length) ∧
    (∃ n e', extArrayWrite e str size src = .ok (n, e') ∧
      ChangesOnly str size n (ExtArrays.contents e) (ExtArrays.contents e')) ∧
    ((∃ n out e', extArrayRemove e str size dest = .ok (n, out, e') ∧
        TakesOnly str size n (ExtArrays.contents e) (ExtArrays.contents e')) ↔ size ∣ e.len) := by
  obtain ⟨ys, rep⟩ := blockRuns_represents init run
  obtain rfl := Except.ok.inj (hxs.symm.trans (contents_spec rep))
  obtain ⟨zs, erep⟩ := extRuns_keep.trace ⟨[], extArrayCreate_represents⟩ erun
  refine ⟨?_, ?_, ?_, extArrayRemove_takesOnly_iff erep range⟩
  · obtain ⟨r', hrun, rep'⟩ := blockArrayWrite_spec rep range src
    rw [← overwritten_changesOnly_iff range]
    constructor
    · rintro ⟨n, r'', ys, hrun', hys, changes⟩
      obtain ⟨rfl, rfl⟩ := ok_pair_inj (hrun.symm.trans hrun')
      obtain rfl := Except.ok.inj (hys.symm.trans (contents_spec rep'))
      exact changes
    · exact fun changes => ⟨_, r', _, hrun, contents_spec rep', changes⟩
  · obtain ⟨r', hrun, rep'⟩ := blockArrayRemove_spec rep range dest
    rw [← remaining_takesOnly_iff range]
    constructor
    · rintro ⟨n, out, r'', ys, hrun', hys, takes⟩
      obtain ⟨rfl, -, rfl⟩ := ok_triple_inj (hrun.symm.trans hrun')
      obtain rfl := Except.ok.inj (hys.symm.trans (contents_spec rep'))
      exact takes
    · exact fun takes => ⟨_, _, r', _, hrun, contents_spec rep', takes⟩
  · obtain ⟨e', hrun, written⟩ := extArrayWrite_run erep range src
    exact ⟨_, e', hrun, written.changesOnly⟩

/-- Two elements of two bytes: the blocks hold a fifth byte behind them, the other
array does not. -/
theorem two_elements_counted :
    ∃ r₀ r e, Trace (blockRuns (blocksOf SlabBlocks.stackedBlocks 2)) r₀
        [(.insert 0 [1, 2, 3, 4, 5] fun _ => 0, .inserted)] r ∧
      Trace extRuns extArrayCreate [(.insert 0 [1, 2, 3, 4] fun _ => 0, .inserted)] e ∧
      (∃ n r' ys, blockArrayWrite r ⟨0, 1, 2⟩ 2 (fun _ => 9) = .ok (n, r') ∧
        BlockArrays.contents r' = .ok ys ∧ ChangesOnly ⟨0, 1, 2⟩ 2 n [1, 2, 3, 4, 5] ys) ∧
      (∃ n out r' ys, blockArrayRemove r ⟨0, 1, 2⟩ 2 false = .ok (n, out, r') ∧
        BlockArrays.contents r' = .ok ys ∧ TakesOnly ⟨0, 1, 2⟩ 2 n [1, 2, 3, 4, 5] ys) ∧
      (∃ n e', extArrayWrite e ⟨0, 1, 2⟩ 2 (fun _ => 9) = .ok (n, e') ∧
        ChangesOnly ⟨0, 1, 2⟩ 2 n (ExtArrays.contents e) (ExtArrays.contents e')) ∧
      ∃ n out e', extArrayRemove e ⟨0, 1, 2⟩ 2 false = .ok (n, out, e') ∧
        TakesOnly ⟨0, 1, 2⟩ 2 n (ExtArrays.contents e) (ExtArrays.contents e') := by
  obtain ⟨r₀, r, init, -, run, rep⟩ :=
    EmptySelections.insert_reached (show 0 < 2 by decide) (by decide)
      (List.cons_ne_nil 1 [2, 3, 4, 5]) (show 5 < 2 ^ 31 by decide)
  have allowed : Allowed 0 (.insert 0 [1, 2, 3, 4] fun _ => 0) :=
    ⟨le_refl 0, List.cons_ne_nil _ _, by decide⟩
  obtain ⟨e, hlen, erun⟩ : ∃ e : ExtArray, e.len = 4 ∧ Trace extRuns extArrayCreate
      [(.insert 0 [1, 2, 3, 4] fun _ => 0, .inserted)] e :=
    ⟨_, rfl, .cons ⟨allowed, fun _ _ _ h => Op.noConfusion h⟩ rfl (.nil _)⟩
  have range : Bounded ⟨0, 1, 2⟩ 2 := ⟨by decide, by decide, by decide, by decide⟩
  obtain ⟨writes, removes, ewrites, eremoves⟩ := changes_counted_iff init run erun range
    (fun _ => 9) false (contents_spec rep)
  refine ⟨r₀, r, e, run, erun, writes.mpr ?_, removes.mpr ?_, ewrites, eremoves.mpr ?_⟩
  · intro k hk hcut
    have hk : k < 2 := hk
    have whole : ∀ k < 2, ¬ 5 < (Stride.selection ⟨0, 1, 2⟩ 2).pos k + 2 := by decide
    exact absurd hcut (whole k hk)
  · unfold Cut
    decide
  · rw [hlen]
    decide

/-- Both removals and the write to the blocks return 0 on three bytes and elements
of two, and all three change them. -/
theorem cut_elements_uncounted :
    (∃ r₀ r r' r'', EmptySelections.oneByteCreate = .ok r₀ ∧
      Trace (blockRuns EmptySelections.oneByteBlocks) r₀
        [(.insert 0 [1, 2, 3] fun _ => 0, .inserted)] r ∧
      blockArrayWrite r ⟨1, 1, 1⟩ 2 (fun _ => 9) = .ok (0, r') ∧
      BlockArrays.contents r' = .ok [1, 2, 9] ∧
      blockArrayRemove r ⟨1, 1, 1⟩ 2 false = .ok (0, [], r'') ∧
      BlockArrays.contents r'' = .ok [1, 2]) ∧
    ∃ e e', Trace extRuns extArrayCreate [(.insert 0 [1, 2, 3] fun _ => 0, .inserted)] e ∧
      extArrayRemove e ⟨2, 1, 1⟩ 2 false = .ok (0, [], e') ∧
      ExtArrays.contents e' = [1, 2, 3, 0] := by
  constructor
  · obtain ⟨r₀, r, init, -, run, rep⟩ :=
      EmptySelections.insert_reached Nat.one_pos (by decide) (List.cons_ne_nil 1 [2, 3])
        (show 3 < 2 ^ 31 by decide)
    have range : Bounded ⟨1, 1, 1⟩ 2 := ⟨by decide, by decide, by decide, by decide⟩
    obtain ⟨r', hwrite, rep'⟩ := blockArrayWrite_spec rep range fun _ => 9
    obtain ⟨r'', hremove, rep''⟩ := blockArrayRemove_spec rep range false
    exact ⟨r₀, r, r', r'', init, run, hwrite, (contents_spec rep').trans (congrArg _ (by decide)),
      hremove, (contents_spec rep'').trans (congrArg _ (by decide))⟩
  · have allowed : Allowed 0 (.insert 0 [1, 2, 3] fun _ => 0) :=
      ⟨le_refl 0, List.cons_ne_nil _ _, by decide⟩
    exact ⟨_, _, .cons ⟨allowed, fun _ _ _ h => Op.noConfusion h⟩ rfl (.nil _), rfl, by decide⟩

end PartialElements
