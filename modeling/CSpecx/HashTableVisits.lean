import CSpecx.HashTableRuns

/-!
# Visiting the nodes of the hash table

`htable_foreach` reads the successor of a node before it hands the node to the
action, so an action may unlink or free the node it is given. What the action
does is a parameter: it may write to its context and to its node.
-/

namespace HashTable

open CExec LinkedChain

section Loops

variable {N X : Type} (action : N → HTable N × X → Outcome (HTable N × X))

/-- The inner loop of `htable_foreach`, with a bound on the chain. -/
def foreachChain : Nat → Option N → HTable N × X → Outcome (HTable N × X)
  | _, none, s => .ok s
  | 0, some _, _ => .error .fuel
  | fuel + 1, some cur, s => do
    let next := s.1.next cur
    let s ← action cur s
    foreachChain fuel next s

/-- The outer loop, with a bound. Each round reads `t->cap` anew. -/
def foreachTable (fuel : Nat) : Nat → Nat → HTable N × X → Outcome (HTable N × X)
  | 0, _, _ => .error .fuel
  | rounds + 1, i, s =>
    if i < s.1.cap then do
      let s ← foreachChain action fuel (s.1.table i) s
      foreachTable fuel rounds (u32 (i + 1)) s
    else .ok s

/-- `htable_foreach`. The latch is held throughout, so nothing else runs meanwhile. -/
def htableForeach (fuel rounds : Nat) (s : HTable N × X) : Outcome (HTable N × X) :=
  foreachTable action fuel rounds 0 s

end Loops

/-- The action changes the links of no node but its own, no bucket, and not their number. -/
def LeavesOthers {N X : Type} (action : N → HTable N × X → Outcome (HTable N × X)) : Prop :=
  ∀ n s s', action n s = .ok s' → s'.1.cap = s.1.cap ∧ s'.1.table = s.1.table ∧
    ∀ m, m ≠ n → s'.1.next m = s.1.next m

/-- The nodes bucket by bucket, most recent first. -/
def visits {N : Type} (t : HTable N) (stored : List N) : List N :=
  (List.range t.cap).flatMap (homed t stored)

section Visits

variable {N X : Type} {action : N → HTable N × X → Outcome (HTable N × X)} {s s' : HTable N × X}
  {t : HTable N} {stored l : List N} {start : Option N} {fuel : Nat} {chains : Nat → List N}

theorem foldlM_leaves (leaves : LeavesOthers action)
    (hrun : l.foldlM (fun s n => action n s) s = .ok s') :
    s'.1.cap = s.1.cap ∧ s'.1.table = s.1.table ∧ ∀ m, m ∉ l → s'.1.next m = s.1.next m := by
  induction l generalizing s with
  | nil =>
    obtain rfl := Except.ok.inj hrun
    exact ⟨rfl, rfl, fun _ _ => rfl⟩
  | cons n l ih =>
    rw [List.foldlM_cons] at hrun
    obtain ⟨s₁, haction, hrest⟩ := bind_eq_ok.mp hrun
    obtain ⟨hcap, htable, hnext⟩ := leaves n s s₁ haction
    obtain ⟨hcap', htable', hnext'⟩ := ih hrest
    refine ⟨hcap'.trans hcap, htable'.trans htable, fun m hm => ?_⟩
    rw [hnext' m fun h => hm (List.mem_cons_of_mem n h),
      hnext m fun h => hm (h ▸ List.mem_cons_self)]

/-- The loop takes the nodes of the chain as they were linked when it began. -/
theorem foreachChain_eq (leaves : LeavesOthers action) (hpath : Path s.1.next start l)
    (hnodup : l.Nodup) (hfuel : l.length ≤ fuel) :
    foreachChain action fuel start s = l.foldlM (fun s n => action n s) s := by
  induction l generalizing start fuel s with
  | nil =>
    obtain rfl : start = none := hpath
    cases fuel <;> rfl
  | cons n l ih =>
    obtain ⟨rfl, htail⟩ := hpath
    obtain ⟨hn, hl⟩ := List.nodup_cons.mp hnodup
    cases fuel with
    | zero => exact absurd hfuel (Nat.not_succ_le_zero _)
    | succ fuel =>
      rw [foreachChain, List.foldlM_cons]
      cases haction : action n s with
      | error e => rfl
      | ok s₁ =>
        obtain ⟨-, -, hnext⟩ := leaves n s s₁ haction
        have hpath' : Path s₁.1.next (s.1.next n) l :=
          (path_congr fun m hm => hnext m fun h => hn (h ▸ hm)).mpr htail
        exact ih hpath' hl (Nat.le_of_succ_le_succ hfuel)

/-- From bucket `i` on. -/
theorem foreachTable_eq {i cap rounds : Nat} (leaves : LeavesOthers action) (hcap : s.1.cap = cap)
    (hsmall : cap < 2 ^ 32) (hle : i ≤ cap) (hrounds : cap < i + rounds)
    (hpaths : ∀ j, i ≤ j → j < cap → Path s.1.next (s.1.table j) (chains j))
    (hnodup : ((List.range' i (cap - i)).flatMap chains).Nodup)
    (hfuel : ∀ j < cap, (chains j).length ≤ fuel) :
    foreachTable action fuel rounds i s =
      ((List.range' i (cap - i)).flatMap chains).foldlM (fun s n => action n s) s := by
  induction rounds generalizing i s with
  | zero => omega
  | succ rounds ih =>
    by_cases hi : i < cap
    · have hrest : cap - i = cap - (i + 1) + 1 := by omega
      rw [hrest, List.range'_succ, List.flatMap_cons] at hnodup ⊢
      obtain ⟨hfront, hback, hapart⟩ := List.nodup_append.mp hnodup
      rw [foreachTable, hcap, if_pos hi, u32_of_lt (by omega), List.foldlM_append,
        foreachChain_eq leaves (hpaths i le_rfl hi) hfront (hfuel i hi)]
      cases hchain : (chains i).foldlM (fun s n => action n s) s with
      | error e => rfl
      | ok s₁ =>
        obtain ⟨hcap₁, htable, hnext⟩ := foldlM_leaves leaves hchain
        refine ih (hcap₁.trans hcap) (by omega) (by omega) (fun j hij hj => ?_) hback
        rw [htable]
        refine (path_congr fun m hm => hnext m fun hm' => ?_).mpr (hpaths j (by omega) hj)
        have hlater : j ∈ List.range' (i + 1) (cap - (i + 1)) := by
          rw [List.mem_range'_1]
          omega
        exact hapart m hm' m (List.mem_flatMap.mpr ⟨j, hlater, hm⟩) rfl
    · have hnone : cap - i = 0 := by omega
      rw [foreachTable, hcap, if_neg hi, hnone]
      rfl

theorem visits_perm (hcap : 0 < t.cap) (hnodup : stored.Nodup) : (visits t stored).Perm stored := by
  have hhomed : ∀ i, ∀ n ∈ homed t stored i, t.hcode n % t.cap = i := fun i n hn =>
    of_decide_eq_true (List.mem_filter.mp hn).2
  have hvisits : (visits t stored).Nodup := by
    refine List.nodup_flatMap.mpr ⟨fun i _ => hnodup.filter _, ?_⟩
    refine List.nodup_range.pairwise_of_forall_ne ?_
    intro i _ j _ hne n hi hj
    exact hne ((hhomed i n hi).symm.trans (hhomed j n hj))
  refine (List.perm_ext_iff_of_nodup hvisits hnodup).mpr fun n => ?_
  constructor
  · intro hn
    obtain ⟨i, -, hi⟩ := List.mem_flatMap.mp hn
    exact (List.mem_filter.mp hi).1
  · intro hn
    exact List.mem_flatMap.mpr ⟨t.hcode n % t.cap, List.mem_range.mpr (Nat.mod_lt _ hcap),
      List.mem_filter.mpr ⟨hn, decide_eq_true rfl⟩⟩

/-- After any run the loop hands every stored node to the action exactly once, whatever the
action does to the node it is given. -/
theorem foreach_visits_stored [DecidableEq N] {cap rounds : Nat} {session : Session N}
    (reached : Reached cap session) (leaves : LeavesOthers action) (x : X)
    (hfuel : session.stored.length ≤ fuel) (hrounds : cap < rounds) :
    htableForeach action fuel rounds (session.t, x) =
        (visits session.t session.stored).foldlM (fun s n => action n s) (session.t, x) ∧
      (visits session.t session.stored).Perm session.stored := by
  have kept := reached.kept
  have hsmall : cap < 2 ^ 32 := by
    have hsize := reached.created.2
    omega
  have hperm := visits_perm kept.linked.cap kept.nodup
  have hall : (List.range' 0 (cap - 0)).flatMap (homed session.t session.stored) =
      visits session.t session.stored := by
    rw [visits, kept.cap, List.range_eq_range', Nat.sub_zero]
  refine ⟨?_, hperm⟩
  rw [htableForeach, foreachTable_eq leaves kept.cap hsmall (Nat.zero_le cap) (by omega)
    (fun j _ hj => kept.linked.path j (kept.cap.symm ▸ hj))
    (hall ▸ hperm.nodup_iff.mpr kept.nodup) fun j _ => length_homed_le.trans hfuel, hall]

/-- An action that clears the link of its node and notes it. -/
def release {N : Type} [DecidableEq N] (n : N) (s : HTable N × List N) :
    Outcome (HTable N × List N) :=
  .ok ({ s.1 with next := Function.update s.1.next n none }, n :: s.2)

theorem release_leavesOthers [DecidableEq N] : LeavesOthers (release (N := N)) := by
  intro n s s' hrun
  obtain rfl := Except.ok.inj hrun
  exact ⟨rfl, rfl, fun m hm => Function.update_of_ne hm _ _⟩

/-- Two nodes in one bucket, released. -/
theorem foreach_visits_stored_two : ∃ session : Session Nat, session.stored.length = 2 ∧
    htableForeach release 2 2 (session.t, []) =
      (visits session.t session.stored).foldlM (fun s n => release n s) (session.t, []) := by
  obtain ⟨session, reached, hlength, -⟩ := reached_of_length 2
  exact ⟨session, hlength,
    (foreach_visits_stored reached release_leavesOthers [] hlength.le (by decide)).1⟩

end Visits

end HashTable
