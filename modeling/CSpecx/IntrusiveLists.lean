import CSpecx.Component
import CSpecx.LinkedChain
import Mathlib.Data.Fintype.Card

/-!
# Intrusive lists

`llist.h`: nodes carry their link, and a list is a variable that points to its
first node. Any number of lists share the nodes. The loops carry a bound, the
number of nodes.
-/

namespace IntrusiveLists

open CExec LinkedChain Component

/-- The list variables and the `next` field of every node. -/
structure Lists (H N : Type) where
  heads : H → Option N
  next : N → Option N

/-- `struct llnode **`. -/
inductive Link (H N : Type) where
  | head (h : H)
  | next (n : N)

section Operations

variable {H N : Type}

/-- `*link`. -/
def Lists.deref (s : Lists H N) : Link H N → Option N
  | .head h => s.heads h
  | .next n => s.next n

def lengthLoop (s : Lists H N) : Nat → Option N → Nat → Outcome Nat
  | _, none, len => .ok len
  | 0, some _, _ => .error .fuel
  | fuel + 1, some cur, len => lengthLoop s fuel (s.next cur) (u32 (len + 1))

def listLength (fuel : Nat) (s : Lists H N) (h : H) : Outcome Nat :=
  lengthLoop s fuel (s.heads h) 0

/-- The end of a list that is not empty. -/
def lastLoop (s : Lists H N) : Nat → N → Outcome N
  | 0, _ => .error .fuel
  | fuel + 1, cur =>
    match s.next cur with
    | none => .ok cur
    | some n => lastLoop s fuel n

def listPop [DecidableEq H] [DecidableEq N] (s : Lists H N) (h : H) : Option N × Lists H N :=
  match s.heads h with
  | none => (none, s)
  | some n =>
    let s := { s with heads := Function.update s.heads h (s.next n) }
    (some n, { s with next := Function.update s.next n none })

def findLoop (s : Lists H N) (eq : N → Bool) : Nat → Option N → Nat → Outcome (Option N × Nat)
  | _, none, didx => .ok (none, didx)
  | 0, some _, _ => .error .fuel
  | fuel + 1, some iter, didx =>
    if eq iter then .ok (some iter, didx) else findLoop s eq fuel (s.next iter) (u32 (didx + 1))

/-- `list_find` with its comparison applied to `node`: the node, and `*didx`. -/
def listFind (fuel : Nat) (s : Lists H N) (h : H) (eq : N → Bool) : Outcome (Option N × Nat) :=
  findLoop s eq fuel (s.heads h) 0

def getLoop (s : Lists H N) (index : Nat) : Nat → Option N → Nat → Outcome (Option N)
  | _, none, _ => .ok none
  | 0, some _, _ => .error .fuel
  | fuel + 1, some cur, i =>
    if i < index then getLoop s index fuel (s.next cur) (i + 1) else .ok (some cur)

def llnodeGetN (fuel : Nat) (s : Lists H N) (h : H) (index : Nat) : Outcome (Option N) :=
  getLoop s index fuel (s.heads h) 0

variable [DecidableEq N]

/-- The loop of `list_remove`. -/
def seekLoop (s : Lists H N) (n : N) : Nat → Link H N → Outcome (Link H N)
  | 0, _ => .error .fuel
  | fuel + 1, cur =>
    match s.deref cur with
    | none => .ok cur
    | some m => if m ≠ n then seekLoop s n fuel (.next m) else .ok cur

def Lists.setNext (s : Lists H N) (n : N) (p : Option N) : Lists H N :=
  { s with next := Function.update s.next n p }

def llnodeInit (s : Lists H N) (n : N) : Lists H N := s.setNext n none

variable [DecidableEq H]

def Lists.setHead (s : Lists H N) (h : H) (p : Option N) : Lists H N :=
  { s with heads := Function.update s.heads h p }

/-- `*link = p`. -/
def Lists.assign (s : Lists H N) (p : Option N) : Link H N → Lists H N
  | .head h => s.setHead h p
  | .next n => s.setNext n p

def listPush (s : Lists H N) (h : H) (n : N) : Lists H N :=
  (s.setNext n (s.heads h)).setHead h (some n)

def listAppend (fuel : Nat) (s : Lists H N) (h : H) (n : N) : Outcome (Lists H N) :=
  let s := s.setNext n none
  match s.heads h with
  | none => .ok (s.setHead h (some n))
  | some cur => do
    let cur ← lastLoop s fuel cur
    .ok (s.setNext cur (some n))

def listRemove (fuel : Nat) (s : Lists H N) (h : H) (n : N) : Outcome (Lists H N) := do
  let cur ← seekLoop s n fuel (.head h)
  match s.deref cur with
  | none => .ok s
  | some _ => .ok ((s.assign (s.next n) cur).setNext n none)

end Operations

/-- The lists read from their variables; no node is in two of them, or twice in one. -/
structure Holds {H N : Type} (s : Lists H N) (lists : H → List N) : Prop where
  path : ∀ h, Path s.next (s.heads h) (lists h)
  nodup : ∀ h, (lists h).Nodup
  apart : ∀ h h', h ≠ h' → ∀ n ∈ lists h, n ∉ lists h'

section Loops

variable {H N : Type} {s : Lists H N} {start : Option N} {l : List N} {fuel len : Nat} {n : N}
  {eq : N → Bool}

theorem lengthLoop_spec (hpath : Path s.next start l) (hfuel : l.length ≤ fuel)
    (hlen : len < 2 ^ 32) :
    lengthLoop s fuel start len = .ok (u32 (len + l.length)) := by
  induction l generalizing start fuel len with
  | nil =>
    obtain rfl : start = none := hpath
    cases fuel <;> simp [lengthLoop, u32_of_lt hlen]
  | cons a l ih =>
    obtain ⟨rfl, htail⟩ := hpath
    cases fuel with
    | zero => exact absurd hfuel (Nat.not_succ_le_zero _)
    | succ fuel =>
      rw [lengthLoop, ih htail (Nat.le_of_succ_le_succ hfuel) (u32_lt _), u32_add, List.length_cons]
      congr 2
      omega

theorem lastLoop_spec (hpath : Path s.next (some n) (n :: l)) (hfuel : l.length < fuel) :
    ∃ last, lastLoop s fuel n = .ok last ∧ (n :: l).getLast? = some last := by
  induction l generalizing n fuel with
  | nil =>
    obtain ⟨fuel, rfl⟩ : ∃ k, fuel = k + 1 := ⟨fuel - 1, by omega⟩
    obtain ⟨-, htail⟩ := hpath
    have hnext : s.next n = none := htail
    exact ⟨n, by simp [lastLoop, hnext], rfl⟩
  | cons a l ih =>
    obtain ⟨fuel, rfl⟩ : ∃ k, fuel = k + 1 := ⟨fuel - 1, by omega⟩
    obtain ⟨-, hnext, htail⟩ := hpath
    obtain ⟨last, hrun, hlast⟩ := ih ⟨rfl, htail⟩ (Nat.succ_lt_succ_iff.mp hfuel)
    refine ⟨last, by simp only [lastLoop, hnext, hrun], ?_⟩
    rwa [List.getLast?_cons_cons]

theorem findLoop_spec (eq : N → Bool) (hpath : Path s.next start l) (hfuel : l.length ≤ fuel)
    (hlen : len < 2 ^ 32) :
    findLoop s eq fuel start len = .ok (l.find? eq, u32 (len + l.findIdx eq)) := by
  induction l generalizing start fuel len with
  | nil =>
    obtain rfl : start = none := hpath
    cases fuel <;> simp [findLoop, u32_of_lt hlen]
  | cons a l ih =>
    obtain ⟨rfl, htail⟩ := hpath
    cases fuel with
    | zero => exact absurd hfuel (Nat.not_succ_le_zero _)
    | succ fuel =>
      cases heq : eq a with
      | true => simp [findLoop, heq, List.findIdx_cons, u32_of_lt hlen]
      | false =>
        simp only [findLoop, heq, Bool.false_eq_true, if_false]
        rw [ih htail (Nat.le_of_succ_le_succ hfuel) (u32_lt _), u32_add, List.find?_cons, heq,
          List.findIdx_cons, heq]
        simp only [cond_false]
        congr 3
        omega

theorem getLoop_spec {index i : Nat} (hpath : Path s.next start l) (hfuel : l.length ≤ fuel)
    (hi : i ≤ index) : getLoop s index fuel start i = .ok l[index - i]? := by
  induction l generalizing start fuel i with
  | nil =>
    obtain rfl : start = none := hpath
    cases fuel <;> simp [getLoop]
  | cons a l ih =>
    obtain ⟨rfl, htail⟩ := hpath
    cases fuel with
    | zero => exact absurd hfuel (Nat.not_succ_le_zero _)
    | succ fuel =>
      by_cases hlt : i < index
      · rw [getLoop, if_pos hlt, ih htail (Nat.le_of_succ_le_succ hfuel) hlt]
        have hsub : index - i = index - (i + 1) + 1 := by omega
        rw [hsub, List.getElem?_cons_succ]
      · rw [getLoop, if_neg hlt]
        have hsub : index - i = 0 := by omega
        rw [hsub, List.getElem?_cons_zero]

/-- Where the loop of `list_remove` stops: at the end, or in front of the node. -/
theorem seekLoop_spec [DecidableEq N] (n : N) (link : Link H N) (hderef : s.deref link = start)
    (hpath : Path s.next start l) (hfuel : l.length < fuel) :
    (n ∉ l ∧ ∃ link', seekLoop s n fuel link = .ok link' ∧ s.deref link' = none) ∨
      ∃ l₁ l₂, l = l₁ ++ n :: l₂ ∧ n ∉ l₁ ∧
        seekLoop s n fuel link = .ok (l₁.getLast?.elim link .next) := by
  induction l generalizing link start fuel with
  | nil =>
    obtain rfl : start = none := hpath
    obtain ⟨fuel, rfl⟩ : ∃ k, fuel = k + 1 := ⟨fuel - 1, by omega⟩
    exact Or.inl ⟨List.not_mem_nil, link, by simp [seekLoop, hderef], hderef⟩
  | cons a l ih =>
    obtain ⟨fuel, rfl⟩ : ∃ k, fuel = k + 1 := ⟨fuel - 1, by omega⟩
    obtain ⟨rfl, htail⟩ := hpath
    by_cases ha : a = n
    · subst ha
      exact Or.inr ⟨[], l, rfl, List.not_mem_nil, by simp [seekLoop, hderef]⟩
    · have hnext : s.deref (.next a : Link H N) = s.next a := rfl
      have hrun : seekLoop s n (fuel + 1) link = seekLoop s n fuel (.next a) := by
        simp only [seekLoop, hderef, ne_eq, ha, not_false_eq_true, if_true]
      rw [hrun]
      rcases ih (.next a) hnext htail (by simpa using hfuel) with
        ⟨hn, hend⟩ | ⟨l₁, l₂, rfl, hn, hfound⟩
      · exact Or.inl ⟨fun h => (List.mem_cons.mp h).elim (fun h => ha h.symm) hn, hend⟩
      · refine Or.inr ⟨a :: l₁, l₂, rfl,
          fun h => (List.mem_cons.mp h).elim (fun h => ha h.symm) hn, ?_⟩
        rw [hfound, List.getLast?_cons]
        cases l₁.getLast? <;> rfl

end Loops

section Changes

variable {H N : Type} [DecidableEq H] [DecidableEq N] {s s' : Lists H N}
  {lists : H → List N} {h : H}
  {n : N} {fuel : Nat} {l' : List N}

omit [DecidableEq N] in
/-- One list changes, and the nodes of the others keep their links. -/
theorem Holds.change (holds : Holds s lists) (hpath : Path s'.next (s'.heads h) l')
    (hnodup : l'.Nodup) (hheads : ∀ h', h' ≠ h → s'.heads h' = s.heads h')
    (hnext : ∀ h', h' ≠ h → ∀ m ∈ lists h', s'.next m = s.next m)
    (hfrom : ∀ m ∈ l', ∀ h', h' ≠ h → m ∉ lists h') : Holds s' (Function.update lists h l') := by
  refine ⟨fun h' => ?_, fun h' => ?_, fun h₁ h₂ hne m hm => ?_⟩
  · by_cases hh : h' = h
    · rw [hh, Function.update_self]
      exact hpath
    · rw [Function.update_of_ne hh, hheads h' hh]
      exact (path_congr (hnext h' hh)).mpr (holds.path h')
  · by_cases hh : h' = h
    · rw [hh, Function.update_self]
      exact hnodup
    · rw [Function.update_of_ne hh]
      exact holds.nodup h'
  · by_cases hh₁ : h₁ = h
    · have hh₂ : h₂ ≠ h := fun he => hne (hh₁.trans he.symm)
      rw [hh₁, Function.update_self] at hm
      rw [Function.update_of_ne hh₂]
      exact hfrom m hm h₂ hh₂
    · rw [Function.update_of_ne hh₁] at hm
      by_cases hh₂ : h₂ = h
      · rw [hh₂, Function.update_self]
        exact fun hm' => hfrom m hm' h₁ hh₁ hm
      · rw [Function.update_of_ne hh₂]
        exact holds.apart h₁ h₂ hne m hm

omit [DecidableEq H] in
theorem llnodeInit_holds (holds : Holds s lists) (hout : ∀ h, n ∉ lists h) :
    Holds (llnodeInit s n) lists := by
  refine ⟨fun h => (path_congr fun m hm => ?_).mpr (holds.path h), holds.nodup, holds.apart⟩
  exact Function.update_of_ne (fun he => hout h (by rw [← he]; exact hm)) _ _

theorem listPush_holds (holds : Holds s lists) (hout : ∀ h, n ∉ lists h) :
    Holds (listPush s h n) (Function.update lists h (n :: lists h)) := by
  have hkeep : ∀ h', ∀ m ∈ lists h', Function.update s.next n (s.heads h) m = s.next m := by
    intro h' m hm
    exact Function.update_of_ne (fun he => hout h' (by rw [← he]; exact hm)) _ _
  refine holds.change ?_ (List.nodup_cons.mpr ⟨hout h, holds.nodup h⟩)
    (fun h' hh => Function.update_of_ne hh _ _) (fun h' _ => hkeep h') fun m hm h' hh => ?_
  · refine ⟨Function.update_self .., ?_⟩
    show Path (Function.update s.next n (s.heads h))
      (Function.update s.next n (s.heads h) n) (lists h)
    rw [Function.update_self]
    exact (path_congr (hkeep h)).mpr (holds.path h)
  · rcases List.mem_cons.mp hm with rfl | hm
    · exact hout h'
    · exact holds.apart h h' (Ne.symm hh) m hm

theorem listAppend_holds (holds : Holds s lists) (hout : ∀ h, n ∉ lists h)
    (hfuel : (lists h).length ≤ fuel) :
    ∃ s', listAppend fuel s h n = .ok s' ∧ Holds s' (Function.update lists h (lists h ++ [n])) := by
  have hkeep : ∀ h', ∀ m ∈ lists h', Function.update s.next n none m = s.next m := by
    intro h' m hm
    exact Function.update_of_ne (fun he => hout h' (by rw [← he]; exact hm)) _ _
  have hpath : Path (s.setNext n none).next (s.heads h) (lists h) :=
    (path_congr (hkeep h)).mpr (holds.path h)
  have hfrom : ∀ m ∈ lists h ++ [n], ∀ h', h' ≠ h → m ∉ lists h' := by
    intro m hm h' hh
    rcases List.mem_append.mp hm with hm | hm
    · exact holds.apart h h' (Ne.symm hh) m hm
    · rw [List.mem_singleton.mp hm]
      exact hout h'
  have hnodup : (lists h ++ [n]).Nodup :=
    List.nodup_append.mpr ⟨holds.nodup h, List.pairwise_singleton _ n, fun m hm m' hm' he =>
      hout h (by rw [← List.mem_singleton.mp hm', ← he]; exact hm)⟩
  have hnext : Function.update s.next n none n = none := Function.update_self ..
  cases hlist : lists h with
  | nil =>
    have hhead : (s.setNext n none).heads h = none := by
      rw [hlist] at hpath
      exact hpath
    rw [hlist] at hfrom hnodup
    refine ⟨(s.setNext n none).setHead h (some n), by simp only [listAppend, hhead], ?_⟩
    refine holds.change ⟨Function.update_self .., ?_⟩ hnodup
      (fun h' hh => Function.update_of_ne hh _ _) (fun h' _ => hkeep h') hfrom
    exact hnext
  | cons a l =>
    rw [hlist] at hpath hfrom hnodup hfuel
    obtain ⟨last, hrun, hlast⟩ := lastLoop_spec (s := s.setNext n none) ⟨rfl, hpath.2⟩ hfuel
    have hmem : last ∈ lists h := by
      rw [hlist]
      exact List.mem_of_getLast? hlast
    have hhead : (s.setNext n none).heads h = some a := hpath.1
    refine ⟨(s.setNext n none).setNext last (some n),
      by simp only [listAppend, hhead, hrun, ok_bind], ?_⟩
    obtain ⟨init, hinit⟩ := List.getLast?_eq_some_iff.mp hlast
    have hne : n ≠ last := fun he => hout h (he ▸ hmem)
    rw [hinit] at hpath hnodup hfrom ⊢
    refine holds.change ?_ hnodup (fun _ _ => rfl) (fun h' hh m hm => ?_) hfrom
    · have hends := (part_none.mpr hpath).redirect (v := some n) (List.nodup_append.mp hnodup).1
      refine path_join hends ⟨rfl, ?_⟩
      show Function.update (Function.update s.next n none) last (some n) n = none
      rw [Function.update_of_ne hne]
      exact hnext
    · have hml : m ≠ last := by
        rintro rfl
        exact holds.apart h h' (Ne.symm hh) m hmem hm
      show Function.update (Function.update s.next n none) last (some n) m = s.next m
      rw [Function.update_of_ne hml]
      exact hkeep h' m hm

theorem listPop_holds (holds : Holds s lists) :
    (listPop s h).1 = (lists h).head? ∧
    Holds (listPop s h).2 (Function.update lists h (lists h).tail) := by
  cases hlist : lists h with
  | nil =>
    have hhead : s.heads h = none := by
      have hempty := holds.path h
      rw [hlist] at hempty
      exact hempty
    have hsame : Function.update lists h [] = lists := Function.update_eq_self_iff.mpr hlist.symm
    rw [listPop, hhead, List.tail_nil, hsame]
    exact ⟨rfl, holds⟩
  | cons a l =>
    have hpath := holds.path h
    have hnodup := holds.nodup h
    rw [hlist] at hpath hnodup
    obtain ⟨hhead, htail⟩ := hpath
    obtain ⟨ha, hl⟩ := List.nodup_cons.mp hnodup
    have hmem : a ∈ lists h := hlist ▸ List.mem_cons_self
    rw [listPop, hhead]
    refine ⟨rfl, holds.change ?_ hl (fun h' hh => Function.update_of_ne hh _ _)
      (fun h' hh m hm => ?_) fun m hm h' hh => ?_⟩
    · show Path (Function.update s.next a none) (Function.update s.heads h (s.next a) h) l
      rw [Function.update_self]
      refine (path_congr fun m hm => ?_).mpr htail
      exact Function.update_of_ne (fun he => ha (by rw [← he]; exact hm)) _ _
    · refine Function.update_of_ne (fun he => ?_) _ _
      subst he
      exact holds.apart h h' (Ne.symm hh) m hmem hm
    · exact holds.apart h h' (Ne.symm hh) m (hlist ▸ List.mem_cons_of_mem a hm)

/-- Writing to the link in front of a node takes the node out of its list. -/
theorem unlink_holds {l₁ l₂ : List N} (holds : Holds s lists) (hsplit : lists h = l₁ ++ n :: l₂) :
    Holds ((s.assign (s.next n) (l₁.getLast?.elim (.head h) .next)).setNext n none)
      (Function.update lists h (l₁ ++ l₂)) := by
  have hpath := holds.path h
  have hnodup := holds.nodup h
  rw [hsplit] at hpath hnodup
  obtain ⟨hpart, htail⟩ := path_append.mp hpath
  obtain ⟨hnodup₁, hnodup₂, hapart⟩ := List.nodup_append.mp hnodup
  obtain ⟨hn₂, hnodup₂⟩ := List.nodup_cons.mp hnodup₂
  have hn₁ : n ∉ l₁ := fun hn => hapart n hn n List.mem_cons_self rfl
  have hrest : (l₁ ++ l₂).Nodup := hnodup.sublist ((List.sublist_cons_self n l₂).append_left l₁)
  have hin : ∀ m ∈ l₁ ++ n :: l₂, ∀ h', h' ≠ h → m ∉ lists h' := fun m hm h' hh =>
    holds.apart h h' (Ne.symm hh) m (hsplit ▸ hm)
  have hfrom : ∀ m ∈ l₁ ++ l₂, ∀ h', h' ≠ h → m ∉ lists h' := fun m hm =>
    hin m (((List.sublist_cons_self n l₂).append_left l₁).subset hm)
  have hother : ∀ m, m ≠ n → ∀ f : N → Option N, Function.update f n none m = f m :=
    fun m hm f => Function.update_of_ne hm _ _
  rcases List.eq_nil_or_concat l₁ with rfl | ⟨init, p, rfl⟩
  · refine holds.change ?_ hrest (fun h' hh => Function.update_of_ne hh _ _)
      (fun h' hh m hm => hother m (fun he => ?_) _) hfrom
    · show Path (Function.update s.next n none) (Function.update s.heads h (s.next n) h) l₂
      rw [Function.update_self]
      refine (path_congr fun m hm => hother m (fun he => ?_) _).mpr htail
      exact hn₂ (by rw [← he]; exact hm)
    · subst he
      exact hin m List.mem_cons_self h' hh hm
  · rw [List.concat_eq_append] at hpart hnodup₁ hn₁ hapart hrest hfrom hin ⊢
    rw [List.getLast?_concat]
    have hp : p ∈ init ++ [p] := List.mem_append_right init List.mem_cons_self
    refine holds.change ?_ hrest (fun _ _ => rfl) (fun h' hh m hm => ?_) hfrom
    · have hpart' := hpart.redirect (v := s.next n) hnodup₁
      have hjoined : Path (Function.update s.next p (s.next n)) (s.heads h)
          (init ++ [p] ++ l₂) := by
        refine path_join hpart' ((path_congr fun m hm => ?_).mpr htail)
        refine Function.update_of_ne (fun he => ?_) _ _
        exact hapart p hp m (List.mem_cons_of_mem n hm) he.symm
      refine (path_congr fun m hm => hother m (fun he => ?_) _).mpr hjoined
      rcases List.mem_append.mp hm with hm | hm
      · exact hn₁ (by rw [← he]; exact hm)
      · exact hn₂ (by rw [← he]; exact hm)
    · have hmn : m ≠ n := by
        rintro rfl
        exact hin m (List.mem_append_right _ List.mem_cons_self) h' hh hm
      have hmp : m ≠ p := by
        rintro rfl
        exact hin m (List.mem_append_left _ hp) h' hh hm
      refine (hother m hmn _).trans ?_
      exact Function.update_of_ne hmp _ _

theorem listRemove_holds (holds : Holds s lists) (hfuel : (lists h).length < fuel) :
    ∃ s', listRemove fuel s h n = .ok s' ∧
    Holds s' (Function.update lists h ((lists h).erase n)) := by
  rcases seekLoop_spec n (.head h) rfl (holds.path h) hfuel with
    ⟨hn, link, hrun, hend⟩ | ⟨l₁, l₂, hsplit, hn, hrun⟩
  · refine ⟨s, by simp only [listRemove, hrun, ok_bind, hend], ?_⟩
    rwa [List.erase_of_not_mem hn, Function.update_eq_self]
  · have hpath := holds.path h
    rw [hsplit] at hpath
    have hderef : s.deref (l₁.getLast?.elim (.head h) .next) = some n := by
      have hbehind := (path_append.mp hpath).1.behind
      cases hlast : l₁.getLast? with
      | none =>
        rw [hlast] at hbehind
        exact hbehind
      | some p =>
        rw [hlast] at hbehind
        exact hbehind
    refine ⟨(s.assign (s.next n) (l₁.getLast?.elim (.head h) .next)).setNext n none,
      by simp only [listRemove, hrun, ok_bind, hderef], ?_⟩
    rw [hsplit, List.erase_append_right _ hn, List.erase_cons_head]
    exact unlink_holds holds hsplit

end Changes

/-- A call on the list `h`. -/
inductive Call (H N : Type) where
  | init (n : N)
  | length (h : H)
  | push (h : H) (n : N)
  | append (h : H) (n : N)
  | pop (h : H)
  | find (h : H) (eq : N → Bool)
  | remove (h : H) (n : N)
  | getN (h : H) (index : Nat)

inductive Reply (N : Type) where
  | unit
  | length (len : Nat)
  | node (n : Option N)
  | found (n : Option N) (didx : Nat)

section Calls

variable {H N : Type} [DecidableEq H] [DecidableEq N]

def call (fuel : Nat) (s : Lists H N) : Call H N → Outcome (Reply N × Lists H N)
  | .init n => .ok (.unit, llnodeInit s n)
  | .length h => do
    let len ← listLength fuel s h
    .ok (.length len, s)
  | .push h n => .ok (.unit, listPush s h n)
  | .append h n => do
    let s ← listAppend fuel s h n
    .ok (.unit, s)
  | .pop h => .ok (.node (listPop s h).1, (listPop s h).2)
  | .find h eq => do
    let (n, didx) ← listFind fuel s h eq
    .ok (.found n didx, s)
  | .remove h n => do
    let s ← listRemove fuel s h n
    .ok (.unit, s)
  | .getN h index => do
    let n ← llnodeGetN fuel s h index
    .ok (.node n, s)

/-- The same call on lists as values. -/
def listCall (lists : H → List N) : Call H N → Reply N × (H → List N)
  | .init _ => (.unit, lists)
  | .length h => (.length (u32 (lists h).length), lists)
  | .push h n => (.unit, Function.update lists h (n :: lists h))
  | .append h n => (.unit, Function.update lists h (lists h ++ [n]))
  | .pop h => (.node (lists h).head?, Function.update lists h (lists h).tail)
  | .find h eq => (.found ((lists h).find? eq) (u32 ((lists h).findIdx eq)), lists)
  | .remove h n => (.unit, Function.update lists h ((lists h).erase n))
  | .getN h index => (.node (lists h)[index]?, lists)

/-- A node is put into a list, or initialised, while it is in none. -/
def Free (s : Lists H N) : Call H N → Prop
  | .init n => ∀ h l, Path s.next (s.heads h) l → n ∉ l
  | .push _ n => ∀ h l, Path s.next (s.heads h) l → n ∉ l
  | .append _ n => ∀ h l, Path s.next (s.heads h) l → n ∉ l
  | _ => True

/-- The calls on a memory of finitely many nodes. -/
def intrusiveLists (H N : Type) [DecidableEq H] [DecidableEq N] [Fintype N] :
    Interface (Lists H N) (Call H N) (Reply N) :=
  { pre := Free, step := call (Fintype.card N + 1) }

end Calls

section Runs

variable {H N : Type} [DecidableEq H] [DecidableEq N] [Fintype N] {s s' : Lists H N}
  {lists : H → List N} {tr : List (Call H N × Reply N)}

/-- Every call does to the lists what it does to the lists as values, and answers alike. -/
theorem call_holds (holds : Holds s lists) {c : Call H N} (hfree : Free s c) :
    ∃ r s', call (Fintype.card N + 1) s c = .ok (r, s') ∧ r = (listCall lists c).1 ∧
      Holds s' (listCall lists c).2 := by
  have hle : ∀ h, (lists h).length ≤ Fintype.card N := fun h => (holds.nodup h).length_le_card
  have hout : ∀ n, (∀ h l, Path s.next (s.heads h) l → n ∉ l) → ∀ h, n ∉ lists h :=
    fun n hn h => hn h _ (holds.path h)
  cases c with
  | init n => exact ⟨_, _, rfl, rfl, llnodeInit_holds holds (hout n hfree)⟩
  | length h =>
    have hrun := lengthLoop_spec (holds.path h) (Nat.le_succ_of_le (hle h)) (Nat.two_pow_pos 32)
    rw [Nat.zero_add] at hrun
    exact ⟨_, _, by simp only [call, listLength, hrun, ok_bind]; rfl, rfl, holds⟩
  | push h n => exact ⟨_, _, rfl, rfl, listPush_holds holds (hout n hfree)⟩
  | append h n =>
    obtain ⟨s', hrun, holds'⟩ := listAppend_holds holds (hout n hfree) (Nat.le_succ_of_le (hle h))
    exact ⟨_, s', by simp only [call, hrun, ok_bind]; rfl, rfl, holds'⟩
  | pop h =>
    obtain ⟨hnode, holds'⟩ := listPop_holds (h := h) holds
    exact ⟨_, _, rfl, congrArg Reply.node hnode, holds'⟩
  | find h eq =>
    have hrun := findLoop_spec eq (holds.path h) (Nat.le_succ_of_le (hle h)) (Nat.two_pow_pos 32)
    rw [Nat.zero_add] at hrun
    exact ⟨_, _, by simp only [call, listFind, hrun, ok_bind]; rfl, rfl, holds⟩
  | remove h n =>
    obtain ⟨s', hrun, holds'⟩ := listRemove_holds (n := n) holds (Nat.lt_succ_of_le (hle h))
    exact ⟨_, s', by simp only [call, hrun, ok_bind]; rfl, rfl, holds'⟩
  | getN h index =>
    have hrun := getLoop_spec (holds.path h) (Nat.le_succ_of_le (hle h)) (Nat.zero_le index)
    rw [Nat.sub_zero] at hrun
    exact ⟨_, _, by simp only [call, llnodeGetN, hrun, ok_bind]; rfl, rfl, holds⟩

theorem intrusive_simulation : Simulation (intrusiveLists H N)
    (fun lists c r lists' => (r, lists') = listCall lists c) Holds := by
  intro s lists c holds hfree
  obtain ⟨r, s', hrun, hreply, holds'⟩ := call_holds holds hfree
  exact ⟨r, s', _, hrun, by rw [hreply], holds'⟩

/-- Over whole runs, any number of lists that share their nodes behave like lists that are values:
the same replies, and the lists are what the variables lead to. No call runs past its end. -/
theorem lists_behave (memory : N → Option N)
    (run : Trace (intrusiveLists H N) ⟨fun _ => none, memory⟩ tr s) :
    (∃ lists, SpecTrace (fun lists c r lists' => (r, lists') = listCall lists c)
        (fun _ : H => ([] : List N)) tr lists ∧ Holds s lists) ∧
      ∀ c, Free s c → ∃ r s', call (Fintype.card N + 1) s c = .ok (r, s') := by
  have empty : Holds (⟨fun _ => none, memory⟩ : Lists H N) fun _ => [] :=
    ⟨fun _ => rfl, fun _ => List.nodup_nil, fun _ _ _ n hn => absurd hn List.not_mem_nil⟩
  obtain ⟨lists, hspec, holds⟩ := intrusive_simulation.trace empty run
  exact ⟨⟨lists, hspec, holds⟩, fun c hfree => intrusive_simulation.returns holds hfree⟩

/-- Two nodes, appended and pushed to one list. -/
theorem lists_behave_two : ∃ s : Lists Unit (Fin 2), ∃ lists,
    SpecTrace (fun lists c r lists' => (r, lists') = listCall lists c) (fun _ => [])
      [(.append () 0, .unit), (.push () 1, .unit), (.pop (), .node (some 1))] lists ∧
    Holds s lists := by
  have run : ∃ s, Trace (intrusiveLists Unit (Fin 2)) ⟨fun _ => none, fun _ => none⟩
      [(.append () 0, .unit), (.push () 1, .unit), (.pop (), .node (some 1))] s := by
    refine ⟨_, .cons ?_ rfl (.cons ?_ rfl (.cons trivial rfl (.nil _)))⟩
    · intro h l hpath
      obtain rfl := hpath.eq_nil
      exact List.not_mem_nil
    · intro h l hpath
      obtain ⟨l', rfl, hpath'⟩ := hpath.eq_cons
      obtain rfl := hpath'.eq_nil
      decide
  obtain ⟨s, run⟩ := run
  exact ⟨s, (lists_behave _ run).1⟩

end Runs

end IntrusiveLists
