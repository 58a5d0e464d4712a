import Mathlib.Data.List.Basic
import Mathlib.Logic.Function.Basic
import Mathlib.Tactic.Common

/-!
# Doubly linked chains

Two partial functions give the successor and the predecessor of a node. A
segment lists the nodes between a left and a right neighbour; a chain is a
segment without neighbours whose nodes are distinct. Insertion and removal are
stated by what the new links are at each node, so a program may reach them by
any order of assignments.
-/

namespace LinkedChain

universe u

variable {P : Type u} {next prev next' prev' : P → Option P}

def Seg (next prev : P → Option P) : Option P → List P → Option P → Prop
  | _, [], _ => True
  | before, a :: l, after =>
    prev a = before ∧ next a = l.head?.or after ∧ Seg next prev (some a) l after

structure Chain (next prev : P → Option P) (head : Option P) (l : List P) : Prop where
  head_eq : head = l.head?
  seg : Seg next prev none l none
  nodup : l.Nodup

theorem seg_append {before after : Option P} {l₁ l₂ : List P} :
    Seg next prev before (l₁ ++ l₂) after ↔
      Seg next prev before l₁ (l₂.head?.or after) ∧
        Seg next prev (l₁.getLast?.or before) l₂ after := by
  induction l₁ generalizing before with
  | nil => simp [Seg]
  | cons a l ih =>
    have hlast : (a :: l).getLast?.or before = l.getLast?.or (some a) := by
      cases h : l.getLast? with
      | none =>
        have hl : l = [] := List.getLast?_eq_none_iff.mp h
        simp [hl]
      | some b => simp [List.getLast?_cons, h]
    simp only [List.cons_append, Seg, ih, hlast, List.head?_append, Option.or_assoc]
    constructor
    · rintro ⟨hp, hn, h₁, h₂⟩
      exact ⟨⟨hp, hn, h₁⟩, h₂⟩
    · rintro ⟨⟨hp, hn, h₁⟩, h₂⟩
      exact ⟨hp, hn, h₁, h₂⟩

/-- A segment depends on the links of its own nodes only. -/
theorem seg_congr {before after : Option P} {l : List P}
    (hnext : ∀ q ∈ l, next' q = next q) (hprev : ∀ q ∈ l, prev' q = prev q) :
    Seg next' prev' before l after ↔ Seg next prev before l after := by
  induction l generalizing before with
  | nil => rfl
  | cons a l ih =>
    simp only [Seg, hnext a List.mem_cons_self, hprev a List.mem_cons_self]
    rw [ih (fun q hq => hnext q (List.mem_cons_of_mem a hq))
      (fun q hq => hprev q (List.mem_cons_of_mem a hq))]

/-- Redirect the successor of the last node. -/
theorem seg_redirect_after [DecidableEq P] {before after after' : Option P} {l : List P}
    (seg : Seg next prev before l after) (nodup : l.Nodup)
    (hnext : ∀ q ∈ l, next' q = if l.getLast? = some q then after' else next q)
    (hprev : ∀ q ∈ l, prev' q = prev q) : Seg next' prev' before l after' := by
  induction l generalizing before with
  | nil => trivial
  | cons a l ih =>
    obtain ⟨hp, hn, hs⟩ := seg
    obtain ⟨ha, hl⟩ := List.nodup_cons.mp nodup
    refine ⟨(hprev a List.mem_cons_self).trans hp, ?_, ?_⟩
    · rw [hnext a List.mem_cons_self]
      cases l with
      | nil => simp
      | cons b l =>
        have hne : ¬ (a :: b :: l).getLast? = some a := by
          rw [List.getLast?_cons_cons]
          intro h
          exact ha (List.mem_of_getLast? h)
        rw [if_neg hne, hn]
        rfl
    · cases l with
      | nil => trivial
      | cons b l =>
        refine ih hs hl ?_ (fun q hq => hprev q (List.mem_cons_of_mem a hq))
        intro q hq
        have h := hnext q (List.mem_cons_of_mem a hq)
        rwa [List.getLast?_cons_cons] at h

/-- Redirect the predecessor of the first node. -/
theorem seg_redirect_before [DecidableEq P] {before before' after : Option P} {l : List P}
    (seg : Seg next prev before l after) (nodup : l.Nodup)
    (hnext : ∀ q ∈ l, next' q = next q)
    (hprev : ∀ q ∈ l, prev' q = if l.head? = some q then before' else prev q) :
    Seg next' prev' before' l after := by
  cases l with
  | nil => trivial
  | cons a l =>
    obtain ⟨hp, hn, hs⟩ := seg
    obtain ⟨ha, hl⟩ := List.nodup_cons.mp nodup
    refine ⟨by simpa using hprev a List.mem_cons_self,
      (hnext a List.mem_cons_self).trans hn, ?_⟩
    refine (seg_congr (fun q hq => hnext q (List.mem_cons_of_mem a hq)) ?_).mpr hs
    intro q hq
    have hne : a ≠ q := fun h => ha (h ▸ hq)
    simpa [hne] using hprev q (List.mem_cons_of_mem a hq)

/-- The nodes of a singly linked list, from its first pointer to the null one. -/
def Path (next : P → Option P) : Option P → List P → Prop
  | start, [] => start = none
  | start, a :: l => start = some a ∧ Path next (next a) l

theorem path_congr {start : Option P} {l : List P} (hnext : ∀ q ∈ l, next' q = next q) :
    Path next' start l ↔ Path next start l := by
  induction l generalizing start with
  | nil => rfl
  | cons a l ih =>
    simp only [Path, hnext a List.mem_cons_self,
      ih (fun q hq => hnext q (List.mem_cons_of_mem a hq))]

theorem Path.eq_nil {l : List P} (h : Path next none l) : l = [] := by
  cases l with
  | nil => rfl
  | cons a l => cases h.1

theorem Path.eq_cons {l : List P} {a : P} (h : Path next (some a) l) :
    ∃ l', l = a :: l' ∧ Path next (next a) l' := by
  cases l with
  | nil => cases h
  | cons b l =>
    obtain ⟨hb, hl⟩ := h
    obtain rfl := Option.some.inj hb
    exact ⟨l, rfl, hl⟩

theorem Path.unique {start : Option P} {l l' : List P} (h : Path next start l)
    (h' : Path next start l') : l = l' := by
  induction l generalizing start l' with
  | nil =>
    obtain rfl : start = none := h
    exact h'.eq_nil.symm
  | cons a l ih =>
    obtain ⟨rfl, htail⟩ := h
    obtain ⟨l'', rfl, htail'⟩ := h'.eq_cons
    rw [ih htail htail']

/-- The nodes from a pointer up to the pointer `after`. -/
def Part (next : P → Option P) : Option P → List P → Option P → Prop
  | start, [], after => start = after
  | start, a :: l, after => start = some a ∧ Part next (next a) l after

section Parts

variable {start after v : Option P} {l l₁ l₂ : List P} {p : P}

theorem path_append : Path next start (l₁ ++ p :: l₂) ↔
    Part next start l₁ (some p) ∧ Path next (next p) l₂ := by
  induction l₁ generalizing start with
  | nil => rfl
  | cons a l ih =>
    rw [List.cons_append, Path, Part, ih, and_assoc]

/-- A list is the part of it in front of the null pointer. -/
theorem part_none : Part next start l none ↔ Path next start l := by
  induction l generalizing start with
  | nil => rfl
  | cons a l ih => rw [Part, Path, ih]

theorem path_join (h : Part next start l₁ after) (htail : Path next after l₂) :
    Path next start (l₁ ++ l₂) := by
  induction l₁ generalizing start with
  | nil =>
    obtain rfl : start = after := h
    exact htail
  | cons a l ih => exact ⟨h.1, ih h.2⟩

/-- The pointer behind the last node. -/
theorem Part.behind (h : Part next start l after) : l.getLast?.elim start next = after := by
  induction l generalizing start with
  | nil => exact h
  | cons a l ih =>
    have hlast := ih h.2
    rw [List.getLast?_cons]
    cases hl : l.getLast? with
    | none =>
      rw [hl] at hlast
      exact hlast
    | some b =>
      rw [hl] at hlast
      exact hlast

/-- Redirect the pointer behind the last node. -/
theorem Part.redirect [DecidableEq P] (h : Part next start (l ++ [p]) after)
    (nodup : (l ++ [p]).Nodup) : Part (Function.update next p v) start (l ++ [p]) v := by
  induction l generalizing start with
  | nil =>
    refine ⟨h.1, ?_⟩
    show Function.update next p v p = v
    exact Function.update_self p v next
  | cons a l ih =>
    obtain ⟨ha, hl⟩ := List.nodup_cons.mp nodup
    have hne : a ≠ p := fun heq => ha (heq ▸ List.mem_append_right l List.mem_cons_self)
    refine ⟨h.1, ?_⟩
    rw [Function.update_of_ne hne]
    exact ih h.2 hl

end Parts

namespace Chain

variable {head : Option P} {l l₁ l₂ : List P} {p : P}

theorem empty : Chain next prev none [] := ⟨rfl, trivial, List.nodup_nil⟩

theorem congr (h : Chain next prev head l) (hnext : ∀ q ∈ l, next' q = next q)
    (hprev : ∀ q ∈ l, prev' q = prev q) : Chain next' prev' head l :=
  ⟨h.head_eq, (seg_congr hnext hprev).mpr h.seg, h.nodup⟩

/-- The links at a node are its neighbours in the list. -/
theorem links (h : Chain next prev head (l₁ ++ p :: l₂)) :
    prev p = l₁.getLast? ∧ next p = l₂.head? := by
  obtain ⟨-, hp, hn, -⟩ := seg_append.mp h.seg
  exact ⟨by simpa using hp, by simpa using hn⟩

/-- The head is the node without a predecessor. -/
theorem head_iff (h : Chain next prev head (l₁ ++ p :: l₂)) :
    head = some p ↔ prev p = none := by
  rw [h.links.1, List.getLast?_eq_none_iff, h.head_eq]
  constructor
  · intro hhead
    cases l₁ with
    | nil => rfl
    | cons a l =>
      obtain rfl : a = p := by simpa using hhead
      have hn := List.perm_middle.nodup_iff.mp h.nodup
      exact absurd (List.mem_append_left _ List.mem_cons_self) (List.nodup_cons.mp hn).1
  · rintro rfl
    rfl

theorem mem_split (hp : p ∈ l) : ∃ l₁ l₂, l = l₁ ++ p :: l₂ := List.mem_iff_append.mp hp

/-- Successors and predecessors of nodes of the chain are nodes of the chain. -/
theorem next_mem (h : Chain next prev head l) (hp : p ∈ l) {q : P}
    (hq : next p = some q) : q ∈ l := by
  obtain ⟨l₁, l₂, rfl⟩ := mem_split hp
  rw [h.links.2] at hq
  exact List.mem_append_right _ (List.mem_cons_of_mem _ (List.mem_of_head? hq))

theorem prev_mem (h : Chain next prev head l) (hp : p ∈ l) {q : P}
    (hq : prev p = some q) : q ∈ l := by
  obtain ⟨l₁, l₂, rfl⟩ := mem_split hp
  rw [h.links.1] at hq
  exact List.mem_append_left _ (List.mem_of_getLast? hq)

/-- Insert a node between two parts of a chain. -/
theorem insert [DecidableEq P] (h : Chain next prev head (l₁ ++ l₂)) (hp : p ∉ l₁ ++ l₂)
    {head' : Option P} (hhead : head' = l₁.head?.or (some p))
    (nextp : next' p = l₂.head?) (prevp : prev' p = l₁.getLast?)
    (hnext : ∀ q ∈ l₁ ++ l₂, next' q = if l₁.getLast? = some q then some p else next q)
    (hprev : ∀ q ∈ l₁ ++ l₂, prev' q = if l₂.head? = some q then some p else prev q) :
    Chain next' prev' head' (l₁ ++ p :: l₂) := by
  obtain ⟨hs₁, hs₂⟩ := seg_append.mp h.seg
  obtain ⟨hn₁, hn₂, hdis⟩ := List.nodup_append.mp h.nodup
  refine ⟨?_, seg_append.mpr ⟨?_, ?_, ?_, ?_⟩, ?_⟩
  · rw [hhead, List.head?_append]
    rfl
  · refine seg_redirect_after hs₁ hn₁
      (fun q hq => hnext q (List.mem_append_left _ hq)) (fun q hq => ?_)
    have hne : ¬ l₂.head? = some q := fun he => hdis q hq q (List.mem_of_head? he) rfl
    rw [hprev q (List.mem_append_left _ hq), if_neg hne]
  · simpa using prevp
  · simpa using nextp
  · refine seg_redirect_before hs₂ hn₂ (fun q hq => ?_)
      (fun q hq => hprev q (List.mem_append_right _ hq))
    have hne : ¬ l₁.getLast? = some q := fun he => hdis q (List.mem_of_getLast? he) q hq rfl
    rw [hnext q (List.mem_append_right _ hq), if_neg hne]
  · exact List.perm_middle.nodup_iff.mpr (List.nodup_cons.mpr ⟨hp, h.nodup⟩)

/-- Remove a node by joining its neighbours. -/
theorem remove [DecidableEq P] (h : Chain next prev head (l₁ ++ p :: l₂))
    {head' : Option P} (hhead : head' = if prev p = none then next p else head)
    (hnext : ∀ q ∈ l₁ ++ l₂, next' q = if prev p = some q then next p else next q)
    (hprev : ∀ q ∈ l₁ ++ l₂, prev' q = if next p = some q then prev p else prev q) :
    Chain next' prev' head' (l₁ ++ l₂) := by
  obtain ⟨hprevp, hnextp⟩ := h.links
  obtain ⟨hs₁, -, -, hs₂⟩ := seg_append.mp h.seg
  obtain ⟨hn₁, hn₂, hdis⟩ := List.nodup_append.mp h.nodup
  obtain ⟨hp₂, hn₂⟩ := List.nodup_cons.mp hn₂
  have hdis' : ∀ q ∈ l₁, q ∉ l₂ := fun q h₁ h₂ => hdis q h₁ q (List.mem_cons_of_mem p h₂) rfl
  rw [hprevp, hnextp] at hnext hprev hhead
  refine ⟨?_, seg_append.mpr ⟨?_, ?_⟩, ?_⟩
  · rw [hhead, h.head_eq]
    cases l₁ with
    | nil => simp
    | cons a l => simp
  · refine seg_redirect_after hs₁ hn₁ (fun q hq => ?_) (fun q hq => ?_)
    · rw [hnext q (List.mem_append_left _ hq), Option.or_none]
    · have hne : ¬ l₂.head? = some q := fun he => hdis' q hq (List.mem_of_head? he)
      rw [hprev q (List.mem_append_left _ hq), if_neg hne]
  · refine seg_redirect_before hs₂ hn₂ (fun q hq => ?_) (fun q hq => ?_)
    · have hne : ¬ l₁.getLast? = some q :=
        fun he => hdis' q (List.mem_of_getLast? he) hq
      rw [hnext q (List.mem_append_right _ hq), if_neg hne]
    · rw [hprev q (List.mem_append_right _ hq), Option.or_none]
  · exact (List.nodup_cons.mp (List.perm_middle.nodup_iff.mp h.nodup)).2

end Chain

end LinkedChain
