import CSpecx.CExec
import CSpecx.LinkedChain
import Mathlib.Algebra.BigOperators.Group.Finset.Basic
import Mathlib.Algebra.Order.BigOperators.Group.Finset

/-!
# The intrusive hash table

`hash_table.c` over any type of nodes. A link is a pointer to a pointer: a slot
of the bucket array or the `next` field of a node. Each function holds the latch
from its first access to its last one, so a call is one step.
-/

namespace HashTable

open CExec LinkedChain

/-- `struct hnode **`. -/
inductive Link (N : Type) where
  | bucket (pos : Nat)
  | next (n : N)
  deriving DecidableEq

/-- `struct htable` with the fields of all nodes. -/
structure HTable (N : Type) where
  cap : Nat
  size : Nat
  table : Nat → Option N
  next : N → Option N
  hcode : N → Nat

section Operations

variable {N : Type}

/-- `*from`. -/
def HTable.deref (t : HTable N) : Link N → Option N
  | .bucket pos => t.table pos
  | .next n => t.next n

/-- `*from = v`. -/
def HTable.assign [DecidableEq N] (t : HTable N) (v : Option N) : Link N → HTable N
  | .bucket pos => { t with table := Function.update t.table pos v }
  | .next n => { t with next := Function.update t.next n v }

/-- The argument `key`: its `hcode`, and the comparison with it unless `eq` is `NULL`. -/
structure Key (N : Type) where
  hcode : Nat
  eq : Option (N → Bool)

/-- The condition of `htable_lookup`, with `default_equals` for `NULL`. -/
def Key.found (key : Key N) (t : HTable N) (cur : N) : Bool :=
  decide (t.hcode cur = key.hcode) && (key.eq.getD fun n => decide (t.hcode n = key.hcode)) cur

/-- The loop of `htable_lookup`, with a bound. -/
def lookupLoop (t : HTable N) (key : Key N) : Nat → Link N → Outcome (Option (Link N))
  | 0, _ => .error .fuel
  | fuel + 1, link =>
    match t.deref link with
    | none => .ok none
    | some cur => if key.found t cur then .ok (some link) else lookupLoop t key fuel (.next cur)

/-- `sizeof (struct htable)`. -/
def tableHeader : Nat := 16

/-- `htable_create` when the allocation succeeds, over the nodes as they are. The
size arrives at `i_malloc` as `u32`; the `memset` clears `8 * n` bytes of that block. -/
def htableCreate (n : Nat) (next : N → Option N) (hcode : N → Nat) : Outcome (HTable N) := do
  let size := u32 (tableHeader + 8 * n)
  assert (0 < size)
  access (tableHeader + 8 * n ≤ size)
  assert (0 < n)
  .ok { cap := n, size := 0, table := fun _ => none, next, hcode }

def htableInsert [DecidableEq N] (t : HTable N) (node : N) : Outcome (HTable N) := do
  assert (0 < t.cap)
  let pos := t.hcode node % t.cap
  let t := { t with next := Function.update t.next node (t.table pos) }
  .ok { t with table := Function.update t.table pos (some node), size := u32 (t.size + 1) }

def htableLookup (t : HTable N) (key : Key N) : Outcome (Option (Link N)) := do
  assert (0 < t.cap)
  lookupLoop t key (t.size + 1) (.bucket (key.hcode % t.cap))

def htableDelete [DecidableEq N] (t : HTable N) (link : Link N) : Outcome (N × HTable N) := do
  assert (0 < t.cap)
  match t.deref link with
  | none => .error .undefined
  | some node => .ok (node, { t.assign (t.next node) link with size := sub32 t.size 1 })

end Operations

/-- The chains of the buckets: each node is in the chain of its hash code, and `size`
counts them all. -/
structure Chained {N : Type} (t : HTable N) (chains : Nat → List N) : Prop where
  cap : 0 < t.cap
  path : ∀ pos < t.cap, Path t.next (t.table pos) (chains pos)
  home : ∀ pos < t.cap, ∀ n ∈ chains pos, t.hcode n % t.cap = pos
  nodup : ∀ pos < t.cap, (chains pos).Nodup
  size : t.size = ∑ pos ∈ Finset.range t.cap, (chains pos).length
  small : t.size < 2 ^ 32

/-- The chains, whatever `size` says. -/
structure Linked {N : Type} (t : HTable N) (chains : Nat → List N) : Prop where
  cap : 0 < t.cap
  path : ∀ pos < t.cap, Path t.next (t.table pos) (chains pos)
  home : ∀ pos < t.cap, ∀ n ∈ chains pos, t.hcode n % t.cap = pos
  nodup : ∀ pos < t.cap, (chains pos).Nodup

/-- A node that is reachable from some bucket. -/
def Stored {N : Type} (t : HTable N) (n : N) : Prop :=
  ∃ pos < t.cap, ∃ l, Path t.next (t.table pos) l ∧ n ∈ l

/-- The link behind the first nodes `l` of the chain of a bucket. -/
def linkBehind {N : Type} (pos : Nat) (l : List N) : Link N := l.getLast?.elim (.bucket pos) .next

section Chains

variable {N : Type} {t : HTable N} {chains : Nat → List N} {key : Key N} {pos fuel : Nat}
  {n m : N} {l l₁ l₂ : List N} {start : Option N} {link : Link N}

theorem Chained.linked (chained : Chained t chains) : Linked t chains :=
  ⟨chained.cap, chained.path, chained.home, chained.nodup⟩

theorem Chained.stored_iff (chained : Chained t chains) :
    Stored t n ↔ ∃ pos < t.cap, n ∈ chains pos := by
  constructor
  · rintro ⟨pos, hpos, l, hpath, hn⟩
    rw [hpath.unique (chained.path pos hpos)] at hn
    exact ⟨pos, hpos, hn⟩
  · rintro ⟨pos, hpos, hn⟩
    exact ⟨pos, hpos, chains pos, chained.path pos hpos, hn⟩

theorem Chained.length_le (chained : Chained t chains) (hpos : pos < t.cap) :
    (chains pos).length ≤ t.size := by
  rw [chained.size]
  exact Finset.single_le_sum (f := fun pos => (chains pos).length) (fun _ _ => Nat.zero_le _)
    (Finset.mem_range.mpr hpos)

theorem deref_linkBehind {after : Option N} (h : Part t.next (t.table pos) l after) :
    t.deref (linkBehind pos l) = after := by
  have hbehind := h.behind
  rw [linkBehind]
  cases hl : l.getLast? with
  | none =>
    rw [hl] at hbehind
    exact hbehind
  | some p =>
    rw [hl] at hbehind
    exact hbehind

/-- The loop stops at the first node that the key matches. -/
theorem lookupLoop_first (hderef : t.deref link = start) (hpath : Path t.next start (l₁ ++ n :: l₂))
    (hskip : ∀ m ∈ l₁, key.found t m = false) (hfound : key.found t n = true)
    (hfuel : l₁.length < fuel) :
    lookupLoop t key fuel link = .ok (some (l₁.getLast?.elim link .next)) := by
  induction l₁ generalizing link start fuel with
  | nil =>
    cases fuel with
    | zero => exact absurd hfuel (Nat.lt_irrefl 0)
    | succ fuel =>
      rw [hpath.1] at hderef
      simp only [lookupLoop, hderef, hfound, if_true]
      rfl
  | cons a l ih =>
    cases fuel with
    | zero => exact absurd hfuel (Nat.not_lt_zero _)
    | succ fuel =>
      rw [hpath.1] at hderef
      have hskip' : key.found t a = false := hskip a List.mem_cons_self
      have hlink : t.deref (.next a) = t.next a := rfl
      have next := ih hlink hpath.2 (fun m hm => hskip m (List.mem_cons_of_mem a hm))
        (Nat.lt_of_succ_lt_succ hfuel)
      simp only [lookupLoop, hderef, hskip', Bool.false_eq_true, if_false]
      rw [next, List.getLast?_cons]
      cases l.getLast? <;> rfl

/-- Where the loop stops. -/
theorem lookupLoop_cases {res : Option (Link N)} (hderef : t.deref link = start)
    (hpath : Path t.next start l) (hrun : lookupLoop t key fuel link = .ok res) :
    (res = none ∧ ∀ q ∈ l, key.found t q = false) ∨
    ∃ l₁ m l₂, l = l₁ ++ m :: l₂ ∧ (∀ q ∈ l₁, key.found t q = false) ∧ key.found t m = true ∧
      res = some (l₁.getLast?.elim link .next) := by
  induction l generalizing link start fuel with
  | nil =>
    cases fuel with
    | zero => cases hrun
    | succ fuel =>
      obtain rfl : start = none := hpath
      simp only [lookupLoop, hderef] at hrun
      exact Or.inl ⟨(Except.ok.inj hrun).symm, fun _ hq => absurd hq List.not_mem_nil⟩
  | cons a l ih =>
    cases fuel with
    | zero => cases hrun
    | succ fuel =>
      obtain ⟨rfl, htail⟩ := hpath
      cases hfound : key.found t a with
      | true =>
        simp only [lookupLoop, hderef, hfound, if_true] at hrun
        exact Or.inr ⟨[], a, l, rfl, fun _ hq => absurd hq List.not_mem_nil, hfound,
          (Except.ok.inj hrun).symm⟩
      | false =>
        simp only [lookupLoop, hderef, hfound, Bool.false_eq_true, if_false] at hrun
        have next : t.deref (.next a) = t.next a := rfl
        have hskip : ∀ front : List N, (∀ q ∈ front, key.found t q = false) →
            ∀ q ∈ a :: front, key.found t q = false := by
          intro front hfront q hq
          rcases List.mem_cons.mp hq with rfl | hq
          · exact hfound
          · exact hfront q hq
        rcases ih next htail hrun with ⟨hnone, hall⟩ | ⟨l₁, m, l₂, rfl, hfront, hm, hres⟩
        · exact Or.inl ⟨hnone, hskip l hall⟩
        · refine Or.inr ⟨a :: l₁, m, l₂, rfl, hskip l₁ hfront, hm, ?_⟩
          rw [hres, List.getLast?_cons]
          cases l₁.getLast? <;> rfl

theorem htableLookup_first (chained : Chained t chains)
    (hsplit : chains (key.hcode % t.cap) = l₁ ++ n :: l₂)
    (hskip : ∀ m ∈ l₁, key.found t m = false) (hfound : key.found t n = true) :
    htableLookup t key = .ok (some (linkBehind (key.hcode % t.cap) l₁)) := by
  have hpos := Nat.mod_lt key.hcode chained.cap
  have hpath := chained.path _ hpos
  have hlen := chained.length_le hpos
  rw [hsplit] at hpath hlen
  rw [List.length_append, List.length_cons] at hlen
  rw [htableLookup, assert_pos chained.cap, ok_bind]
  exact lookupLoop_first rfl hpath hskip hfound (by omega)

/-- The number of nodes after one chain changes. -/
theorem Chained.size_update (chained : Chained t chains) (hpos : pos < t.cap) :
    ∑ q ∈ Finset.range t.cap, (Function.update chains pos l q).length + (chains pos).length =
      t.size + l.length := by
  have hmem : pos ∈ Finset.range t.cap := Finset.mem_range.mpr hpos
  rw [chained.size, ← Finset.add_sum_erase _ _ hmem,
    ← Finset.add_sum_erase _ (fun q => (chains q).length) hmem, Function.update_self]
  have hrest : ∑ q ∈ (Finset.range t.cap).erase pos, (Function.update chains pos l q).length =
      ∑ q ∈ (Finset.range t.cap).erase pos, (chains q).length := by
    refine Finset.sum_congr rfl fun q hq => ?_
    rw [Function.update_of_ne (Finset.ne_of_mem_erase hq)]
  rw [hrest]
  omega

/-- A table can be created exactly when its size fits 32 bits. -/
theorem htableCreate_iff {cap : Nat} {next : N → Option N} {hcode : N → Nat} :
    htableCreate cap next hcode = .ok t ↔
      (0 < cap ∧ tableHeader + 8 * cap < 2 ^ 32) ∧
        t = ⟨cap, 0, fun _ => none, next, hcode⟩ := by
  constructor
  · intro hrun
    obtain ⟨_, -, hrun⟩ := bind_eq_ok.mp hrun
    obtain ⟨_, hinside, hrun⟩ := bind_eq_ok.mp hrun
    obtain ⟨_, hcap, hrun⟩ := bind_eq_ok.mp hrun
    have hlt := lt_of_le_of_lt (access_eq_ok_iff.mp hinside) (u32_lt _)
    exact ⟨⟨assert_eq_ok_iff.mp hcap, hlt⟩, (Except.ok.inj hrun).symm⟩
  · rintro ⟨⟨hcap, hsize⟩, rfl⟩
    have hfirst : 0 < tableHeader + 8 * cap := Nat.add_pos_left (by decide) _
    simp only [htableCreate, u32_of_lt hsize, assert_pos hfirst, access_pos (le_refl _),
      assert_pos hcap, ok_bind]

theorem htableCreate_chained {cap : Nat} (hcap : 0 < cap) (hsize : tableHeader + 8 * cap < 2 ^ 32)
    (next : N → Option N) (hcode : N → Nat) :
    ∃ t, htableCreate cap next hcode = .ok t ∧ t.cap = cap ∧ t.hcode = hcode ∧
      Chained t fun _ => [] := by
  refine ⟨⟨cap, 0, fun _ => none, next, hcode⟩, ?_, rfl, rfl, ?_⟩
  · exact htableCreate_iff.mpr ⟨⟨hcap, hsize⟩, rfl⟩
  · exact ⟨hcap, fun _ _ => rfl, fun _ _ _ hn => absurd hn List.not_mem_nil,
      fun _ _ => List.nodup_nil, Finset.sum_const_zero.symm, Nat.two_pow_pos 32⟩

variable [DecidableEq N]

/-- Inserting puts a new node in front of the chain of its hash code. -/
theorem htableInsert_linked (linked : Linked t chains) (hout : ∀ q < t.cap, n ∉ chains q) :
    ∃ t', htableInsert t n = .ok t' ∧ t'.cap = t.cap ∧ t'.hcode = t.hcode ∧
      t'.size = u32 (t.size + 1) ∧
      Linked t' (Function.update chains (t.hcode n % t.cap) (n :: chains (t.hcode n % t.cap))) := by
  obtain ⟨pos, hpos⟩ : ∃ pos, pos = t.hcode n % t.cap := ⟨_, rfl⟩
  have hlt : pos < t.cap := hpos ▸ Nat.mod_lt _ linked.cap
  rw [← hpos]
  refine ⟨⟨t.cap, u32 (t.size + 1), Function.update t.table pos (some n),
    Function.update t.next n (t.table pos), t.hcode⟩, ?_, rfl, rfl, rfl, linked.cap, fun q hq => ?_,
    fun q hq m hm => ?_, fun q hq => ?_⟩
  · rw [htableInsert, assert_pos linked.cap, ok_bind, hpos]
  · have hold : Path (Function.update t.next n (t.table pos)) (t.table q) (chains q) := by
      refine (path_congr fun m hm => ?_).mpr (linked.path q hq)
      have hne : m ≠ n := fun heq => hout q hq (heq ▸ hm)
      exact Function.update_of_ne hne _ _
    show Path (Function.update t.next n (t.table pos)) (Function.update t.table pos (some n) q) _
    by_cases hqpos : q = pos
    · subst hqpos
      rw [Function.update_self, Function.update_self]
      refine ⟨rfl, ?_⟩
      rwa [Function.update_self]
    · rwa [Function.update_of_ne hqpos, Function.update_of_ne hqpos]
  · by_cases hqpos : q = pos
    · rw [hqpos, Function.update_self] at hm
      rcases List.mem_cons.mp hm with rfl | hm
      · exact (hqpos.trans hpos).symm
      · exact linked.home q hq m (hqpos ▸ hm)
    · rw [Function.update_of_ne hqpos] at hm
      exact linked.home q hq m hm
  · by_cases hqpos : q = pos
    · rw [hqpos, Function.update_self]
      exact List.nodup_cons.mpr ⟨hout pos hlt, linked.nodup pos hlt⟩
    · rw [Function.update_of_ne hqpos]
      exact linked.nodup q hq

theorem htableInsert_chained (chained : Chained t chains) (hn : ¬ Stored t n)
    (hsmall : t.size + 1 < 2 ^ 32) :
    ∃ t', htableInsert t n = .ok t' ∧ t'.cap = t.cap ∧ t'.hcode = t.hcode ∧
      Chained t'
        (Function.update chains (t.hcode n % t.cap) (n :: chains (t.hcode n % t.cap))) := by
  have hout : ∀ q < t.cap, n ∉ chains q := fun q hq hmem =>
    hn (chained.stored_iff.mpr ⟨q, hq, hmem⟩)
  obtain ⟨t', hinsert, hcap, hhcode, hcount, linked⟩ := htableInsert_linked chained.linked hout
  have hlt : t.hcode n % t.cap < t.cap := Nat.mod_lt _ chained.cap
  have hsize := chained.size_update (l := n :: chains (t.hcode n % t.cap)) hlt
  rw [List.length_cons] at hsize
  refine ⟨t', hinsert, hcap, hhcode, linked.cap, linked.path, linked.home, linked.nodup, ?_, ?_⟩
  · rw [hcount, u32_of_lt hsmall, hcap]
    omega
  · rw [hcount]
    exact u32_lt _

/-- Writing to the link behind some nodes redirects their chain and nothing else. -/
theorem assign_linkBehind {after v : Option N} (hpart : Part t.next (t.table pos) l after)
    (hnodup : l.Nodup) :
    Part (t.assign v (linkBehind pos l)).next ((t.assign v (linkBehind pos l)).table pos) l v ∧
      (∀ m, m ∉ l → (t.assign v (linkBehind pos l)).next m = t.next m) ∧
      (∀ q, q ≠ pos → (t.assign v (linkBehind pos l)).table q = t.table q) ∧
      (t.assign v (linkBehind pos l)).cap = t.cap ∧
      (t.assign v (linkBehind pos l)).hcode = t.hcode := by
  rcases List.eq_nil_or_concat l with rfl | ⟨init, p, rfl⟩
  · refine ⟨?_, fun _ _ => rfl, fun q hq => ?_, rfl, rfl⟩
    · show Function.update t.table pos v pos = v
      exact Function.update_self pos v t.table
    · exact Function.update_of_ne hq v t.table
  · rw [List.concat_eq_append] at hpart hnodup ⊢
    have hlink : linkBehind pos (init ++ [p]) = .next p := by
      rw [linkBehind, List.getLast?_concat]
      rfl
    rw [hlink]
    refine ⟨hpart.redirect hnodup, fun m hm => ?_, fun _ _ => rfl, rfl, rfl⟩
    have hne : m ≠ p := fun heq => hm (heq ▸ List.mem_append_right init List.mem_cons_self)
    exact Function.update_of_ne hne v t.next

/-- Deleting through the link behind the nodes in front takes the node out of its chain. -/
theorem htableDelete_linked (linked : Linked t chains) (hpos : pos < t.cap)
    (hsplit : chains pos = l₁ ++ n :: l₂) :
    ∃ t', htableDelete t (linkBehind pos l₁) = .ok (n, t') ∧ t'.cap = t.cap ∧ t'.hcode = t.hcode ∧
      t'.size = sub32 t.size 1 ∧ t'.next n = t.next n ∧
      Linked t' (Function.update chains pos (l₁ ++ l₂)) := by
  have hpath := linked.path pos hpos
  have hnodup := linked.nodup pos hpos
  rw [hsplit] at hpath hnodup
  obtain ⟨hpart, htail⟩ := path_append.mp hpath
  obtain ⟨hnodup₁, hnodup₂, hdisjoint⟩ := List.nodup_append.mp hnodup
  have hn₁ : n ∉ l₁ := fun hn => hdisjoint n hn n List.mem_cons_self rfl
  obtain ⟨d, hd⟩ : ∃ d, d = t.assign (t.next n) (linkBehind pos l₁) := ⟨_, rfl⟩
  obtain ⟨hpart', hnext, htable, hcap, hhcode⟩ :=
    assign_linkBehind (v := t.next n) hpart hnodup₁
  rw [← hd] at hpart' hnext htable hcap hhcode
  have hsub : ∀ q, ∀ m ∈ Function.update chains pos (l₁ ++ l₂) q, m ∈ chains q := by
    intro q m hm
    by_cases hq : q = pos
    · rw [hq, Function.update_self] at hm
      rw [hq, hsplit]
      exact ((List.sublist_cons_self n l₂).append_left l₁).subset hm
    · rwa [Function.update_of_ne hq] at hm
  refine ⟨{ d with size := sub32 t.size 1 }, ?_, hcap, hhcode, rfl, hnext n hn₁,
    hcap ▸ linked.cap, fun q hq => ?_, fun q hq m hm => ?_, fun q hq => ?_⟩
  · rw [htableDelete, assert_pos linked.cap, ok_bind]
    simp only [deref_linkBehind hpart, hd]
  · have hq : q < t.cap := hcap ▸ hq
    show Path d.next (d.table q) _
    by_cases hqpos : q = pos
    · rw [hqpos, Function.update_self]
      refine path_join hpart' ((path_congr fun m hm => ?_).mpr htail)
      exact hnext m fun hm₁ => hdisjoint m hm₁ m (List.mem_cons_of_mem n hm) rfl
    · rw [Function.update_of_ne hqpos, htable q hqpos]
      refine (path_congr fun m hm => ?_).mpr (linked.path q hq)
      refine hnext m fun hm₁ => hqpos ?_
      have hmem : m ∈ chains pos := hsplit ▸ List.mem_append_left _ hm₁
      exact (linked.home q hq m hm).symm.trans (linked.home pos hpos m hmem)
  · have hq : q < t.cap := hcap ▸ hq
    show d.hcode m % d.cap = q
    rw [hhcode, hcap]
    exact linked.home q hq m (hsub q m hm)
  · have hq : q < t.cap := hcap ▸ hq
    by_cases hqpos : q = pos
    · rw [hqpos, Function.update_self]
      exact hnodup.sublist ((List.sublist_cons_self n l₂).append_left l₁)
    · rw [Function.update_of_ne hqpos]
      exact linked.nodup q hq

theorem htableDelete_chained (chained : Chained t chains) (hpos : pos < t.cap)
    (hsplit : chains pos = l₁ ++ n :: l₂) :
    ∃ t', htableDelete t (linkBehind pos l₁) = .ok (n, t') ∧
      Chained t' (Function.update chains pos (l₁ ++ l₂)) ∧ t'.cap = t.cap ∧ t'.hcode = t.hcode ∧
      t'.next n = t.next n := by
  obtain ⟨t', hdelete, hcap, hhcode, hcount, hnext, linked⟩ :=
    htableDelete_linked chained.linked hpos hsplit
  have hshort : (l₁ ++ l₂).length + 1 = (chains pos).length := by
    rw [hsplit, List.length_append, List.length_append, List.length_cons, Nat.add_assoc]
  have hsize := chained.size_update (l := l₁ ++ l₂) hpos
  have hsmall := chained.small
  have hminus : sub32 t.size 1 = t.size - 1 := sub32_of_le (by omega) hsmall
  refine ⟨t', hdelete, ⟨linked.cap, linked.path, linked.home, linked.nodup, ?_, ?_⟩, hcap, hhcode,
    hnext⟩
  · rw [hcount, hminus, hcap]
    omega
  · rw [hcount, hminus]
    omega

end Chains

end HashTable
