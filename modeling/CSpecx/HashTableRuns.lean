import CSpecx.HashTable
import Mathlib.Algebra.BigOperators.Group.Finset.Piecewise

/-!
# Runs of the hash table

One thread calls `htable_insert`, `htable_lookup`, `htable_random` and
`htable_delete` in any order. The nodes that were inserted and not yet deleted
are kept beside the table, most recent first. Loops along a chain carry a bound
of their own, since `size` counts modulo 2^32 only.
-/

namespace HashTable

open CExec LinkedChain

/-- `randu64r` on a value of `randu64`. -/
def randu64r (lower upper draw : Nat) : Outcome Nat := do
  assert (lower ≤ upper)
  if upper = lower then
    .ok lower
  else
    .ok (lower + draw % 2 ^ 64 * (upper - lower + 1) / 2 ^ 64)

def randu32r (lower upper draw : Nat) : Outcome Nat := do
  assert (lower ≤ upper)
  if upper = lower then
    .ok lower
  else do
    let r ← randu64r lower upper draw
    .ok (u32 r)

section Operations

variable {N : Type}

/-- `htable_lookup` with a bound on the chain. -/
def lookupWithin (fuel : Nat) (t : HTable N) (key : Key N) : Outcome (Option (Link N)) := do
  assert (0 < t.cap)
  lookupLoop t key fuel (.bucket (key.hcode % t.cap))

/-- The inner loop of `htable_random`: the next index, or the link to return. -/
def randomChain (t : HTable N) (targetIdx : Nat) : Nat → Nat → Link N → Outcome (Nat ⊕ Link N)
  | 0, _, _ => .error .fuel
  | fuel + 1, idx, link =>
    match t.deref link with
    | none => .ok (.inl idx)
    | some cur =>
      if idx = targetIdx then .ok (.inr link)
      else randomChain t targetIdx fuel (u32 (idx + 1)) (.next cur)

/-- The outer loop of `htable_random`. -/
def randomTable (t : HTable N) (targetIdx fuel : Nat) : List Nat → Nat → Outcome (Option (Link N))
  | [], _ => .ok none
  | pos :: rest, idx => do
    match ← randomChain t targetIdx fuel idx (.bucket pos) with
    | .inr link => .ok (some link)
    | .inl idx => randomTable t targetIdx fuel rest idx

/-- `htable_random` with a bound on the chains. -/
def htableRandom (fuel : Nat) (t : HTable N) (draw : Nat) : Outcome (Option (Link N)) := do
  let targetIdx ← randu32r 0 (sub32 t.size 1) draw
  assert (0 < t.cap)
  randomTable t targetIdx fuel (List.range t.cap) 0

/-- The table, the nodes in it, and the link that the last call returned. -/
structure Session (N : Type) where
  t : HTable N
  stored : List N
  link : Option (Link N)

/-- One call. The caller sets `hcode` of a node before inserting it. -/
inductive Step [DecidableEq N] : Session N → Session N → Prop where
  | insert {s : Session N} {t' : HTable N} {n : N} {hcode : Nat} :
      n ∉ s.stored →
        htableInsert { s.t with hcode := Function.update s.t.hcode n hcode } n = .ok t' →
        Step s ⟨t', n :: s.stored, none⟩
  | lookup {s : Session N} {fuel : Nat} {key : Key N} {link : Option (Link N)} :
      lookupWithin fuel s.t key = .ok link → Step s ⟨s.t, s.stored, link⟩
  | random {s : Session N} {fuel draw : Nat} {link : Option (Link N)} :
      htableRandom fuel s.t draw = .ok link → Step s ⟨s.t, s.stored, link⟩
  | delete {s : Session N} {t' : HTable N} {node : N} {link : Link N} :
      s.link = some link → htableDelete s.t link = .ok (node, t') →
        Step s ⟨t', s.stored.erase node, none⟩

inductive Reached [DecidableEq N] (cap : Nat) : Session N → Prop where
  | create {t : HTable N} {next : N → Option N} {hcode : N → Nat} :
      htableCreate cap next hcode = .ok t → Reached cap ⟨t, [], none⟩
  | next {s s' : Session N} : Reached cap s → Step s s' → Reached cap s'

end Operations

/-- The nodes of a bucket, most recent first. -/
def homed {N : Type} (t : HTable N) (stored : List N) (pos : Nat) : List N :=
  stored.filter fun n => t.hcode n % t.cap = pos

/-- A link that leads to a node of the table. -/
def Leads {N : Type} (t : HTable N) (stored : List N) (link : Link N) : Prop :=
  ∃ pos < t.cap, ∃ l₁ n l₂, homed t stored pos = l₁ ++ n :: l₂ ∧ link = linkBehind pos l₁

/-- What holds after every call. -/
structure Session.Kept {N : Type} (cap : Nat) (s : Session N) : Prop where
  cap : s.t.cap = cap
  nodup : s.stored.Nodup
  linked : Linked s.t (homed s.t s.stored)
  size : s.t.size = u32 s.stored.length
  leads : ∀ link ∈ s.link, Leads s.t s.stored link

section Draws

variable {lower upper draw r : Nat}

theorem randu64r_le (h : randu64r lower upper draw = .ok r) : r ≤ upper := by
  obtain ⟨_, hle, h⟩ := bind_eq_ok.mp h
  have hle : lower ≤ upper := assert_eq_ok_iff.mp hle
  split at h
  · obtain rfl := Except.ok.inj h
    exact hle
  · obtain rfl := Except.ok.inj h
    have hlt : draw % 2 ^ 64 * (upper - lower + 1) / 2 ^ 64 < upper - lower + 1 := by
      refine Nat.div_lt_of_lt_mul ?_
      exact Nat.mul_lt_mul_of_pos_right (Nat.mod_lt _ (by decide)) (Nat.succ_pos _)
    omega

theorem randu32r_ok (hle : lower ≤ upper) : ∃ r, randu32r lower upper draw = .ok r ∧ r ≤ upper := by
  rw [randu32r, assert_pos hle, ok_bind]
  split
  · exact ⟨lower, rfl, hle⟩
  · next hne =>
    have hdraw : randu64r lower upper draw =
        .ok (lower + draw % 2 ^ 64 * (upper - lower + 1) / 2 ^ 64) := by
      rw [randu64r, assert_pos hle, ok_bind, if_neg hne]
    rw [hdraw, ok_bind]
    exact ⟨_, rfl, Nat.le_trans (Nat.mod_le _ _) (randu64r_le hdraw)⟩

end Draws

section Loops

variable {N : Type} {t : HTable N} {chains : Nat → List N} {key : Key N} {target fuel idx : Nat}
  {l : List N} {start : Option N} {link : Link N} {ps : List Nat}

theorem lookupLoop_returns (hderef : t.deref link = start) (hpath : Path t.next start l)
    (hfuel : l.length < fuel) : ∃ res, lookupLoop t key fuel link = .ok res := by
  induction l generalizing link start fuel with
  | nil =>
    cases fuel with
    | zero => exact absurd hfuel (Nat.lt_irrefl 0)
    | succ fuel =>
      obtain rfl : start = none := hpath
      exact ⟨none, by simp only [lookupLoop, hderef]⟩
  | cons a l ih =>
    cases fuel with
    | zero => exact absurd hfuel (Nat.not_lt_zero _)
    | succ fuel =>
      obtain ⟨rfl, htail⟩ := hpath
      have next : t.deref (.next a) = t.next a := rfl
      obtain ⟨res, hrest⟩ := ih next htail (Nat.lt_of_succ_lt_succ hfuel)
      simp only [lookupLoop, hderef, hrest]
      split
      · exact ⟨_, rfl⟩
      · exact ⟨_, rfl⟩

theorem randomChain_returns (hderef : t.deref link = start) (hpath : Path t.next start l)
    (hfuel : l.length < fuel) : ∃ res, randomChain t target fuel idx link = .ok res := by
  induction l generalizing link start fuel idx with
  | nil =>
    cases fuel with
    | zero => exact absurd hfuel (Nat.lt_irrefl 0)
    | succ fuel =>
      obtain rfl : start = none := hpath
      exact ⟨.inl idx, by simp only [randomChain, hderef]⟩
  | cons a l ih =>
    cases fuel with
    | zero => exact absurd hfuel (Nat.not_lt_zero _)
    | succ fuel =>
      obtain ⟨rfl, htail⟩ := hpath
      have next : t.deref (.next a) = t.next a := rfl
      obtain ⟨res, hrest⟩ : ∃ res, randomChain t target fuel (u32 (idx + 1)) (.next a) = .ok res :=
        ih next htail (Nat.lt_of_succ_lt_succ hfuel)
      simp only [randomChain, hderef, hrest]
      split
      · exact ⟨_, rfl⟩
      · exact ⟨_, rfl⟩

/-- The index counts the nodes passed as long as it has not reached the target. -/
theorem randomChain_cases {res : Nat ⊕ Link N} (hderef : t.deref link = start)
    (hpath : Path t.next start l) (hidx : idx ≤ target) (htarget : target < 2 ^ 32)
    (hrun : randomChain t target fuel idx link = .ok res) :
    (res = .inl (idx + l.length) ∧ idx + l.length ≤ target) ∨
    ∃ l₁ n l₂, l = l₁ ++ n :: l₂ ∧ res = .inr (l₁.getLast?.elim link .next) := by
  induction l generalizing link start fuel idx with
  | nil =>
    cases fuel with
    | zero => cases hrun
    | succ fuel =>
      obtain rfl : start = none := hpath
      simp only [randomChain, hderef] at hrun
      exact Or.inl ⟨(Except.ok.inj hrun).symm, hidx⟩
  | cons a l ih =>
    cases fuel with
    | zero => cases hrun
    | succ fuel =>
      obtain ⟨rfl, htail⟩ := hpath
      simp only [randomChain, hderef] at hrun
      by_cases heq : idx = target
      · rw [if_pos heq] at hrun
        exact Or.inr ⟨[], a, l, rfl, (Except.ok.inj hrun).symm⟩
      · have hnext : u32 (idx + 1) = idx + 1 := u32_of_lt (by omega)
        have next : t.deref (.next a) = t.next a := rfl
        rw [if_neg heq, hnext] at hrun
        rcases ih next htail (by omega) hrun with ⟨rfl, hle⟩ | ⟨l₁, n, l₂, rfl, rfl⟩
        · rw [List.length_cons]
          refine Or.inl ⟨?_, by omega⟩
          rw [Nat.add_right_comm, Nat.add_assoc]
        · refine Or.inr ⟨a :: l₁, n, l₂, rfl, ?_⟩
          rw [List.getLast?_cons]
          cases l₁.getLast? <;> rfl

theorem randomTable_returns (linked : Linked t chains) (hps : ∀ pos ∈ ps, pos < t.cap)
    (hfuel : ∀ pos ∈ ps, (chains pos).length < fuel) :
    ∃ res, randomTable t target fuel ps idx = .ok res := by
  induction ps generalizing idx with
  | nil => exact ⟨none, rfl⟩
  | cons pos ps ih =>
    have hpath := linked.path pos (hps pos List.mem_cons_self)
    obtain ⟨res, hchain⟩ : ∃ res, randomChain t target fuel idx (.bucket pos) = .ok res :=
      randomChain_returns rfl hpath (hfuel pos List.mem_cons_self)
    rw [randomTable, hchain, ok_bind]
    cases res with
    | inl idx =>
      exact ih (fun q hq => hps q (List.mem_cons_of_mem pos hq))
        fun q hq => hfuel q (List.mem_cons_of_mem pos hq)
    | inr link => exact ⟨_, rfl⟩

theorem randomTable_cases {res : Option (Link N)} (linked : Linked t chains)
    (hps : ∀ pos ∈ ps, pos < t.cap) (hidx : idx ≤ target) (htarget : target < 2 ^ 32)
    (hrun : randomTable t target fuel ps idx = .ok res) :
    (res = none ∧ idx + (ps.map fun pos => (chains pos).length).sum ≤ target) ∨
    ∃ pos < t.cap, ∃ l₁ n l₂, chains pos = l₁ ++ n :: l₂ ∧ res = some (linkBehind pos l₁) := by
  induction ps generalizing idx with
  | nil => exact Or.inl ⟨(Except.ok.inj hrun).symm, hidx⟩
  | cons pos ps ih =>
    have hpos := hps pos List.mem_cons_self
    obtain ⟨walked, hchain, hrun⟩ := bind_eq_ok.mp hrun
    rcases randomChain_cases rfl (linked.path pos hpos) hidx htarget hchain with
      ⟨rfl, hle⟩ | ⟨l₁, n, l₂, hsplit, rfl⟩
    · rcases ih (fun q hq => hps q (List.mem_cons_of_mem pos hq)) hle hrun with ⟨rfl, hsum⟩ | hfound
      · rw [List.map_cons, List.sum_cons, ← Nat.add_assoc]
        exact Or.inl ⟨rfl, hsum⟩
      · exact Or.inr hfound
    · exact Or.inr ⟨pos, hpos, l₁, n, l₂, hsplit, (Except.ok.inj hrun).symm⟩

end Loops

section Runs

variable {N : Type} {s s' : Session N} {t t' : HTable N} {key : Key N}
  {cap target fuel draw pos : Nat}
  {stored l₁ l₂ : List N} {n : N} {link : Link N} {res : Option (Link N)}

theorem Leads.deref (leads : Leads t stored link) (linked : Linked t (homed t stored)) :
    ∃ n ∈ stored, t.deref link = some n := by
  obtain ⟨pos, hpos, l₁, n, l₂, hsplit, rfl⟩ := leads
  have hpath := linked.path pos hpos
  rw [hsplit] at hpath
  refine ⟨n, ?_, deref_linkBehind (path_append.mp hpath).1⟩
  have hn : n ∈ homed t stored pos := by
    rw [hsplit]
    exact List.mem_append_right l₁ List.mem_cons_self
  exact (List.mem_filter.mp hn).1

/-- The buckets together have all nodes. -/
theorem sum_homed (hcap : 0 < t.cap) :
    ((List.range t.cap).map fun pos => (homed t stored pos).length).sum = stored.length := by
  have hfinset : ((List.range t.cap).map fun pos => (homed t stored pos).length).sum =
      ∑ pos ∈ Finset.range t.cap, (homed t stored pos).length := rfl
  rw [hfinset]
  induction stored with
  | nil => exact Finset.sum_const_zero
  | cons n stored ih =>
    have hone : ∀ pos, (homed t (n :: stored) pos).length =
        (homed t stored pos).length + if t.hcode n % t.cap = pos then 1 else 0 := by
      intro pos
      rw [homed, List.filter_cons]
      by_cases hn : t.hcode n % t.cap = pos
      · rw [if_pos (decide_eq_true hn), if_pos hn, List.length_cons]
        rfl
      · rw [if_neg (by simpa using hn), if_neg hn]
        rfl
    simp only [hone, Finset.sum_add_distrib, ih rfl, List.length_cons, Finset.sum_ite_eq,
      Finset.mem_range, Nat.mod_lt _ hcap, if_true]

theorem length_homed_le : (homed t stored pos).length ≤ stored.length := List.length_filter_le _ _

/-- Only nodes of the key's bucket match it. -/
theorem find?_homed :
    (homed t stored (key.hcode % t.cap)).find? (key.found t) = stored.find? (key.found t) := by
  rw [homed, List.find?_filter]
  congr 1
  funext n
  cases hfound : key.found t n with
  | false => exact decide_eq_false fun h => Bool.false_ne_true h.2
  | true =>
    have hcode : t.hcode n = key.hcode := by
      rw [Key.found, Bool.and_eq_true] at hfound
      exact of_decide_eq_true hfound.1
    rw [hcode]
    exact decide_eq_true ⟨decide_eq_true rfl, rfl⟩

theorem Session.Kept.lookup (kept : s.Kept cap) (hrun : lookupWithin fuel s.t key = .ok res) :
    res.map s.t.deref = (s.stored.find? (key.found s.t)).map some ∧
      ∀ link ∈ res, Leads s.t s.stored link := by
  have hpos := Nat.mod_lt key.hcode kept.linked.cap
  have hpath := kept.linked.path _ hpos
  rw [lookupWithin, assert_pos kept.linked.cap, ok_bind] at hrun
  rw [← find?_homed]
  rcases lookupLoop_cases rfl hpath hrun with ⟨rfl, hall⟩ | ⟨l₁, n, l₂, hsplit, hskip, hfound, rfl⟩
  · have hnone : (homed s.t s.stored (key.hcode % s.t.cap)).find? (key.found s.t) = none :=
      List.find?_eq_none.mpr fun n hn => by
        simp only [hall n hn, Bool.false_eq_true, not_false_eq_true]
    rw [hnone]
    exact ⟨rfl, fun _ hlink => by cases hlink⟩
  · have hsome : (homed s.t s.stored (key.hcode % s.t.cap)).find? (key.found s.t) = some n :=
      List.find?_eq_some_iff_append.mpr
        ⟨hfound, l₁, l₂, hsplit, fun m hm => by rw [hskip m hm]; rfl⟩
    have hlink : linkBehind (key.hcode % s.t.cap) l₁ = l₁.getLast?.elim (.bucket _) .next := rfl
    rw [hsplit] at hpath
    have hderef := deref_linkBehind (path_append.mp hpath).1
    rw [hsome]
    refine ⟨?_, fun link h => ?_⟩
    · rw [Option.map_some, Option.map_some, ← hlink, hderef]
    · obtain rfl := Option.some.inj h
      exact ⟨_, hpos, l₁, n, l₂, hsplit, rfl⟩

theorem Session.Kept.random (kept : s.Kept cap) (hrun : htableRandom fuel s.t draw = .ok res) :
    (res = none ↔ s.stored = []) ∧ ∀ link ∈ res, Leads s.t s.stored link := by
  obtain ⟨target, hdraw, hle⟩ : ∃ r, randu32r 0 (sub32 s.t.size 1) draw = .ok r ∧ _ :=
    randu32r_ok (Nat.zero_le _)
  rw [htableRandom, hdraw, ok_bind, assert_pos kept.linked.cap, ok_bind] at hrun
  have hupper : sub32 s.t.size 1 < 2 ^ 32 := Nat.mod_lt _ (by decide)
  rcases randomTable_cases kept.linked (fun _ h => List.mem_range.mp h) (Nat.zero_le target)
      (by omega) hrun with ⟨rfl, hsum⟩ | ⟨pos, hpos, l₁, n, l₂, hsplit, rfl⟩
  · rw [sum_homed kept.linked.cap, Nat.zero_add] at hsum
    refine ⟨iff_of_true rfl ?_, fun _ hlink => by cases hlink⟩
    -- the draw stays below the number of nodes, also when the counter has wrapped to zero
    have hsize := kept.size
    rw [hsize, sub32, u32] at hle
    exact List.eq_nil_of_length_eq_zero (by omega)
  · have leads : Leads s.t s.stored (linkBehind pos l₁) := ⟨pos, hpos, l₁, n, l₂, hsplit, rfl⟩
    obtain ⟨m, hm, -⟩ := leads.deref kept.linked
    refine ⟨iff_of_false (fun h => by cases h) (List.ne_nil_of_mem hm), fun link h => ?_⟩
    obtain rfl := Option.some.inj h
    exact leads

theorem Session.Kept.lookup_returns (kept : s.Kept cap) :
    ∃ fuel res, lookupWithin fuel s.t key = .ok res := by
  have hpath := kept.linked.path _ (Nat.mod_lt key.hcode kept.linked.cap)
  have hlength : (homed s.t s.stored (key.hcode % s.t.cap)).length < s.stored.length + 1 :=
    Nat.lt_succ_of_le length_homed_le
  obtain ⟨res, hrun⟩ : ∃ res, lookupLoop s.t key (s.stored.length + 1)
      (.bucket (key.hcode % s.t.cap)) = .ok res := lookupLoop_returns rfl hpath hlength
  exact ⟨_, res, by rw [lookupWithin, assert_pos kept.linked.cap, ok_bind, hrun]⟩

theorem Session.Kept.random_returns (kept : s.Kept cap) :
    ∃ fuel res, htableRandom fuel s.t draw = .ok res := by
  obtain ⟨target, hdraw, -⟩ : ∃ r, randu32r 0 (sub32 s.t.size 1) draw = .ok r ∧ _ :=
    randu32r_ok (Nat.zero_le _)
  obtain ⟨res, hrun⟩ : ∃ res, randomTable s.t target (s.stored.length + 1) (List.range s.t.cap) 0 =
      .ok res :=
    randomTable_returns kept.linked (fun _ h => List.mem_range.mp h)
      fun pos _ => Nat.lt_succ_of_le length_homed_le
  exact ⟨_, res, by rw [htableRandom, hdraw, ok_bind, assert_pos kept.linked.cap, ok_bind, hrun]⟩

variable [DecidableEq N]

/-- The link of the call before leads to a node, and deleting through it gives that node. -/
theorem Session.Kept.delete_returns (kept : s.Kept cap) (hlink : s.link = some link) :
    ∃ n t', s.t.deref link = some n ∧ htableDelete s.t link = .ok (n, t') ∧
      Session.Kept cap ⟨t', s.stored.erase n, none⟩ := by
  obtain ⟨pos, hpos, l₁, n, l₂, hsplit, rfl⟩ := kept.leads link hlink
  have hpath := kept.linked.path pos hpos
  have hchain := kept.linked.nodup pos hpos
  have hn : n ∈ homed s.t s.stored pos := by
    rw [hsplit]
    exact List.mem_append_right l₁ List.mem_cons_self
  obtain ⟨hmem, hhome⟩ := List.mem_filter.mp hn
  obtain ⟨t', hdelete, hcap, hhcode, hsize, -, linked⟩ :=
    htableDelete_linked kept.linked hpos hsplit
  rw [hsplit] at hpath hchain
  have hfront : n ∉ l₁ :=
    (List.nodup_middle.mp hchain |> List.nodup_cons.mp).1 ∘ List.mem_append_left l₂
  have hhomed : homed t' (s.stored.erase n) =
      Function.update (homed s.t s.stored) pos (l₁ ++ l₂) := by
    funext q
    have herase : homed t' (s.stored.erase n) q = (homed s.t s.stored q).erase n := by
      rw [homed, homed, hhcode, hcap, List.erase_filter]
    rw [herase]
    by_cases hq : q = pos
    · rw [hq, hsplit, Function.update_self, List.erase_append_right _ hfront, List.erase_cons_head]
    · rw [Function.update_of_ne hq]
      refine List.erase_of_not_mem fun hnq => hq ?_
      exact (of_decide_eq_true (List.mem_filter.mp hnq).2).symm.trans (of_decide_eq_true hhome)
  refine ⟨n, t', deref_linkBehind (path_append.mp hpath).1, hdelete, hcap.trans kept.cap,
    kept.nodup.erase n, hhomed ▸ linked, ?_, fun _ h => by cases h⟩
  have hlength := List.length_erase_of_mem hmem
  have hpositive := List.length_pos_of_mem hmem
  show t'.size = u32 (s.stored.erase n).length
  rw [hsize, kept.size, hlength, sub32, u32, u32]
  omega

theorem Session.Kept.insert {hcode : Nat} (kept : s.Kept cap) (hn : n ∉ s.stored) :
    ∃ t', htableInsert { s.t with hcode := Function.update s.t.hcode n hcode } n = .ok t' ∧
      Session.Kept cap ⟨t', n :: s.stored, none⟩ := by
  obtain ⟨t, ht⟩ : ∃ t, t = { s.t with hcode := Function.update s.t.hcode n hcode } := ⟨_, rfl⟩
  have hother : ∀ m ∈ s.stored, t.hcode m = s.t.hcode m := by
    intro m hm
    have hne : m ≠ n := fun heq => hn (heq ▸ hm)
    rw [ht]
    exact Function.update_of_ne hne _ _
  have hcap : t.cap = s.t.cap := ht ▸ rfl
  have hsame : homed t s.stored = homed s.t s.stored := by
    funext pos
    refine List.filter_congr fun m hm => ?_
    rw [hother m hm, hcap]
  have linked : Linked t (homed t s.stored) := by
    rw [hsame]
    refine ⟨hcap ▸ kept.linked.cap, fun pos hpos => ?_, fun pos hpos m hm => ?_, fun pos hpos => ?_⟩
    · rw [ht] at hpos ⊢
      exact kept.linked.path pos hpos
    · rw [hother m (List.mem_filter.mp hm).1, hcap]
      exact kept.linked.home pos (hcap ▸ hpos) m hm
    · exact kept.linked.nodup pos (hcap ▸ hpos)
  obtain ⟨t', hinsert, hcap', hhcode, hsize, linked'⟩ :=
    htableInsert_linked linked fun q _ hq => hn (List.mem_filter.mp hq).1
  have hhomed : homed t' (n :: s.stored) = Function.update (homed t s.stored) (t.hcode n % t.cap)
      (n :: homed t s.stored (t.hcode n % t.cap)) := by
    funext q
    rw [homed, List.filter_cons, hhcode, hcap']
    by_cases hq : q = t.hcode n % t.cap
    · rw [hq, Function.update_self, if_pos (decide_eq_true rfl)]
      rfl
    · rw [Function.update_of_ne hq, if_neg (by simpa using Ne.symm hq)]
      rfl
  rw [← ht]
  refine ⟨t', hinsert, hcap'.trans (hcap.trans kept.cap), List.nodup_cons.mpr ⟨hn, kept.nodup⟩,
    hhomed ▸ linked', ?_, fun _ h => by cases h⟩
  have hold : t.size = u32 s.stored.length := by
    rw [ht]
    exact kept.size
  rw [hsize, hold, u32, u32, Nat.mod_add_mod]
  rfl

theorem Step.kept (kept : s.Kept cap) (step : Step s s') : s'.Kept cap := by
  cases step with
  | insert hn hinsert =>
    obtain ⟨t', hinsert', kept'⟩ := kept.insert hn
    rwa [← Except.ok.inj (hinsert'.symm.trans hinsert)]
  | lookup hlookup =>
    exact ⟨kept.cap, kept.nodup, kept.linked, kept.size, (kept.lookup hlookup).2⟩
  | random hrandom =>
    exact ⟨kept.cap, kept.nodup, kept.linked, kept.size, (kept.random hrandom).2⟩
  | delete hlink hdelete =>
    obtain ⟨n, t', -, hdelete', kept'⟩ := kept.delete_returns hlink
    obtain ⟨rfl, rfl⟩ := ok_pair_inj (hdelete'.symm.trans hdelete)
    exact kept'

theorem Reached.kept (reached : Reached cap s) : s.Kept cap := by
  induction reached with
  | create hcreate =>
    obtain ⟨⟨hcap, -⟩, rfl⟩ := htableCreate_iff.mp hcreate
    refine ⟨rfl, List.nodup_nil, ⟨hcap, fun _ _ => rfl, ?_, ?_⟩, rfl, ?_⟩
    · intro _ _ m hm
      cases hm
    · intro _ _
      exact List.nodup_nil
    · intro _ hlink
      cases hlink
  | next _ step ih => exact step.kept ih

theorem Reached.created (reached : Reached cap s) : 0 < cap ∧ tableHeader + 8 * cap < 2 ^ 32 := by
  induction reached with
  | create hcreate => exact (htableCreate_iff.mp hcreate).1
  | next _ _ ih => exact ih

end Runs

/-- What a state of a run with `cap` buckets shows: every stored node once, in its bucket and
most recent first, their number in 32 bits, and the answers of `htable_lookup` and
`htable_random`. -/
def Shows {N : Type} (cap : Nat) (s : Session N) : Prop :=
  s.stored.Nodup ∧
    (∀ pos < cap, Path s.t.next (s.t.table pos)
      (s.stored.filter fun n => s.t.hcode n % cap = pos)) ∧
    s.t.size = u32 s.stored.length ∧
    (∀ key, (∃ fuel res, lookupWithin fuel s.t key = .ok res) ∧
      ∀ fuel res, lookupWithin fuel s.t key = .ok res →
        res.map s.t.deref = (s.stored.find? (key.found s.t)).map some) ∧
    ∀ draw, (∃ fuel res, htableRandom fuel s.t draw = .ok res) ∧
      ∀ fuel res, htableRandom fuel s.t draw = .ok res → (res = none ↔ s.stored = []) ∧
        ∀ link ∈ res, ∃ n ∈ s.stored, s.t.deref link = some n

/-- A table whose size fits 32 bits is created, and in every state of every run it holds the
nodes that were inserted and not yet deleted. -/
theorem runs_keep_nodes {N : Type} [DecidableEq N] {cap : Nat} (hcap : 0 < cap)
    (hsize : tableHeader + 8 * cap < 2 ^ 32) :
    (∀ (next : N → Option N) (hcode : N → Nat), ∃ t, htableCreate cap next hcode = .ok t) ∧
      ∀ s : Session N, Reached cap s → Shows cap s := by
  refine ⟨fun next hcode => ⟨_, htableCreate_iff.mpr ⟨⟨hcap, hsize⟩, rfl⟩⟩, fun s reached => ?_⟩
  have kept := reached.kept
  refine ⟨kept.nodup, fun pos hpos => ?_, kept.size, fun key => ?_, fun draw => ?_⟩
  · have hpath := kept.linked.path pos (kept.cap.symm ▸ hpos)
    rwa [homed, kept.cap] at hpath
  · exact ⟨kept.lookup_returns, fun fuel res hrun => (kept.lookup hrun).1⟩
  · refine ⟨kept.random_returns, fun fuel res hrun => ?_⟩
    obtain ⟨hnone, hleads⟩ := kept.random hrun
    exact ⟨hnone, fun link hlink => (hleads link hlink).deref kept.linked⟩

/-- The key that node 9 is found by. -/
def nineKey : Key Nat := ⟨3, some fun n => n = 9⟩

/-- Three nodes in the second of two buckets, and the middle one is looked up and deleted. -/
theorem chain_of_two_reached : ∃ s : Session Nat, Reached 2 s ∧ s.stored = [11, 7] ∧
    s.t.table 1 = some 11 ∧ s.t.next 11 = some 7 ∧ s.t.next 7 = none ∧ s.t.size = 2 := by
  obtain ⟨s₀, reached₀, hs₀⟩ : ∃ s : Session Nat, Reached 2 s ∧
      s = ⟨⟨2, 0, fun _ => none, fun _ => none, fun _ => 0⟩, [], none⟩ :=
    ⟨_, .create rfl, rfl⟩
  subst hs₀
  have insert : ∀ (s : Session Nat) (n hcode : Nat) (t' : HTable Nat), n ∉ s.stored →
      htableInsert { s.t with hcode := Function.update s.t.hcode n hcode } n = .ok t' →
        Step s ⟨t', n :: s.stored, none⟩ := fun _ _ _ _ => .insert
  have lookup : ∀ (s : Session Nat) (link : Option (Link Nat)),
      lookupWithin 3 s.t nineKey = .ok link → Step s ⟨s.t, s.stored, link⟩ := fun _ _ => .lookup
  have first := reached₀.next (insert _ 7 5 _ List.not_mem_nil rfl)
  have second := first.next (insert _ 9 3 _ (by decide) rfl)
  have third := second.next (insert _ 11 1 _ (by decide) rfl)
  have found := third.next (lookup _ _ rfl)
  exact ⟨_, found.next (.delete rfl rfl), by decide, rfl, rfl, rfl, rfl⟩

/-- A chain of two after a deletion. -/
theorem runs_keep_two_nodes : ∃ s : Session Nat, s.stored = [11, 7] ∧
    s.t.table 1 = some 11 ∧ s.t.next 11 = some 7 ∧ Reached 2 s ∧ Shows 2 s := by
  obtain ⟨s, reached, hstored, hfirst, hsecond, -⟩ := chain_of_two_reached
  exact ⟨s, hstored, hfirst, hsecond, reached,
    (runs_keep_nodes (show 0 < 2 by decide) (by decide)).2 s reached⟩

theorem reached_of_length (k : Nat) :
    ∃ s : Session Nat, Reached 1 s ∧ s.stored.length = k ∧ ∀ n ∈ s.stored, n < k := by
  induction k with
  | zero =>
    have hcreate : htableCreate 1 (fun _ : Nat => none) (fun _ => 0) =
        .ok ⟨1, 0, fun _ => none, fun _ => none, fun _ => 0⟩ := rfl
    exact ⟨_, .create hcreate, rfl, fun n hn => absurd hn List.not_mem_nil⟩
  | succ k ih =>
    obtain ⟨s, reached, hlength, hlt⟩ := ih
    have hk : k ∉ s.stored := fun hk => Nat.lt_irrefl k (hlt k hk)
    obtain ⟨t', hinsert, -⟩ :
        ∃ t', htableInsert { s.t with hcode := Function.update s.t.hcode k 0 } k =
        .ok t' ∧ _ := reached.kept.insert hk
    refine ⟨⟨t', k :: s.stored, none⟩, reached.next (.insert hk hinsert), ?_, fun n hn => ?_⟩
    · rw [List.length_cons, hlength]
    · rcases List.mem_cons.mp hn with rfl | hn
      · exact Nat.lt_succ_self n
      · exact Nat.lt_succ_of_lt (hlt n hn)

/-- After 2^32 insertions the counter is zero, and a table of 2^29 - 2 buckets is not created:
its size is a multiple of 2^32. -/
theorem size_wraps :
    (¬ ∀ (N : Type) [DecidableEq N] (cap : Nat) (s : Session N), Reached cap s →
      s.t.size = s.stored.length) ∧
    ∀ (next : Nat → Option Nat) (hcode : Nat → Nat),
      htableCreate (2 ^ 29 - 2) next hcode = .error .assertion := by
  constructor
  · intro h
    obtain ⟨s, reached, hlength, -⟩ := reached_of_length (2 ^ 32)
    have hsize := h Nat 1 s reached
    rw [reached.kept.size, hlength] at hsize
    exact absurd hsize (by decide)
  · exact fun _ _ => rfl

end HashTable
