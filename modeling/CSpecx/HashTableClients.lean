import CSpecx.HashTable

/-!
# Two clients of the hash table

Each client looks a node up and deletes through the link it got. The link
outlives the latch: it goes stale if the node it points into is deleted first,
and a delete through a stale link leaves its node in the table.
-/

namespace HashTable

open CExec LinkedChain

inductive Client where
  | left
  | right
  deriving DecidableEq, Repr

def Client.other : Client → Client
  | left => right
  | right => left

/-- What a client has done and got. -/
inductive Phase (N : Type) where
  | start
  | found (link : Option (Link N))
  | finished (node : N)

structure System (N : Type) where
  t : HTable N
  phase : Client → Phase N

section Calls

variable {N : Type} [DecidableEq N]

/-- The next call of a client. -/
def call (keys : Client → Key N) (s : System N) (c : Client) : Outcome (System N) :=
  match s.phase c with
  | .start => do
    let link ← htableLookup s.t (keys c)
    .ok { s with phase := Function.update s.phase c (.found link) }
  | .found none => .error .undefined
  | .found (some link) => do
    let (node, t) ← htableDelete s.t link
    .ok ⟨t, Function.update s.phase c (.finished node)⟩
  | .finished _ => .ok s

def calls (keys : Client → Key N) : List Client → System N → Outcome (System N)
  | [], s => .ok s
  | c :: cs, s => do
    let s ← call keys s c
    calls keys cs s

end Calls

/-- The order of the calls of both clients. -/
def Interleaving (order : List Client) : Prop := order.Perm [.left, .left, .right, .right]

instance (order : List Client) : Decidable (Interleaving order) :=
  inferInstanceAs (Decidable (order.Perm [.left, .left, .right, .right]))

/-- The lookup leads to the node. -/
def Finds {N : Type} (t : HTable N) (key : Key N) (n : N) : Prop :=
  ∃ link, htableLookup t key = .ok (some link) ∧ t.deref link = some n

/-- `size` is the number of reachable nodes. -/
def Counts {N : Type} (t : HTable N) : Prop :=
  ∃ l : List N, l.Nodup ∧ (∀ n, n ∈ l ↔ Stored t n) ∧ t.size = l.length

/-- Each client has got its node, and the table has lost these two and no other node. -/
def BothDeleted {N : Type} (t : HTable N) (nodes : Client → N) : Outcome (System N) → Prop
  | .error _ => False
  | .ok s => (∀ c, s.phase c = .finished (nodes c)) ∧
      (∀ n, Stored s.t n ↔ Stored t n ∧ ∀ c, n ≠ nodes c) ∧ Counts s.t

/-- Both lookups come first, and the node that is deleted first is followed by the other one. -/
def Hazard {N : Type} (t : HTable N) (nodes : Client → N) (order : List Client) : Prop :=
  ∃ a b, order = [a, a.other, b, b.other] ∧ t.next (nodes b) = some (nodes b.other)

/-- The place of a node that a key finds: no node in front of it matches. -/
structure Seeks {N : Type} (t : HTable N) (chains : Nat → List N) (key : Key N) (n : N)
    (l₁ l₂ : List N) : Prop where
  split : chains (key.hcode % t.cap) = l₁ ++ n :: l₂
  skip : ∀ m ∈ l₁, key.found t m = false
  found : key.found t n = true

section Links

variable {N : Type} {t t' : HTable N} {chains : Nat → List N} {key key' : Key N} {pos fuel : Nat}
  {x y n : N} {l l₁ l₂ k₁ k₂ : List N} {start : Option N} {link link' : Link N}

theorem Finds.seeks (finds : Finds t key n) (chained : Chained t chains) :
    ∃ l₁ l₂, Seeks t chains key n l₁ l₂ := by
  obtain ⟨link, hlookup, hlink⟩ := finds
  have hpath := chained.path _ (Nat.mod_lt key.hcode chained.cap)
  rw [htableLookup, assert_pos chained.cap, ok_bind] at hlookup
  rcases lookupLoop_cases rfl hpath hlookup with
    ⟨hnone, -⟩ | ⟨l₁, m, l₂, hsplit, hskip, hfound, hres⟩
  · cases hnone
  · obtain rfl := Option.some.inj hres
    rw [hsplit] at hpath
    have hderef := deref_linkBehind (path_append.mp hpath).1
    obtain rfl := Option.some.inj (hderef.symm.trans hlink)
    exact ⟨l₁, l₂, hsplit, hskip, hfound⟩

theorem Seeks.stored (seeks : Seeks t chains key n l₁ l₂) (chained : Chained t chains) :
    Stored t n := by
  refine chained.stored_iff.mpr ⟨_, Nat.mod_lt key.hcode chained.cap, ?_⟩
  rw [seeks.split]
  exact List.mem_append_right _ List.mem_cons_self

theorem Seeks.lookup (seeks : Seeks t chains key n l₁ l₂) (chained : Chained t chains) :
    htableLookup t key = .ok (some (linkBehind (key.hcode % t.cap) l₁)) :=
  htableLookup_first chained seeks.split seeks.skip seeks.found

/-- The links behind two parts that end alike are equal. -/
theorem linkBehind_append (h : l₂ ≠ []) : linkBehind pos (l₁ ++ l₂) = linkBehind pos l₂ := by
  obtain ⟨init, p, rfl⟩ := (List.eq_nil_or_concat l₂).resolve_left h
  rw [List.concat_eq_append, ← List.append_assoc, linkBehind, linkBehind, List.getLast?_concat,
    List.getLast?_concat]

theorem Chained.next_eq (chained : Chained t chains) (hpos : pos < t.cap)
    (hsplit : chains pos = l₁ ++ x :: l₂) : t.next x = l₂.head? := by
  have hpath := chained.path pos hpos
  rw [hsplit] at hpath
  have htail := (path_append.mp hpath).2
  cases l₂ with
  | nil => exact htail
  | cons a l => exact htail.1

/-- The place of a node after another one is taken out of its chain. -/
theorem Seeks.removed [DecidableEq N] (seeks : Seeks t chains key' y k₁ k₂) (hne : x ≠ y)
    (chained : Chained t chains) (hpos : pos < t.cap) (hsplit : chains pos = l₁ ++ x :: l₂)
    (hcap : t'.cap = t.cap) (hhcode : t'.hcode = t.hcode) :
    ∃ k₁' k₂', Seeks t' (Function.update chains pos (l₁ ++ l₂)) key' y k₁' k₂' ∧
      (t.next x ≠ some y →
        linkBehind (key'.hcode % t.cap) k₁' = linkBehind (key'.hcode % t.cap) k₁) := by
  have hfound : ∀ m, key'.found t' m = key'.found t m :=
    fun m => by rw [Key.found, Key.found, hhcode]
  -- it is enough to give the new split, whose front is a part of the old one
  have hplace : ∀ k₁' k₂',
      Function.update chains pos (l₁ ++ l₂) (key'.hcode % t.cap) = k₁' ++ y :: k₂' →
      (∀ m ∈ k₁', m ∈ k₁) → Seeks t' (Function.update chains pos (l₁ ++ l₂)) key' y k₁' k₂' :=
    fun k₁' k₂' hnew hsub => ⟨by rw [hcap, hnew],
      fun m hm => (hfound m).trans (seeks.skip m (hsub m hm)), by rw [hfound]; exact seeks.found⟩
  by_cases hhome : key'.hcode % t.cap = pos
  · have hboth : l₁ ++ x :: l₂ = k₁ ++ y :: k₂ := by
      rw [← hsplit, ← hhome, seeks.split]
    have hnew : Function.update chains pos (l₁ ++ l₂) (key'.hcode % t.cap) = l₁ ++ l₂ := by
      rw [hhome, Function.update_self]
    rcases List.append_eq_append_iff.mp hboth with ⟨mid, hk₁, hmid⟩ | ⟨mid, hl₁, hmid⟩
    · cases mid with
      | nil => exact absurd (List.cons.inj hmid).1 hne
      | cons z mid =>
        obtain ⟨rfl, rfl⟩ := List.cons.inj hmid
        refine ⟨l₁ ++ mid, k₂, hplace _ _ ?_ fun m hm => ?_, fun hnext => ?_⟩
        · rw [hnew]
          exact (List.append_assoc l₁ mid (y :: k₂)).symm
        · rw [hk₁]
          rcases List.mem_append.mp hm with hm | hm
          · exact List.mem_append_left _ hm
          · exact List.mem_append_right _ (List.mem_cons_of_mem x hm)
        · have hmid : mid ≠ [] := by
            rintro rfl
            exact hnext (chained.next_eq hpos hsplit)
          have hdrop : linkBehind (key'.hcode % t.cap) ([x] ++ mid) =
              linkBehind (key'.hcode % t.cap) mid := linkBehind_append hmid
          rw [hk₁, linkBehind_append hmid, linkBehind_append (List.cons_ne_nil x mid)]
          exact hdrop.symm
    · cases mid with
      | nil => exact absurd (List.cons.inj hmid).1.symm hne
      | cons z mid =>
        obtain ⟨rfl, rfl⟩ := List.cons.inj hmid
        refine ⟨k₁, mid ++ l₂, hplace _ _ ?_ fun m hm => hm, fun _ => rfl⟩
        rw [hnew, hl₁, List.append_assoc, List.cons_append]
  · refine ⟨k₁, k₂, hplace _ _ ?_ fun m hm => hm, fun _ => rfl⟩
    rw [Function.update_of_ne hhome]
    exact seeks.split

/-- The link to the successor of a node points into that node. -/
theorem Seeks.link_next (seeks : Seeks t chains key' y k₁ k₂) (chained : Chained t chains)
    (hpos : pos < t.cap) (hsplit : chains pos = l₁ ++ x :: l₂) (hnext : t.next x = some y) :
    linkBehind (key'.hcode % t.cap) k₁ = .next x := by
  obtain ⟨l, rfl⟩ : ∃ l, l₂ = y :: l := by
    have hhead := (chained.next_eq hpos hsplit).symm.trans hnext
    exact List.head?_eq_some_iff.mp hhead
  have hhome' := Nat.mod_lt key'.hcode chained.cap
  have hy : y ∈ chains pos := by
    rw [hsplit]
    exact List.mem_append_right _ (List.mem_cons_of_mem x List.mem_cons_self)
  have hy' : y ∈ chains (key'.hcode % t.cap) := by
    rw [seeks.split]
    exact List.mem_append_right _ List.mem_cons_self
  have hhome : key'.hcode % t.cap = pos :=
    (chained.home _ hhome' y hy').symm.trans (chained.home pos hpos y hy)
  have hnodup := chained.nodup _ hhome'
  rw [seeks.split] at hnodup
  obtain ⟨-, hback, hfront⟩ := List.nodup_append.mp hnodup
  have hyfront : y ∉ k₁ := fun hy => hfront y hy y List.mem_cons_self rfl
  have hyback : y ∉ k₂ := (List.nodup_cons.mp hback).1
  have hboth : k₁ ++ y :: k₂ = (l₁ ++ [x]) ++ y :: l := by
    rw [← seeks.split, hhome, hsplit, List.append_assoc]
    rfl
  obtain ⟨rfl, -⟩ := (List.append_cons_inj_of_notMem hyfront hyback).mp hboth
  rw [linkBehind, List.getLast?_concat]
  rfl

theorem Chained.stored_update [DecidableEq N] (chained : Chained t chains) (hpos : pos < t.cap)
    (hsplit : chains pos = l₁ ++ x :: l₂)
    (chained' : Chained t' (Function.update chains pos (l₁ ++ l₂))) (hcap : t'.cap = t.cap) :
    Stored t' n ↔ Stored t n ∧ n ≠ x := by
  have hnodup := chained.nodup pos hpos
  rw [hsplit] at hnodup
  have hx : x ∉ l₁ ++ l₂ := (List.nodup_cons.mp (List.perm_middle.nodup_iff.mp hnodup)).1
  rw [chained.stored_iff, chained'.stored_iff, hcap]
  constructor
  · rintro ⟨q, hq, hn⟩
    by_cases hqpos : q = pos
    · rw [hqpos, Function.update_self] at hn
      refine ⟨⟨pos, hpos, ?_⟩, fun heq => hx (heq ▸ hn)⟩
      rw [hsplit]
      exact List.perm_middle.mem_iff.mpr (List.mem_cons_of_mem x hn)
    · rw [Function.update_of_ne hqpos] at hn
      refine ⟨⟨q, hq, hn⟩, ?_⟩
      rintro rfl
      have hmem : n ∈ chains pos := hsplit ▸ List.mem_append_right _ List.mem_cons_self
      exact hqpos ((chained.home q hq n hn).symm.trans (chained.home pos hpos n hmem))
  · rintro ⟨⟨q, hq, hn⟩, hne⟩
    refine ⟨q, hq, ?_⟩
    by_cases hqpos : q = pos
    · rw [hqpos, hsplit] at hn
      rw [hqpos, Function.update_self]
      exact (List.mem_cons.mp (List.perm_middle.mem_iff.mp hn)).resolve_left hne
    · rwa [Function.update_of_ne hqpos]

theorem Chained.counts (chained : Chained t chains) : Counts t := by
  refine ⟨(List.range t.cap).flatMap chains, ?_, fun n => ?_, ?_⟩
  · refine List.nodup_flatMap.mpr ⟨fun q hq => chained.nodup q (List.mem_range.mp hq), ?_⟩
    refine List.Pairwise.imp_of_mem ?_ List.nodup_range
    intro p q hp hq hne m hmp hmq
    exact hne ((chained.home p (List.mem_range.mp hp) m hmp).symm.trans
      (chained.home q (List.mem_range.mp hq) m hmq))
  · simp only [List.mem_flatMap, List.mem_range, chained.stored_iff]
  · rw [chained.size, List.length_flatMap]
    rfl

/-- A delete through the link of a lookup that is still up to date. -/
theorem Seeks.delete [DecidableEq N] (seeks : Seeks t chains key n l₁ l₂)
    (chained : Chained t chains) :
    ∃ t', htableDelete t (linkBehind (key.hcode % t.cap) l₁) = .ok (n, t') ∧
      Chained t' (Function.update chains (key.hcode % t.cap) (l₁ ++ l₂)) ∧ t'.cap = t.cap ∧
      t'.hcode = t.hcode ∧ t'.next n = t.next n ∧ ∀ m, Stored t' m ↔ Stored t m ∧ m ≠ n := by
  have hpos := Nat.mod_lt key.hcode chained.cap
  obtain ⟨t', hdelete, chained', hcap, hhcode, hnext⟩ :=
    htableDelete_chained chained hpos seeks.split
  exact ⟨t', hdelete, chained', hcap, hhcode, hnext,
    fun m => chained.stored_update hpos seeks.split chained' hcap⟩

/-- A delete through a link into a node outside the table leaves the chains as they are. -/
theorem htableDelete_stale [DecidableEq N] (hcap : 0 < t.cap) (hnext : t.next x = some y)
    (hx : ¬ Stored t x) :
    ∃ t', htableDelete t (.next x) = .ok (y, t') ∧ ∀ m, Stored t m → Stored t' m := by
  refine ⟨{ t.assign (t.next y) (.next x) with size := sub32 t.size 1 }, ?_, ?_⟩
  · rw [htableDelete, assert_pos hcap, ok_bind]
    simp only [HTable.deref, hnext]
  · rintro m ⟨pos, hpos, l, hpath, hm⟩
    refine ⟨pos, hpos, l, (path_congr fun q hq => ?_).mpr hpath, hm⟩
    have hne : q ≠ x := by
      rintro rfl
      exact hx ⟨pos, hpos, l, hpath, hq⟩
    exact Function.update_of_ne hne _ t.next

end Links

section Clients

variable {N : Type} [DecidableEq N] {t t' : HTable N} {chains : Nat → List N}
  {nodes : Client → N} {keys : Client → Key N} {order : List Client} {s : System N}
  {phase : Client → Phase N} {b c : Client} {n : N} {k₁ k₂ : List N} {link : Link N}

theorem Client.other_ne (c : Client) : c.other ≠ c := by cases c <;> exact Client.noConfusion

theorem Client.eq_or_other (b c : Client) : c = b ∨ c = b.other := by
  cases b <;> cases c <;> first | exact .inl rfl | exact .inr rfl

/-- Either one client has finished before the other one starts, or both lookups come first. -/
theorem Interleaving.shape (h : Interleaving order) :
    (∃ b, order = [b, b, b.other, b.other]) ∨ ∃ a b, order = [a, a.other, b, b.other] := by
  have hlen : order.length = 4 := h.length_eq
  have hcount : order.count .left = 2 := h.count_eq .left
  obtain ⟨c₁, order, rfl⟩ := List.exists_cons_of_length_eq_add_one hlen
  obtain ⟨c₂, order, rfl⟩ := List.exists_cons_of_length_eq_add_one (Nat.succ.inj hlen)
  obtain ⟨c₃, c₄, rfl⟩ := List.length_eq_two.mp (Nat.succ.inj (Nat.succ.inj hlen))
  cases c₁ <;> cases c₂ <;> cases c₃ <;> cases c₄ <;>
    first
    | exact absurd hcount (by decide)
    | exact .inl ⟨_, rfl⟩
    | exact .inr ⟨_, _, rfl⟩

theorem call_start {link : Option (Link N)} (hphase : s.phase c = .start)
    (hlookup : htableLookup s.t (keys c) = .ok link) :
    call keys s c = .ok { s with phase := Function.update s.phase c (.found link) } := by
  simp only [call, hphase, hlookup]
  rfl

theorem call_found (hphase : s.phase c = .found (some link))
    (hdelete : htableDelete s.t link = .ok (n, t')) :
    call keys s c = .ok ⟨t', Function.update s.phase c (.finished n)⟩ := by
  simp only [call, hphase, hdelete]
  rfl

/-- The last delete, through a link that is still up to date. -/
theorem last_delete (hdone : s.phase b = .finished (nodes b))
    (hphase : s.phase b.other = .found (some (linkBehind ((keys b.other).hcode % s.t.cap) k₁)))
    (chained : Chained s.t chains) (seeks : Seeks s.t chains (keys b.other) (nodes b.other) k₁ k₂)
    (hstored : ∀ m, Stored s.t m ↔ Stored t m ∧ m ≠ nodes b) :
    BothDeleted t nodes (calls keys [b.other] s) := by
  obtain ⟨t', hdelete, chained', -, -, -, hstored'⟩ := seeks.delete chained
  rw [calls, call_found hphase hdelete, ok_bind, calls]
  refine ⟨fun c => ?_, fun m => ?_, chained'.counts⟩
  · rcases Client.eq_or_other b c with rfl | rfl
    · exact (Function.update_of_ne (Client.other_ne c).symm _ _).trans hdone
    · exact Function.update_self _ _ _
  · rw [hstored', hstored]
    constructor
    · rintro ⟨⟨hm, hne⟩, hne'⟩
      refine ⟨hm, fun c => ?_⟩
      rcases Client.eq_or_other b c with rfl | rfl
      · exact hne
      · exact hne'
    · rintro ⟨hm, hne⟩
      exact ⟨⟨hm, hne b⟩, hne b.other⟩

/-- One client after the other. -/
theorem sequential_deletes (chained : Chained t chains) (hne : nodes b ≠ nodes b.other)
    (finds : ∀ c, Finds t (keys c) (nodes c)) :
    BothDeleted t nodes (calls keys [b, b, b.other, b.other] ⟨t, fun _ => .start⟩) := by
  obtain ⟨l₁, l₂, seeks⟩ := (finds b).seeks chained
  obtain ⟨k₁, k₂, seeks'⟩ := (finds b.other).seeks chained
  obtain ⟨t', hdelete, chained', hcap, hhcode, -, hstored⟩ := seeks.delete chained
  obtain ⟨k₁', k₂', still, -⟩ := seeks'.removed hne chained (Nat.mod_lt _ chained.cap) seeks.split
    hcap hhcode
  rw [calls, call_start rfl (seeks.lookup chained), ok_bind, calls,
    call_found (Function.update_self _ _ _) hdelete, ok_bind, calls,
    call_start _ (still.lookup chained'), ok_bind]
  · refine last_delete ?_ (Function.update_self _ _ _) chained' still hstored
    exact (Function.update_of_ne (Client.other_ne b).symm _ _).trans (Function.update_self _ _ _)
  · exact (Function.update_of_ne (Client.other_ne b) _ _).trans
      (Function.update_of_ne (Client.other_ne b) _ _)

/-- Both lookups leave both clients with their links. -/
theorem lookups (a : Client) (chained : Chained t chains)
    (finds : ∀ c, Finds t (keys c) (nodes c)) :
    ∃ phase : Client → Phase N,
      (∀ c, ∃ l₁ l₂, Seeks t chains (keys c) (nodes c) l₁ l₂ ∧
        phase c = .found (some (linkBehind ((keys c).hcode % t.cap) l₁))) ∧
      ∀ cs, calls keys (a :: a.other :: cs) ⟨t, fun _ => .start⟩ = calls keys cs ⟨t, phase⟩ := by
  obtain ⟨l₁, l₂, seeks⟩ := (finds a).seeks chained
  obtain ⟨k₁, k₂, seeks'⟩ := (finds a.other).seeks chained
  refine ⟨Function.update
    (Function.update (fun _ => .start) a (.found (some (linkBehind ((keys a).hcode % t.cap) l₁))))
    a.other (.found (some (linkBehind ((keys a.other).hcode % t.cap) k₁))),
    fun c => ?_, fun cs => ?_⟩
  · rcases Client.eq_or_other a c with rfl | rfl
    · refine ⟨l₁, l₂, seeks, ?_⟩
      exact (Function.update_of_ne (Client.other_ne c).symm _ _).trans (Function.update_self _ _ _)
    · exact ⟨k₁, k₂, seeks', Function.update_self _ _ _⟩
  · rw [calls, call_start rfl (seeks.lookup chained), ok_bind, calls,
      call_start _ (seeks'.lookup chained), ok_bind]
    exact Function.update_of_ne (Client.other_ne a) _ _

/-- Both lookups first, and the deletes do not meet: the second link is still up to date. -/
theorem overlapped_deletes {a : Client} (chained : Chained t chains) (hne : nodes b ≠ nodes b.other)
    (finds : ∀ c, Finds t (keys c) (nodes c)) :
    BothDeleted t nodes (calls keys [a, a.other, b, b.other] ⟨t, fun _ => .start⟩) ↔
      t.next (nodes b) ≠ some (nodes b.other) := by
  obtain ⟨phase, hphase, hcalls⟩ := lookups a chained finds
  obtain ⟨l₁, l₂, seeks, hlink⟩ := hphase b
  obtain ⟨k₁, k₂, seeks', hlink'⟩ := hphase b.other
  have hpos := Nat.mod_lt (keys b).hcode chained.cap
  obtain ⟨t', hdelete, chained', hcap, hhcode, hkept, hstored⟩ := seeks.delete chained
  rw [hcalls, calls, call_found hlink hdelete, ok_bind]
  have hdone : Function.update phase b (.finished (nodes b)) b = .finished (nodes b) :=
    Function.update_self _ _ _
  have hwaits := (Function.update_of_ne (Client.other_ne b)
    (.finished (nodes b)) phase).trans hlink'
  constructor
  · intro hboth hnext
    rw [seeks'.link_next chained hpos seeks.split hnext] at hwaits
    have hgone : ¬ Stored t' (nodes b) := fun h => ((hstored _).mp h).2 rfl
    have hother : Stored t' (nodes b.other) := (hstored _).mpr ⟨seeks'.stored chained, hne.symm⟩
    obtain ⟨t'', hdelete', hkeeps⟩ := htableDelete_stale chained'.cap (hkept.trans hnext) hgone
    rw [calls, call_found hwaits hdelete', ok_bind, calls] at hboth
    exact ((hboth.2.1 _).mp (hkeeps _ hother)).2 b.other rfl
  · intro hnext
    obtain ⟨k₁', k₂', still, hsame⟩ := seeks'.removed hne chained hpos seeks.split hcap hhcode
    rw [← hsame hnext, ← hcap] at hwaits
    exact last_delete hdone hwaits chained' still hstored

end Clients

/-- Two lookups and the deletes through the links they return. -/
theorem deletes_safe_iff {N : Type} [DecidableEq N] {t : HTable N} {nodes : Client → N}
    {keys : Client → Key N} {order : List Client} (chained : ∃ chains, Chained t chains)
    (hne : nodes .left ≠ nodes .right) (finds : ∀ c, Finds t (keys c) (nodes c))
    (horder : Interleaving order) :
    BothDeleted t nodes (calls keys order ⟨t, fun _ => .start⟩) ↔ ¬ Hazard t nodes order := by
  obtain ⟨chains, chained⟩ := chained
  have hother : ∀ b, nodes b ≠ nodes b.other := by
    intro b
    cases b with
    | left => exact hne
    | right => exact hne.symm
  rcases horder.shape with ⟨b, rfl⟩ | ⟨a, b, rfl⟩
  · refine iff_of_true (sequential_deletes chained (hother b) finds) ?_
    rintro ⟨a, c, heq, -⟩
    obtain ⟨rfl, heq⟩ := List.cons.inj heq
    exact Client.other_ne b (List.cons.inj heq).1.symm
  · rw [overlapped_deletes chained (hother b) finds]
    constructor
    · rintro hnext ⟨a', c, heq, hnext'⟩
      obtain rfl : b = c := (List.cons.inj (List.cons.inj (List.cons.inj heq).2).2).1
      exact hnext hnext'
    · intro hazard hnext
      exact hazard ⟨a, b, rfl, hnext⟩

/-- A table of one bucket with the chain `left`, `right`. -/
def pair : HTable Client where
  cap := 1
  size := 2
  table := fun pos => if pos = 0 then some .left else none
  next := fun c => if c = .left then some .right else none
  hcode := fun c => if c = .left then 0 else 1

def pairKey (c : Client) : Key Client := ⟨pair.hcode c, none⟩

theorem pair_chained : Chained pair fun _ => [.left, .right] where
  cap := by decide
  path := by
    intro pos hpos
    obtain rfl : pos = 0 := Nat.lt_one_iff.mp hpos
    exact ⟨rfl, rfl, rfl⟩
  home := by
    intro pos hpos n _
    exact (Nat.mod_one _).trans (Nat.lt_one_iff.mp hpos).symm
  nodup := by
    intro _ _
    decide
  size := by decide
  small := by decide

theorem pair_finds (c : Client) : Finds pair (pairKey c) c := by
  cases c with
  | left => exact ⟨.bucket 0, rfl, rfl⟩
  | right => exact ⟨.next .left, rfl, rfl⟩

theorem deletes_safe_pair :
    BothDeleted pair id (calls pairKey [.left, .right, .right, .left] ⟨pair, fun _ => .start⟩) ↔
      ¬ Hazard pair id [.left, .right, .right, .left] :=
  deletes_safe_iff ⟨_, pair_chained⟩ Client.noConfusion pair_finds (by decide)

/-- The client `left` deletes the node in front of the other one: `right` stays in the table. -/
theorem deletes_unsafe : ¬ ∀ (N : Type) [DecidableEq N] (t : HTable N) (nodes : Client → N)
    (keys : Client → Key N) (order : List Client), (∃ chains, Chained t chains) →
    nodes .left ≠ nodes .right → (∀ c, Finds t (keys c) (nodes c)) → Interleaving order →
    BothDeleted t nodes (calls keys order ⟨t, fun _ => .start⟩) := by
  intro h
  have hboth := h Client pair id pairKey [.left, .right, .left, .right] ⟨_, pair_chained⟩
    Client.noConfusion pair_finds (by decide)
  obtain ⟨-, hstored, -⟩ := hboth
  have hkept : Stored pair .right ∧ ∀ c, Client.right ≠ id c := by
    refine (hstored _).mp ⟨0, by decide, [.right], ⟨rfl, rfl⟩, List.mem_cons_self⟩
  exact hkept.2 .right rfl

end HashTable
