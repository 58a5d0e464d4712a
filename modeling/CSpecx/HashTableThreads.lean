import CSpecx.HashTableRuns
import CSpecx.Latch

/-!
# The hash table between threads

The three calls that hold the latch, one access to shared memory a step. Any
interleaving of the accesses of any number of threads leads where whole calls
lead, so what is proved about calls holds between threads. The threads of the
last section insert lists of nodes.
-/

namespace HashTable

open CExec LinkedChain GuardedSections Latch

inductive Call (N : Type) where
  | insert (node : N)
  | lookup (key : Key N)
  | delete (link : Link N)

inductive Answer (N : Type) where
  | inserted
  | link (link : Option (Link N))
  | node (node : N)

/-- What a call has read, and the access that is next. -/
inductive Code (N : Type) where
  | insertRead (node : N)
  | insertNext (node : N) (next : Option N)
  | insertSlot (node : N)
  | insertSize
  | insertCount (size : Nat)
  | lookupStart (key : Key N)
  | lookupRead (key : Key N) (link : Link N)
  | lookupTest (key : Key N) (link : Link N) (cur : N)
  | deleteRead (link : Link N)
  | deleteNext (link : Link N) (node : Option N)
  | deleteLink (link : Link N) (node : N) (next : Option N)
  | deleteSize (node : N)
  | deleteCount (node : N) (size : Nat)
  | done (answer : Answer N)

section Calls

variable {N : Type} [DecidableEq N]

def callStart : Call N → Code N
  | .insert node => .insertRead node
  | .lookup key => .lookupStart key
  | .delete link => .deleteRead link

def callAccess : Code N → HTable N → Outcome (Code N × HTable N)
  | .insertRead node, t => do
    assert (0 < t.cap)
    .ok (.insertNext node (t.table (t.hcode node % t.cap)), t)
  | .insertNext node next, t =>
    .ok (.insertSlot node, { t with next := Function.update t.next node next })
  | .insertSlot node, t =>
    .ok (.insertSize, { t with
      table := Function.update t.table (t.hcode node % t.cap) (some node) })
  | .insertSize, t => .ok (.insertCount t.size, t)
  | .insertCount size, t => .ok (.done .inserted, { t with size := u32 (size + 1) })
  | .lookupStart key, t => do
    assert (0 < t.cap)
    .ok (.lookupRead key (.bucket (key.hcode % t.cap)), t)
  | .lookupRead key link, t =>
    match t.deref link with
    | none => .ok (.done (.link none), t)
    | some cur => .ok (.lookupTest key link cur, t)
  | .lookupTest key link cur, t =>
    if key.found t cur then .ok (.done (.link (some link)), t)
    else .ok (.lookupRead key (.next cur), t)
  | .deleteRead link, t => do
    assert (0 < t.cap)
    .ok (.deleteNext link (t.deref link), t)
  | .deleteNext _ none, _ => .error .undefined
  | .deleteNext link (some node), t => .ok (.deleteLink link node (t.next node), t)
  | .deleteLink link node next, t => .ok (.deleteSize node, t.assign next link)
  | .deleteSize node, t => .ok (.deleteCount node t.size, t)
  | .deleteCount node size, t => .ok (.done (.node node), { t with size := sub32 size 1 })
  | .done _, _ => .error .undefined

def callResult : Code N → Option (Answer N)
  | .done answer => some answer
  | _ => none

/-- Threads that call the table. -/
def clients {S : Type} (asks : S → Call N → Prop) (absorb : S → Call N → Answer N → S) :
    Program S (Call N) (Answer N) (Code N) (HTable N) where
  asks := asks
  absorb := absorb
  start := callStart
  access := callAccess
  result := callResult

/-- What one whole call does. -/
def Answers (t : HTable N) : Call N → Answer N → HTable N → Prop
  | .insert node, answer, t' => answer = .inserted ∧ htableInsert t node = .ok t'
  | .lookup key, answer, t' => t' = t ∧ ∃ fuel link, answer = .link link ∧
      lookupWithin fuel t key = .ok link
  | .delete link, answer, t' => ∃ node, answer = .node node ∧ htableDelete t link = .ok (node, t')

/-- Whole calls, by any thread that asks for one. -/
inductive CallStep {T S : Type} [DecidableEq T] (asks : S → Call N → Prop)
    (absorb : S → Call N → Answer N → S) : Whole T S (HTable N) → Whole T S (HTable N) → Prop where
  | mk {w : Whole T S (HTable N)} {q : T} {call : Call N} {answer : Answer N} {t' : HTable N} :
      asks (w.locals q) call → Answers w.data call answer t' →
      CallStep asks absorb w ⟨Function.update w.locals q (absorb (w.locals q) call answer), t'⟩

/-- How far a call on `t` has got. -/
def Underway (t : HTable N) : Call N → Code N → HTable N → Prop
  | .insert n, .insertRead m, t' => m = n ∧ t' = t
  | .insert n, .insertNext m next, t' =>
    m = n ∧ 0 < t.cap ∧ next = t.table (t.hcode n % t.cap) ∧ t' = t
  | .insert n, .insertSlot m, t' => m = n ∧ 0 < t.cap ∧
      t' = { t with next := Function.update t.next n (t.table (t.hcode n % t.cap)) }
  | .insert n, .insertSize, t' =>
    ∃ t'', htableInsert t n = .ok t'' ∧ t' = { t'' with size := t.size }
  | .insert n, .insertCount size, t' => size = t.size ∧
      ∃ t'', htableInsert t n = .ok t'' ∧ t' = { t'' with size := t.size }
  | .lookup key, .lookupStart key', t' => key' = key ∧ t' = t
  | .lookup key, .lookupRead key' link, t' => key' = key ∧ t' = t ∧
      ∀ fuel res, lookupLoop t key fuel link = .ok res → ∃ fuel', lookupWithin fuel' t key = .ok res
  | .lookup key, .lookupTest key' link cur, t' => key' = key ∧ t' = t ∧ t.deref link = some cur ∧
      ∀ fuel res, lookupLoop t key fuel link = .ok res → ∃ fuel', lookupWithin fuel' t key = .ok res
  | .delete link, .deleteRead link', t' => link' = link ∧ t' = t
  | .delete link, .deleteNext link' node, t' =>
    link' = link ∧ 0 < t.cap ∧ node = t.deref link ∧ t' = t
  | .delete link, .deleteLink link' node next, t' => link' = link ∧ 0 < t.cap ∧
      t.deref link = some node ∧ next = t.next node ∧ t' = t
  | .delete link, .deleteSize node, t' =>
      ∃ t'', htableDelete t link = .ok (node, t'') ∧ t' = { t'' with size := t.size }
  | .delete link, .deleteCount node size, t' => size = t.size ∧
      ∃ t'', htableDelete t link = .ok (node, t'') ∧ t' = { t'' with size := t.size }
  | call, .done answer, t' => Answers t call answer t'
  | _, _, _ => False

end Calls

section Accesses

variable {N S T : Type} [DecidableEq N] {asks : S → Call N → Prop}
  {absorb : S → Call N → Answer N → S} {t t' t'' : HTable N} {call : Call N} {code code' : Code N}
  {answer : Answer N}

theorem insert_underway {n : N} (h : Underway t (.insert n) code t')
    (haccess : callAccess code t' = .ok (code', t'')) : Underway t (.insert n) code' t'' := by
  cases code with
  | insertRead m =>
    obtain ⟨rfl, rfl⟩ := h
    obtain ⟨_, hcap, hread⟩ := bind_eq_ok.mp haccess
    obtain ⟨rfl, rfl⟩ := ok_pair_inj hread
    exact ⟨rfl, assert_eq_ok_iff.mp hcap, rfl, rfl⟩
  | insertNext m next =>
    obtain ⟨rfl, hcap, rfl, rfl⟩ := h
    obtain ⟨rfl, rfl⟩ := ok_pair_inj haccess
    exact ⟨rfl, hcap, rfl⟩
  | insertSlot m =>
    obtain ⟨rfl, hcap, rfl⟩ := h
    obtain ⟨rfl, rfl⟩ := ok_pair_inj haccess
    exact ⟨_, by rw [htableInsert, assert_pos hcap, ok_bind], rfl⟩
  | insertSize =>
    obtain ⟨rfl, rfl⟩ := ok_pair_inj haccess
    obtain ⟨t₁, hinsert, rfl⟩ := h
    exact ⟨rfl, t₁, hinsert, rfl⟩
  | insertCount size =>
    obtain ⟨rfl, t₁, hinsert, rfl⟩ := h
    obtain ⟨rfl, rfl⟩ := ok_pair_inj haccess
    refine ⟨rfl, ?_⟩
    obtain ⟨_, _, hrest⟩ := bind_eq_ok.mp hinsert
    rw [hinsert]
    rw [← Except.ok.inj hrest]
  | done answer => cases haccess
  | _ => exact h.elim

theorem lookup_underway {key : Key N} (h : Underway t (.lookup key) code t')
    (haccess : callAccess code t' = .ok (code', t'')) : Underway t (.lookup key) code' t'' := by
  cases code with
  | lookupStart key' =>
    obtain ⟨rfl, rfl⟩ := h
    obtain ⟨_, hcap, hread⟩ := bind_eq_ok.mp haccess
    obtain ⟨rfl, rfl⟩ := ok_pair_inj hread
    refine ⟨rfl, rfl, fun fuel res hloop => ⟨fuel, ?_⟩⟩
    rw [lookupWithin, assert_pos (assert_eq_ok_iff.mp hcap), ok_bind, hloop]
  | lookupRead key' link =>
    obtain ⟨rfl, rfl, hrest⟩ := h
    cases hcur : t'.deref link with
    | none =>
      simp only [callAccess, hcur] at haccess
      obtain ⟨rfl, rfl⟩ := ok_pair_inj haccess
      obtain ⟨fuel, hfuel⟩ := hrest 1 none (by simp only [lookupLoop, hcur])
      exact ⟨rfl, fuel, none, rfl, hfuel⟩
    | some cur =>
      simp only [callAccess, hcur] at haccess
      obtain ⟨rfl, rfl⟩ := ok_pair_inj haccess
      exact ⟨rfl, rfl, hcur, hrest⟩
  | lookupTest key' link cur =>
    obtain ⟨rfl, rfl, hcur, hrest⟩ := h
    cases hfound : key'.found t' cur with
    | true =>
      simp only [callAccess, hfound, if_true] at haccess
      obtain ⟨rfl, rfl⟩ := ok_pair_inj haccess
      obtain ⟨fuel, hfuel⟩ := hrest 1 (some link) (by simp only [lookupLoop, hcur, hfound, if_true])
      exact ⟨rfl, fuel, some link, rfl, hfuel⟩
    | false =>
      simp only [callAccess, hfound, Bool.false_eq_true, if_false] at haccess
      obtain ⟨rfl, rfl⟩ := ok_pair_inj haccess
      refine ⟨rfl, rfl, fun fuel res hloop => hrest (fuel + 1) res ?_⟩
      simp only [lookupLoop, hcur, hfound, Bool.false_eq_true, if_false]
      exact hloop
  | done answer => cases haccess
  | _ => exact h.elim

theorem delete_underway {link : Link N} (h : Underway t (.delete link) code t')
    (haccess : callAccess code t' = .ok (code', t'')) : Underway t (.delete link) code' t'' := by
  cases code with
  | deleteRead link' =>
    obtain ⟨rfl, rfl⟩ := h
    obtain ⟨_, hcap, hread⟩ := bind_eq_ok.mp haccess
    obtain ⟨rfl, rfl⟩ := ok_pair_inj hread
    exact ⟨rfl, assert_eq_ok_iff.mp hcap, rfl, rfl⟩
  | deleteNext link' node =>
    obtain ⟨rfl, hcap, rfl, rfl⟩ := h
    cases hnode : t'.deref link' with
    | none =>
      rw [hnode] at haccess
      cases haccess
    | some node =>
      rw [hnode] at haccess
      obtain ⟨rfl, rfl⟩ := ok_pair_inj haccess
      exact ⟨rfl, hcap, hnode, rfl, rfl⟩
  | deleteLink link' node next =>
    obtain ⟨rfl, hcap, hnode, rfl, rfl⟩ := h
    obtain ⟨rfl, rfl⟩ := ok_pair_inj haccess
    refine ⟨{ t'.assign (t'.next node) link' with size := sub32 t'.size 1 }, ?_, ?_⟩
    · rw [htableDelete, assert_pos hcap, ok_bind, hnode]
    · cases link' <;> rfl
  | deleteSize node =>
    obtain ⟨rfl, rfl⟩ := ok_pair_inj haccess
    obtain ⟨t₁, hdelete, rfl⟩ := h
    exact ⟨rfl, t₁, hdelete, rfl⟩
  | deleteCount node size =>
    obtain ⟨rfl, t₁, hdelete, rfl⟩ := h
    obtain ⟨rfl, rfl⟩ := ok_pair_inj haccess
    refine ⟨node, rfl, ?_⟩
    obtain ⟨_, _, hrest⟩ := bind_eq_ok.mp hdelete
    rw [hdelete]
    cases hnode : t.deref link with
    | none =>
      rw [hnode] at hrest
      cases hrest
    | some cur =>
      rw [hnode] at hrest
      obtain ⟨rfl, rfl⟩ := ok_pair_inj hrest
      rfl
  | done answer => cases haccess
  | _ => exact h.elim

theorem runs_underway (runs : Runs (clients asks absorb) call t code t') :
    Underway t call code t' := by
  induction runs with
  | start =>
    cases call with
    | insert node => exact ⟨rfl, rfl⟩
    | lookup key => exact ⟨rfl, rfl⟩
    | delete link => exact ⟨rfl, rfl⟩
  | access _ _ haccess ih =>
    cases call with
    | insert node => exact insert_underway ih haccess
    | lookup key => exact lookup_underway ih haccess
    | delete link => exact delete_underway ih haccess

/-- A section that is complete is a call. -/
theorem completes_answers (completes : Completes (clients asks absorb) t call answer t') :
    Answers t call answer t' := by
  obtain ⟨code, hruns, hresult⟩ := completes
  have underway := runs_underway hruns
  cases code with
  | done answer' =>
    obtain rfl : answer' = answer := Option.some.inj hresult
    cases call with
    | insert node => exact underway
    | lookup key => exact underway
    | delete link => exact underway
  | _ => cases hresult

variable [DecidableEq T] {w w' : Whole T S (HTable N)} {s₀ : T → S}
  {σ : State T S (Call N) (Code N) (HTable N) (Memory T)}

theorem whole_calls (steps : WholeSteps (clients asks absorb) w w') :
    Relation.ReflTransGen (CallStep asks absorb) w w' := by
  induction steps with
  | refl => exact .refl
  | tail _ step ih =>
    cases step with | mk hasks hcompletes =>
    exact ih.tail (.mk hasks (completes_answers hcompletes))

/-- The accesses of the threads, in any order the latch allows, lead where whole calls lead: with
the same answers taken in, and with the same table whenever no thread is inside. -/
theorem calls_linearize
    (steps : Steps (clients asks absorb) latch (.initial latchInit s₀ t) σ) :
    ∃ w, Relation.ReflTransGen (CallStep asks absorb) ⟨s₀, t⟩ w ∧
      (∀ q, (σ.places q).locals = w.locals q) ∧
      ((∀ q, σ.stages q ≠ .inside) → σ.data = w.data) := by
  obtain ⟨w, hw, serial⟩ := Steps.serial exclusive steps
  refine ⟨w, whole_calls hw, serial.locals, fun hnone => ?_⟩
  rcases serial.data with ⟨-, hdata⟩ | ⟨q, _, _, _, hplace, -⟩
  · exact hdata
  · exact absurd (congrArg Place.stage hplace) (hnone q)

instance (s : List (Answer N)) (call : Call N) : Decidable
    ((clients (fun _ _ => True) fun (s : List (Answer N)) _ answer => s ++ [answer]).asks s call) :=
  inferInstanceAs (Decidable True)

/-- Two threads that keep their answers. One inserts 7 while the other tries to look it up, gets in
later and finds it. -/
theorem calls_linearize_interleaved :
    ∃ w : Whole (Fin 2) (List (Answer Nat)) (HTable Nat),
      Relation.ReflTransGen (CallStep (fun _ _ => True) fun s _ answer => s ++ [answer])
        ⟨fun _ => [], ⟨1, 0, fun _ => none, fun _ => none, id⟩⟩ w ∧
      w.locals 0 = [.inserted] ∧ w.locals 1 = [.link (some (.bucket 0))] ∧
      w.data.table 0 = some 7 ∧ w.data.size = 1 := by
  obtain ⟨σ, hrun, h₀, h₁, htable, hsize⟩ :
      ∃ σ : State (Fin 2) (List (Answer Nat)) (Call Nat) (Code Nat) (HTable Nat) (Memory (Fin 2)),
      moves (clients (fun _ _ => True) fun s _ answer => s ++ [answer])
        [(0, .call (.insert 7)), (1, .call (.lookup ⟨7, none⟩)), (0, .exchange true), (0, .access),
          (1, .exchange true), (0, .access), (0, .access), (1, .exchange true), (0, .access),
          (0, .access), (0, .release), (1, .exchange true), (1, .exchange true), (1, .access),
          (1, .access), (1, .access), (1, .release)]
        (.initial latchInit (fun _ => []) ⟨1, 0, fun _ => none, fun _ => none, id⟩) = some σ ∧
      σ.places 0 = .outside [.inserted] ∧ σ.places 1 = .outside [.link (some (.bucket 0))] ∧
      σ.data.table 0 = some 7 ∧ σ.data.size = 1 := ⟨_, rfl, rfl, rfl, rfl, rfl⟩
  obtain ⟨w, hw, hlocals, hdata⟩ := calls_linearize (moves_steps hrun)
  have hfree : ∀ q, σ.stages q ≠ .inside := by
    intro q
    match q with
    | 0 =>
      rw [State.stages, h₀]
      exact Stage.noConfusion
    | 1 =>
      rw [State.stages, h₁]
      exact Stage.noConfusion
  refine ⟨w, hw, ?_, ?_, ?_, ?_⟩
  · rw [← hlocals 0, h₀, Place.locals]
  · rw [← hlocals 1, h₁, Place.locals]
  · rw [← hdata hfree, htable]
  · rw [← hdata hfree, hsize]

end Accesses

/-- Threads that insert the nodes of a list each. -/
def inserters {N : Type} [DecidableEq N] :
    Program (List N) (Call N) (Answer N) (Code N) (HTable N) :=
  clients (fun nodes call => ∃ n, nodes.head? = some n ∧ call = .insert n)
    fun nodes _ _ => nodes.tail

/-- The nodes the threads are given: new ones, each once, and not too many. -/
structure Given {N T : Type} [Fintype T] (t : HTable N) (given : T → List N) : Prop where
  nodup : ∀ q, (given q).Nodup
  apart : ∀ q q', q ≠ q' → ∀ n ∈ given q, n ∉ given q'
  fresh : ∀ q, ∀ n ∈ given q, ¬ Stored t n
  small : t.size + ∑ q, (given q).length < 2 ^ 32

/-- The table after some of the insertions. -/
structure Filled {N T : Type} [Fintype T] (t : HTable N) (given : T → List N)
    (w : Whole T (List N) (HTable N)) : Prop where
  chained : ∃ chains, Chained w.data chains
  rest : ∀ q, ∃ done, given q = done ++ w.locals q
  stored : ∀ n, Stored w.data n ↔ Stored t n ∨ ∃ q, n ∈ given q ∧ n ∉ w.locals q
  size : w.data.size + ∑ q, (w.locals q).length = t.size + ∑ q, (given q).length

section Inserting

variable {N T : Type} [DecidableEq N] [Fintype T] [DecidableEq T] {t : HTable N}
  {given : T → List N}
  {w w' : Whole T (List N) (HTable N)}
  {σ : State T (List N) (Call N) (Code N) (HTable N) (Memory T)}
  {chains : Nat → List N}

omit [DecidableEq N] in
theorem sum_length_update {f : T → List N} {q : T} {n : N} {rest : List N} (h : f q = n :: rest) :
    ∑ q', (Function.update f q rest q').length + 1 = ∑ q', (f q').length := by
  rw [← Finset.add_sum_erase _ _ (Finset.mem_univ q),
    ← Finset.add_sum_erase _ (fun q' => (f q').length) (Finset.mem_univ q), Function.update_self, h]
  have hrest : ∑ q' ∈ Finset.univ.erase q, (Function.update f q rest q').length =
      ∑ q' ∈ Finset.univ.erase q, (f q').length := by
    refine Finset.sum_congr rfl fun q' hq => ?_
    rw [Function.update_of_ne (Finset.ne_of_mem_erase hq)]
  rw [hrest, List.length_cons]
  omega

omit [DecidableEq N] [DecidableEq T] in
theorem filled_initial (chained : Chained t chains) : Filled t given ⟨given, t⟩ :=
  ⟨⟨chains, chained⟩, fun _ => ⟨[], rfl⟩, fun n => by simp, rfl⟩

omit [DecidableEq N] [DecidableEq T] in
/-- The node a thread inserts next is not in the table, and there is room for it. -/
theorem Filled.next {q : T} {n : N} {rest : List N} (filled : Filled t given w)
    (hgiven : Given t given) (hq : w.locals q = n :: rest) :
    n ∈ given q ∧ ¬ Stored w.data n ∧ w.data.size + 1 < 2 ^ 32 := by
  obtain ⟨done, hdone⟩ := filled.rest q
  have hmem : n ∈ given q := by
    rw [hdone, hq]
    exact List.mem_append_right _ List.mem_cons_self
  refine ⟨hmem, fun hstored => ?_, ?_⟩
  · rcases (filled.stored n).mp hstored with hold | ⟨q', hq', hgone⟩
    · exact hgiven.fresh q n hmem hold
    · have hsame : q = q' := by
        by_contra hne
        exact hgiven.apart q q' hne n hmem hq'
      rw [← hsame, hq] at hgone
      exact hgone List.mem_cons_self
  · have hle : (w.locals q).length ≤ ∑ q', (w.locals q').length :=
      Finset.single_le_sum (f := fun q' => (w.locals q').length) (fun _ _ => Nat.zero_le _)
        (Finset.mem_univ q)
    rw [hq, List.length_cons] at hle
    have hsize := filled.size
    have hsmall := hgiven.small
    omega

omit [Fintype T] [DecidableEq T] in
/-- An insertion of a new node stores that node too. -/
theorem htableInsert_stores {t t' : HTable N} {n : N} (chained : Chained t chains)
    (hn : ¬ Stored t n) (hsmall : t.size + 1 < 2 ^ 32) (hinsert : htableInsert t n = .ok t') :
    (∃ chains', Chained t' chains') ∧ t'.size = t.size + 1 ∧
      ∀ m, Stored t' m ↔ m = n ∨ Stored t m := by
  obtain ⟨t₁, hinsert₁, hcap, -, chained'⟩ := htableInsert_chained chained hn hsmall
  obtain rfl : t₁ = t' := Except.ok.inj (hinsert₁.symm.trans hinsert)
  refine ⟨⟨_, chained'⟩, ?_, fun m => ?_⟩
  · obtain ⟨_, _, hrest⟩ := bind_eq_ok.mp hinsert
    rw [← Except.ok.inj hrest]
    exact u32_of_lt hsmall
  · rw [chained'.stored_iff, chained.stored_iff, hcap]
    have hhome : t.hcode n % t.cap < t.cap := Nat.mod_lt _ chained.cap
    constructor
    · rintro ⟨pos, hpos, hm⟩
      by_cases hsame : pos = t.hcode n % t.cap
      · rw [hsame, Function.update_self] at hm
        rcases List.mem_cons.mp hm with rfl | hm
        · exact Or.inl rfl
        · exact Or.inr ⟨_, hhome, hm⟩
      · rw [Function.update_of_ne hsame] at hm
        exact Or.inr ⟨pos, hpos, hm⟩
    · rintro (rfl | ⟨pos, hpos, hm⟩)
      · exact ⟨_, hhome, by rw [Function.update_self]; exact List.mem_cons_self⟩
      · refine ⟨pos, hpos, ?_⟩
        by_cases hsame : pos = t.hcode n % t.cap
        · rw [← hsame, Function.update_self]
          exact List.mem_cons_of_mem n hm
        · rwa [Function.update_of_ne hsame]

theorem Filled.step (filled : Filled t given w) (hgiven : Given t given)
    (step : WholeStep inserters w w') : Filled t given w' := by
  cases step with | @mk q call answer t' hasks hcompletes =>
  obtain ⟨n, hhead, rfl⟩ := hasks
  obtain ⟨rest, hq⟩ : ∃ rest, w.locals q = n :: rest := by
    cases hlist : w.locals q with
    | nil =>
      rw [hlist] at hhead
      cases hhead
    | cons m rest =>
      rw [hlist] at hhead
      exact ⟨rest, by rw [Option.some.inj hhead]⟩
  obtain ⟨-, hinsert⟩ := completes_answers hcompletes
  obtain ⟨hmem, hnew, hroom⟩ := filled.next hgiven hq
  obtain ⟨chains, chained⟩ := filled.chained
  obtain ⟨chained', hsize, hstored⟩ := htableInsert_stores chained hnew hroom hinsert
  have htail : inserters.absorb (w.locals q) (.insert n) answer = rest := by
    show (w.locals q).tail = rest
    rw [hq, List.tail_cons]
  obtain ⟨done, hdone⟩ := filled.rest q
  have hfront : n ∉ rest := by
    have hnodup := hgiven.nodup q
    rw [hdone, hq] at hnodup
    exact (List.nodup_cons.mp (List.nodup_append.mp hnodup).2.1).1
  rw [htail]
  refine ⟨chained', fun q' => ?_, fun m => ?_, ?_⟩
  · by_cases hqq : q' = q
    · subst hqq
      refine ⟨done ++ [n], ?_⟩
      simp only [Function.update_self, List.append_assoc, List.singleton_append]
      rw [hdone, hq]
    · simpa only [Function.update_of_ne hqq] using filled.rest q'
  · rw [hstored, filled.stored]
    constructor
    · rintro (rfl | hold | ⟨q', hq', hgone⟩)
      · exact Or.inr ⟨q, hmem, by simpa only [Function.update_self] using hfront⟩
      · exact Or.inl hold
      · refine Or.inr ⟨q', hq', ?_⟩
        by_cases hqq : q' = q
        · subst hqq
          rw [hq] at hgone
          simp only [Function.update_self]
          exact fun hm => hgone (List.mem_cons_of_mem n hm)
        · simpa only [Function.update_of_ne hqq] using hgone
    · rintro (hold | ⟨q', hq', hgone⟩)
      · exact Or.inr (Or.inl hold)
      · by_cases hqq : q' = q
        · subst hqq
          simp only [Function.update_self] at hgone
          by_cases hmn : m = n
          · exact Or.inl hmn
          · refine Or.inr (Or.inr ⟨q', hq', ?_⟩)
            rw [hq]
            exact fun hm => hgone ((List.mem_cons.mp hm).resolve_left hmn)
        · simp only [Function.update_of_ne hqq] at hgone
          exact Or.inr (Or.inr ⟨q', hq', hgone⟩)
  · have hsum := sum_length_update hq
    have hbefore := filled.size
    show t'.size + ∑ q', (Function.update w.locals q rest q').length = _
    omega

theorem Filled.steps (filled : Filled t given w) (hgiven : Given t given)
    (steps : WholeSteps inserters w w') : Filled t given w' := by
  induction steps with
  | refl => exact filled
  | tail _ step ih => exact ih.step hgiven step

/-- An insertion takes five accesses and cannot fail. -/
theorem inserters_finish (chained : Chained t chains) (hgiven : Given t given) :
    Finishes inserters given t := by
  intro w hw q call hasks code d hruns
  obtain ⟨n, -, rfl⟩ := hasks
  obtain ⟨chains', chained'⟩ := ((filled_initial chained).steps hgiven hw).chained
  have hcap := chained'.cap
  have underway := runs_underway hruns
  -- from the end of the insertion backwards
  have count : ∀ size d, Ends inserters (.insertCount size : Code N) d :=
    fun size d => .access rfl rfl (.now (r := .inserted) rfl)
  have size : ∀ d, Ends inserters (.insertSize : Code N) d := fun d => .access rfl rfl (count _ _)
  have slot : ∀ m d, Ends inserters (.insertSlot m : Code N) d :=
    fun m d => .access rfl rfl (size _)
  have next : ∀ m p d, Ends inserters (.insertNext m p : Code N) d :=
    fun m p d => .access rfl rfl (slot _ _)
  cases code with
  | insertRead m =>
    obtain ⟨rfl, rfl⟩ := underway
    refine .access rfl ?_ (next m (w.data.table (w.data.hcode m % w.data.cap)) w.data)
    show callAccess (.insertRead m) w.data = _
    rw [callAccess, assert_pos hcap, ok_bind]
  | insertNext m p => exact next m p d
  | insertSlot m => exact slot m d
  | insertSize => exact size d
  | insertCount n => exact count n d
  | done answer => exact .now (r := answer) rfl
  | _ => exact underway.elim

/-- Threads that insert at the same time lose no node: whenever none of them is inside, the table
is well formed and stores what it stored before and the nodes inserted so far, each once; and
the threads can always go on until all nodes are stored. -/
theorem concurrent_inserts_kept (chained : Chained t chains) (hgiven : Given t given)
    (steps : Steps inserters latch (.initial latchInit given t) σ) :
    ((∀ q, σ.stages q ≠ .inside) → (∃ chains', Chained σ.data chains') ∧
        ∀ n, Stored σ.data n ↔ Stored t n ∨ ∃ q, n ∈ given q ∧ n ∉ (σ.places q).locals) ∧
      ∃ σ', Steps inserters latch σ σ' ∧ (∀ q, σ'.places q = .outside []) ∧
        (∃ chains', Chained σ'.data chains') ∧
        ∀ n, Stored σ'.data n ↔ Stored t n ∨ ∃ q, n ∈ given q := by
  have closed : ∀ {τ : State T (List N) (Call N) (Code N) (HTable N) (Memory T)},
      Steps inserters latch (.initial latchInit given t) τ → (∀ q, τ.stages q ≠ .inside) →
      (∃ chains', Chained τ.data chains') ∧
        ∀ n, Stored τ.data n ↔ Stored t n ∨ ∃ q, n ∈ given q ∧ n ∉ (τ.places q).locals := by
    intro τ hτ hnone
    obtain ⟨w, hw, serial⟩ := Steps.serial exclusive hτ
    have filled := (filled_initial chained).steps hgiven hw
    rcases serial.data with ⟨-, hdata⟩ | ⟨q, _, _, _, hplace, -⟩
    · rw [hdata]
      refine ⟨filled.chained, fun n => ?_⟩
      simp only [serial.locals]
      exact filled.stored n
    · exact absurd (congrArg Place.stage hplace) (hnone q)
  refine ⟨closed steps, ?_⟩
  obtain ⟨σ', hsteps, hfinished⟩ :=
    Steps.finish exclusive obliging (inserters_finish chained hgiven)
    List.length (fun nodes call _ hasks => by
      obtain ⟨n, hhead, -⟩ := hasks
      cases nodes with
      | nil => cases hhead
      | cons m rest => exact Nat.lt_succ_self _) steps
  have houtside : ∀ q, σ'.places q = .outside [] := by
    intro q
    obtain ⟨nodes, hplace, hdone⟩ := hfinished q
    cases nodes with
    | nil => exact hplace
    | cons n rest => exact absurd ⟨n, rfl, rfl⟩ (hdone (.insert n))
  obtain ⟨chained', hstored⟩ := closed (steps.trans hsteps) fun q => by
    rw [State.stages, houtside q]
    exact Stage.noConfusion
  refine ⟨σ', hsteps, houtside, chained', fun n => ?_⟩
  rw [hstored]
  simp [houtside, Place.locals]

/-- Two threads with a node each, and an empty table of one bucket. -/
theorem concurrent_inserts_kept_two :
    ∃ σ' : State (Fin 2) (List Nat) (Call Nat) (Code Nat) (HTable Nat) (Memory (Fin 2)),
      (∀ q, σ'.places q = .outside []) ∧ ∀ n, Stored σ'.data n ↔ n = 0 ∨ n = 1 := by
  have chained : Chained (⟨1, 0, fun _ => none, fun _ => none, id⟩ : HTable Nat) fun _ => [] := by
    obtain ⟨t, hcreate, -, -, chained⟩ :=
      htableCreate_chained Nat.one_pos (by decide) (fun _ : Nat => none) id
    rwa [(htableCreate_iff.mp hcreate).2] at chained
  have hnone : ∀ n, ¬ Stored (⟨1, 0, fun _ => none, fun _ => none, id⟩ : HTable Nat) n := by
    rintro n hstored
    obtain ⟨_, _, hn⟩ := chained.stored_iff.mp hstored
    exact List.not_mem_nil hn
  have hgiven : Given (⟨1, 0, fun _ => none, fun _ => none, id⟩ : HTable Nat)
      fun q : Fin 2 => [q.val] := by
    refine ⟨fun q => List.nodup_singleton _, fun q q' hne n hn hn' => ?_, fun _ n _ => hnone n,
      by decide⟩
    exact hne (Fin.ext ((List.mem_singleton.mp hn).symm.trans (List.mem_singleton.mp hn')))
  obtain ⟨-, σ', -, hplaces, -, hstored⟩ := concurrent_inserts_kept chained hgiven .refl
  refine ⟨σ', hplaces, fun n => ?_⟩
  rw [hstored]
  constructor
  · rintro (hold | ⟨q, hq⟩)
    · exact absurd hold (hnone n)
    · have := List.mem_singleton.mp hq
      omega
  · rintro (rfl | rfl)
    · exact Or.inr ⟨0, List.mem_singleton_self _⟩
    · exact Or.inr ⟨1, List.mem_singleton_self _⟩

end Inserting

end HashTable
