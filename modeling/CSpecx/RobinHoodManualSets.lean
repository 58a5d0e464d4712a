import CSpecx.RobinHoodManualRuns
import Mathlib.Data.Set.Card

/-!
# The Robin Hood table with a hash function is a set

While the probes of the stored values go round the ring, every call is one on a
set of values of which no two are equal for `CMP_FUNC`. What is looked up or
deleted may have any hash.
-/

namespace RobinHoodManual

open CExec ProbeTable Component
open RobinHood (HtiRes HtaRes)

variable {V : Type} {f : Funcs V} {cap : Nat}

inductive SetOp (V : Type) where
  | insert (value : V)
  | get (value : V)
  | delete (value : V)

/-- The return value and, for the lookups, what `*dest` receives. -/
inductive SetReply (V : Type) where
  | inserted (res : HtiRes)
  | found (res : HtaRes) (dest : Option V)

def setStep (f : Funcs V) (ht : HashTable V) : SetOp V → Outcome (SetReply V × HashTable V)
  | .insert value => do
    let (res, ht') ← htInsert f ht value
    .ok (.inserted res, ht')
  | .get value => do
    let (res, dest) ← htGet f ht value
    .ok (.found res dest, ht)
  | .delete value => do
    let (res, dest, ht') ← htDelete f ht value
    .ok (.found res dest, ht')

/-- A whole round of probes and the one behind it do not jump. -/
def Rounds (cap hash : Nat) : Prop := cap ∣ 2 ^ 32 ∨ hash + cap < 2 ^ 32

def Admitted (f : Funcs V) (ht : HashTable V) : SetOp V → Prop
  | .insert value => Known f ht value ∨ HasRoom ht ∧ Rounds ht.cap (f.hash value)
  | .get _ => True
  | .delete _ => True

def hashSet (f : Funcs V) : Interface (HashTable V) (SetOp V) (SetReply V) :=
  { pre := Admitted f, step := setStep f }

/-- A stored value is equal to this one. -/
def Has (f : Funcs V) (values : Set V) (value : V) : Prop :=
  ∃ x ∈ values, f.cmpFunc x value = true

/-- The operations of a set, which answer with the value that is in it. -/
inductive SetCall (f : Funcs V) : Set V → SetOp V → SetReply V → Set V → Prop where
  | insertExists {S : Set V} {value : V} :
      Has f S value → SetCall f S (.insert value) (.inserted .exists) S
  | insertSuccess {S : Set V} {value : V} :
      ¬ Has f S value → SetCall f S (.insert value) (.inserted .success) (insert value S)
  | getFound {S : Set V} {value x : V} :
      x ∈ S → f.cmpFunc x value = true → SetCall f S (.get value) (.found .success (some x)) S
  | getMissing {S : Set V} {value : V} :
      ¬ Has f S value → SetCall f S (.get value) (.found .doesntExist none) S
  | deleteFound {S : Set V} {value x : V} :
      x ∈ S → f.cmpFunc x value = true →
        SetCall f S (.delete value) (.found .success (some x)) (S \ {x})
  | deleteMissing {S : Set V} {value : V} :
      ¬ Has f S value → SetCall f S (.delete value) (.found .doesntExist none) S

structure Contains (f : Funcs V) (cap : Nat) (ht : HashTable V) (S : Set V) : Prop where
  coherent : Coherent f cap ht
  rounds : ∀ x ∈ S, Rounds cap (f.hash x)
  stored : ∀ x, Stored ht x ↔ x ∈ S

section Calls

variable {ht : HashTable V} {S : Set V} {value : V}

theorem Rounds.covers {hash : Nat} (h : Rounds cap hash) : Covers cap hash :=
  h.imp_right fun hlt => hlt.le

theorem Contains.known_iff (holds : Contains f cap ht S) : Known f ht value ↔ Has f S value :=
  exists_congr fun x => and_congr_left fun _ => holds.stored x

theorem init_contains [Inhabited V] (f : Funcs V) (cap : Nat) :
    Contains f cap (htInit cap) ∅ := by
  refine ⟨init_coherent f cap, fun x hx => hx.elim, fun x => ⟨?_, fun hx => hx.elim⟩⟩
  rintro ⟨i, -, hp, -⟩
  cases hp

variable [NeZero cap]

/-- The slots that are not empty hold the values, one each. -/
theorem Contains.ncard_eq (lawful : f.Lawful) (holds : Contains f cap ht S) :
    S.ncard = {p : ZMod cap | view cap ht p ≠ none}.ncard := by
  have hvalue : ∀ {p : ZMod cap}, view cap ht p ≠ none →
      view cap ht p = some ((ht.elems p.val).value, (ht.elems p.val).dib) := by
    intro p hp
    rw [view, occupant, if_pos (view_present hp)]
  have himage : S = (fun p : ZMod cap => (ht.elems p.val).value) ''
      {p : ZMod cap | view cap ht p ≠ none} := by
    ext x
    rw [← holds.stored, holds.coherent.stored_iff]
    constructor
    · rintro ⟨p, d, hp⟩
      have hne : view cap ht p ≠ none := Option.ne_none_iff_exists'.mpr ⟨_, hp⟩
      exact ⟨p, hne, (view_some hp).2.1⟩
    · rintro ⟨p, hp, rfl⟩
      exact ⟨p, _, hvalue hp⟩
  rw [himage]
  refine Set.InjOn.ncard_image fun p hp q hq heq => ?_
  refine holds.coherent.distinct p q _ _ _ _ (hvalue hp) (hvalue hq) ?_
  have heq : (ht.elems p.val).value = (ht.elems q.val).value := heq
  rw [heq, lawful.same_eq, lawful.refl]

/-- A slot is empty while the set is smaller than the ring. -/
theorem Contains.room_iff (lawful : f.Lawful) (holds : Contains f cap ht S) :
    HasRoom ht ↔ S.ncard < cap := by
  have huniv : (Set.univ : Set (ZMod cap)).ncard = cap := by
    rw [Set.ncard_univ, Nat.card_zmod]
  rw [holds.ncard_eq lawful]
  constructor
  · rintro ⟨i, hi, hempty⟩
    have hnone : view cap ht (i : ZMod cap) = none := by
      rw [view_val (holds.coherent.cap_eq ▸ hi), occupant, hempty]
      rfl
    have hproper : {p : ZMod cap | view cap ht p ≠ none} ⊂ Set.univ := by
      refine Set.ssubset_univ_iff.mpr fun heq => ?_
      have hmem : (i : ZMod cap) ∈ {p : ZMod cap | view cap ht p ≠ none} := by
        rw [heq]
        exact Set.mem_univ _
      exact hmem hnone
    exact lt_of_lt_of_eq (Set.ncard_lt_ncard hproper (Set.toFinite _)) huniv
  · intro hlt
    by_contra hno
    have hall : {p : ZMod cap | view cap ht p ≠ none} = Set.univ := by
      refine Set.eq_univ_of_forall fun p hp => hno ?_
      exact ⟨p.val, holds.coherent.cap_eq ▸ ZMod.val_lt p, view_none hp⟩
    rw [hall, huniv] at hlt
    exact lt_irrefl _ hlt

/-- A value that is found leaves the table as it is seen. -/
theorem Contains.insert_has (lawful : f.Lawful) (holds : Contains f cap ht S)
    (has : Has f S value) :
    ∃ ht', htInsert f ht value = .ok (.exists, ht') ∧ Contains f cap ht' S := by
  obtain ⟨x, d, -, hcmp, hd, hslot, covers, -⟩ :=
    holds.coherent.find lawful (holds.known_iff.mpr has)
  obtain ⟨ht', hrun, hcap', hashed', hview⟩ := holds.coherent.insert_refines covers
  have hdup := place_duplicate (n := cap) holds.coherent.ordered holds.coherent.distinct
    (fun a b c => lawful.same_trans a b c) hslot ((lawful.same_eq x value).trans hcmp)
    (Nat.zero_le d) (by omega)
  rw [hdup] at hrun hview
  have hview' : view cap ht' = view cap ht := hview
  have coherent' : Coherent f cap ht' :=
    ⟨hcap', hashed', hview' ▸ holds.coherent.ordered, hview' ▸ holds.coherent.distinct,
      hview' ▸ holds.coherent.rooted, hview' ▸ holds.coherent.covers⟩
  refine ⟨ht', hrun, coherent', holds.rounds, fun y => ?_⟩
  rw [coherent'.stored_iff, hview', ← holds.coherent.stored_iff, holds.stored]

theorem Contains.insert_new (lawful : f.Lawful) (holds : Contains f cap ht S)
    (hnew : ¬ Has f S value) (room : HasRoom ht) (rounds : Rounds cap (f.hash value)) :
    ∃ ht', htInsert f ht value = .ok (.success, ht') ∧ Contains f cap ht' (insert value S) := by
  obtain ⟨ht', hrun, coherent', hstored⟩ := holds.coherent.insert_room lawful
    (mt holds.known_iff.mp hnew) rounds.covers room
  refine ⟨ht', hrun, coherent', fun x hx => ?_, fun x => ?_⟩
  · rcases hx with rfl | hx
    · exact rounds
    · exact holds.rounds x hx
  · rw [hstored, holds.stored, Set.mem_insert_iff, or_comm]

/-- The shifts stop at a root before they come back to the value. -/
theorem Contains.delete_has (lawful : f.Lawful) (holds : Contains f cap ht S)
    (has : Has f S value) : ∃ x ∈ S, f.cmpFunc x value = true ∧ ∃ ht',
      htDelete f ht value = .ok (.success, some x, ht') ∧ Contains f cap ht' (S \ {x}) := by
  obtain ⟨x, d, hstored, hcmp, hd, hslot, covers, hsearch⟩ :=
    holds.coherent.find lawful (holds.known_iff.mpr has)
  have hmem : x ∈ S := (holds.stored x).mp hstored
  have rounds : Rounds cap (f.hash value) := lawful.hash x value hcmp ▸ holds.rounds x hmem
  obtain ⟨j, hj, hjcap, hroot⟩ :=
    root_ahead holds.coherent.ordered holds.coherent.rooted hslot
  obtain ⟨t, hshift, hord, hdis, hrooted, hholds⟩ := shift_spec (n := j) holds.coherent.ordered
    (holds.coherent.distinct.but _) hj le_rfl hroot
  have hhole : view cap ht (home f cap value + d) ≠ none :=
    Option.ne_none_iff_exists'.mpr ⟨_, hslot⟩
  obtain ⟨ht', hloop, hcap', hashed', hview⟩ := shiftLoop_refines (n := cap - d)
    holds.coherent.cap_eq holds.coherent.hashed
    (show cap ∣ 2 ^ 32 ∨ f.hash value + (d + j) < 2 ^ 32 from rounds.imp_right (by omega))
    (by omega) hhole hshift
  have hself : same f x x = true := (lawful.same_eq x x).trans (lawful.refl x)
  have hleft : ∀ y, Holds (view cap ht') y ↔ Stored ht y ∧ y ≠ x := by
    intro y
    rw [hview, hholds, holds_clear holds.coherent.distinct hself hslot,
      holds.coherent.stored_iff]
  have coherent' : Coherent f cap ht' := by
    refine ⟨hcap', hashed', hview ▸ hord, hview ▸ hdis, hview ▸ hrooted, fun y hy => ?_⟩
    exact (holds.rounds y ((holds.stored y).mp ((hleft y).mp hy).1)).covers
  refine ⟨x, hmem, hcmp, ht', ?_, coherent', fun y hy => holds.rounds y hy.1, fun y => ?_⟩
  · rw [htDelete, assert_pos holds.coherent.cap_pos, ok_bind, holds.coherent.cap_eq, hsearch]
    simp only [hloop, ok_bind, (view_some hslot).2.1]
  · rw [coherent'.stored_iff, hleft, holds.stored, Set.mem_sdiff, Set.mem_singleton_iff]

theorem Contains.delete_missing (holds : Contains f cap ht S) (hnew : ¬ Has f S value) :
    htDelete f ht value = .ok (.doesntExist, none, ht) := by
  rw [htDelete, assert_pos holds.coherent.cap_pos, ok_bind,
    search_unknown holds.coherent.cap_pos (mt holds.known_iff.mp hnew)]

theorem hashSet_simulates (lawful : f.Lawful) :
    Simulation (hashSet f) (SetCall f) (Contains f cap) := by
  intro ht S op holds admitted
  cases op with
  | insert value =>
    by_cases has : Has f S value
    · obtain ⟨ht', hrun, holds'⟩ := holds.insert_has lawful has
      refine ⟨_, ht', S, ?_, .insertExists has, holds'⟩
      simp only [hashSet, setStep, hrun, ok_bind]
    · obtain ⟨room, rounds⟩ := admitted.resolve_left (mt holds.known_iff.mp has)
      rw [holds.coherent.cap_eq] at rounds
      obtain ⟨ht', hrun, holds'⟩ := holds.insert_new lawful has room rounds
      refine ⟨_, ht', insert value S, ?_, .insertSuccess has, holds'⟩
      simp only [hashSet, setStep, hrun, ok_bind]
  | get value =>
    rcases holds.coherent.gets lawful value with ⟨x, hstored, hcmp, hrun⟩ | ⟨hnew, hrun⟩
    · refine ⟨_, ht, S, ?_, .getFound ((holds.stored x).mp hstored) hcmp, holds⟩
      simp only [hashSet, setStep, hrun, ok_bind]
    · refine ⟨_, ht, S, ?_, .getMissing (mt holds.known_iff.mpr hnew), holds⟩
      simp only [hashSet, setStep, hrun, ok_bind]
  | delete value =>
    by_cases has : Has f S value
    · obtain ⟨x, hmem, hcmp, ht', hrun, holds'⟩ := holds.delete_has lawful has
      refine ⟨_, ht', S \ {x}, ?_, .deleteFound hmem hcmp, holds'⟩
      simp only [hashSet, setStep, hrun, ok_bind]
    · refine ⟨_, ht, S, ?_, .deleteMissing has, holds⟩
      simp only [hashSet, setStep, holds.delete_missing has, ok_bind]

end Calls

/-- Every run is one of a set, whose values are those in the slots; a new value has a slot while
the set is smaller than the capacity, and every admitted call returns. -/
theorem table_is_set [Inhabited V] (lawful : f.Lawful) (hcap : 1 ≤ cap) {ht : HashTable V}
    {trace : List (SetOp V × SetReply V)} (run : Trace (hashSet f) (htInit cap) trace ht) :
    ∃ S, SpecTrace (SetCall f) ∅ trace S ∧ (∀ x, Stored ht x ↔ x ∈ S) ∧
      (HasRoom ht ↔ S.ncard < cap) ∧
      ∀ op, Admitted f ht op → ∃ reply ht', setStep f ht op = .ok (reply, ht') := by
  have : NeZero cap := ⟨by omega⟩
  have sim : Simulation (hashSet f) (SetCall f) (Contains f cap) := hashSet_simulates lawful
  obtain ⟨S, hspec, holds⟩ := sim.trace (init_contains f cap) run
  exact ⟨S, hspec, holds.stored, holds.room_iff lawful, fun op => sim.returns holds⟩

/-- Four slots, two values whose probes start at the last one and go on at the first, and a
deletion that shifts. -/
theorem table_is_set_round : ∃ (ht : HashTable Nat) (S : Set Nat), SpecTrace (SetCall numbers) ∅
    [(.insert 4294967295, .inserted .success), (.insert 3, .inserted .success),
      (.get 3, .found .success (some 3)),
      (.delete 4294967295, .found .success (some 4294967295))] S ∧
    (HasRoom ht ↔ S.ncard < 4) := by
  obtain ⟨t₁, h₁⟩ : ∃ t₁ : HashTable Nat, t₁ = (htInit 4).set 3 ⟨4294967295, 4294967295, 0, true⟩ :=
    ⟨_, rfl⟩
  obtain ⟨t₂, h₂⟩ : ∃ t₂ : HashTable Nat, t₂ = t₁.set 0 ⟨3, 3, 1, true⟩ := ⟨_, rfl⟩
  have first : Admitted numbers (htInit 4) (.insert 4294967295) :=
    Or.inr ⟨⟨0, by decide, rfl⟩, Or.inl (by decide)⟩
  have second : Admitted numbers t₁ (.insert 3) := by
    rw [h₁]
    exact Or.inr ⟨⟨0, by decide, rfl⟩, Or.inl (by decide)⟩
  have insert₁ : setStep numbers (htInit 4) (.insert 4294967295) =
      .ok (.inserted .success, t₁) := by
    rw [h₁]
    rfl
  have insert₂ : setStep numbers t₁ (.insert 3) = .ok (.inserted .success, t₂) := by
    rw [h₂, h₁]
    rfl
  have get₃ : setStep numbers t₂ (.get 3) = .ok (.found .success (some 3), t₂) := by
    rw [h₂, h₁]
    rfl
  obtain ⟨t₄, delete₄⟩ : ∃ t₄, setStep numbers t₂ (.delete 4294967295) =
      .ok (.found .success (some 4294967295), t₄) := by
    rw [h₂, h₁]
    exact ⟨_, rfl⟩
  have run : Trace (hashSet numbers) (htInit 4)
      [(.insert 4294967295, .inserted .success), (.insert 3, .inserted .success),
        (.get 3, .found .success (some 3)),
        (.delete 4294967295, .found .success (some 4294967295))] t₄ :=
    .cons first insert₁ (.cons second insert₂
      (.cons trivial get₃ (.cons trivial delete₄ (.nil t₄))))
  obtain ⟨S, hspec, -, hroom, -⟩ := table_is_set numbers_lawful (show 1 ≤ 4 by decide) run
  exact ⟨t₄, S, hspec, hroom⟩

end RobinHoodManual
