import CSpecx.RobinHoodManual
import CSpecx.RobinHoodMap

/-!
# Runs of the Robin Hood table with a hash function

A probe that does not cross 2^32 visits consecutive slots of the ring, and so
does every probe when the capacity divides 2^32. The tables are seen as probe
tables, and the invariant is kept as long as the calls probe in this way and a
failed insertion leaves an entry in its home slot.
-/

namespace RobinHoodManual

open CExec ProbeTable Component
open RobinHood (HtiRes HtaRes resultOf)

/-- `CMP_FUNC` is an equality, and equal values have equal hashes. -/
structure Funcs.Lawful {V : Type} (f : Funcs V) : Prop where
  refl : ∀ a, f.cmpFunc a a = true
  symm : ∀ a b, f.cmpFunc a b = f.cmpFunc b a
  trans : ∀ a b c, f.cmpFunc a b = true → f.cmpFunc b c = true → f.cmpFunc a c = true
  hash : ∀ a b, f.cmpFunc a b = true → f.hash a = f.hash b

/-- The probes of a hash do not jump. -/
def Covers (cap hash : Nat) : Prop := cap ∣ 2 ^ 32 ∨ hash + cap ≤ 2 ^ 32

variable {V : Type} {f : Funcs V} {cap : Nat}

def home (f : Funcs V) (cap : Nat) (value : V) : ZMod cap := (f.hash value : ZMod cap)

def same (f : Funcs V) (a b : V) : Bool := decide (f.hash a = f.hash b) && f.cmpFunc a b

def occupant (e : HEntry V) : Option (V × Nat) :=
  if e.present then some (e.value, e.dib) else none

def view (cap : Nat) (ht : HashTable V) : Table V cap := fun p => occupant (ht.elems p.val)

/-- The hashes in the table are those of the values. -/
def Hashed (f : Funcs V) (ht : HashTable V) : Prop :=
  ∀ i, (ht.elems i).present = true → (ht.elems i).hash = f.hash (ht.elems i).value

theorem compare_eq (a b : V) :
    (decide (f.hash a = f.hash b) && f.cmpFunc a b) = same f a b := rfl

namespace Funcs.Lawful

theorem same_eq (lawful : f.Lawful) (a b : V) : same f a b = f.cmpFunc a b := by
  rw [same]
  cases h : f.cmpFunc a b with
  | false => exact Bool.and_false _
  | true => rw [decide_eq_true (lawful.hash a b h), Bool.true_and]

theorem same_symm (lawful : f.Lawful) (a b : V) : same f a b = same f b a := by
  rw [lawful.same_eq, lawful.same_eq, lawful.symm]

theorem same_trans (lawful : f.Lawful) (a b c : V) (hab : same f a b = true)
    (hcb : same f c b = true) : same f a c = true := by
  rw [lawful.same_eq] at hab hcb ⊢
  rw [lawful.symm] at hcb
  exact lawful.trans a b c hab hcb

end Funcs.Lawful

section Probing

variable {ht : HashTable V} {hash i : Nat} {value : V}

theorem view_some {p : ZMod cap} {v : V} {d : Nat} (h : view cap ht p = some (v, d)) :
    (ht.elems p.val).present = true ∧ (ht.elems p.val).value = v ∧ (ht.elems p.val).dib = d := by
  simp only [view, occupant] at h
  split at h
  · next hp =>
    obtain ⟨h₁, h₂⟩ := Prod.mk.inj (Option.some.inj h)
    exact ⟨hp, h₁, h₂⟩
  · cases h

theorem view_none {p : ZMod cap} (h : view cap ht p = none) :
    (ht.elems p.val).present = false := by
  simp only [view, occupant] at h
  split at h
  · cases h
  · next hp => exact Bool.eq_false_iff.mpr hp

theorem view_present {p : ZMod cap} (h : view cap ht p ≠ none) :
    (ht.elems p.val).present = true := by
  obtain ⟨⟨v, d⟩, hslot⟩ := Option.ne_none_iff_exists'.mp h
  exact (view_some hslot).1

theorem Hashed.set (hashed : Hashed f ht) {e : HEntry V}
    (he : e.present = true → e.hash = f.hash e.value) : Hashed f (ht.set i e) := by
  intro j hj
  by_cases hji : j = i
  · rw [hji] at hj ⊢
    simp only [HashTable.set, Function.update_self] at hj ⊢
    exact he hj
  · simp only [HashTable.set, Function.update_of_ne hji] at hj ⊢
    exact hashed j hj

/-- Writing another field of a slot keeps a field everywhere. -/
theorem field_set {α : Type} {j : Nat} {e : HEntry V} (field : HEntry V → α)
    (he : field e = field (ht.elems i)) :
    field ((ht.set i e).elems j) = field (ht.elems j) := by
  by_cases hji : j = i
  · rw [hji, ← he]
    exact congrArg field (Function.update_self _ _ _)
  · exact congrArg field (Function.update_of_ne hji _ _)

theorem Covers.probe (h : Covers cap hash) (hi : i < cap) : cap ∣ 2 ^ 32 ∨ hash + i < 2 ^ 32 := by
  rcases h with h | h
  · exact Or.inl h
  · exact Or.inr (by omega)

/-- A search for a value that is not there fails wherever it looks. -/
theorem searchLoop_missing {n : Nat} (hcap : ht.cap > 0)
    (h : ∀ s < ht.cap, (ht.elems s).present = true → f.cmpFunc (ht.elems s).value value = false) :
    searchLoop f ht value hash n i = none := by
  induction n generalizing i with
  | zero => rfl
  | succ n ih =>
    rw [searchLoop]
    have hs : probeIndex ht hash i < ht.cap := Nat.mod_lt _ hcap
    cases hp : (ht.elems (probeIndex ht hash i)).present with
    | false => rfl
    | true =>
      simp only [Bool.not_true, Bool.false_eq_true, if_false, h _ hs hp,
        Bool.and_false, ih, ite_self]

theorem probeIndex_ok (hcap : ht.cap = cap) (h : cap ∣ 2 ^ 32 ∨ hash + i < 2 ^ 32) :
    probeIndex ht hash i = ((hash : ZMod cap) + i).val := by
  rw [probeIndex, hcap, ← Nat.cast_add, ZMod.val_natCast, u32]
  rcases h with hdvd | hlt
  · exact Nat.mod_mod_of_dvd _ hdvd
  · rw [Nat.mod_eq_of_lt hlt]

theorem view_set [NeZero cap] (ht : HashTable V) (p : ZMod cap) (e : HEntry V) :
    view cap (ht.set p.val e) = Function.update (view cap ht) p (occupant e) := by
  funext q
  by_cases hq : q = p
  · rw [hq]
    simp only [view, HashTable.set, Function.update_self]
  · have hne : q.val ≠ p.val := fun h => hq (ZMod.val_injective cap h)
    simp only [view, HashTable.set, Function.update_of_ne hq, Function.update_of_ne hne]

/-- The search loop is the search of the probe table. -/
theorem searchLoop_refines {n : Nat} (hcap : ht.cap = cap) (hashed : Hashed f ht)
    (covers : Covers cap (f.hash value)) (hn : i + n ≤ cap) :
    searchLoop f ht value (f.hash value) n i = (search (fun x => same f x value)
      (home f cap value) (view cap ht) n i).map
        fun j : Nat => (j, (home f cap value + (j : ZMod cap)).val) := by
  induction n generalizing i with
  | zero => rfl
  | succ n ih =>
    rw [searchLoop, probeIndex_ok hcap (covers.probe (by omega)), search]
    have hhome : (f.hash value : ZMod cap) = home f cap value := rfl
    rw [hhome]
    cases hslot : view cap ht (home f cap value + i) with
    | none => simp only [view_none hslot, Bool.not_false, if_true, Option.map_none]
    | some o =>
      obtain ⟨x, d⟩ := o
      obtain ⟨hp, rfl, rfl⟩ := view_some hslot
      simp only [hp, hashed _ hp, compare_eq, Bool.not_true, Bool.false_eq_true, if_false,
        ih (show i + 1 + n ≤ cap by omega)]
      by_cases hlt : (ht.elems (home f cap value + (i : ZMod cap)).val).dib < i
      · simp only [hlt, if_true, Option.map_none]
      · cases same f (ht.elems (home f cap value + (i : ZMod cap)).val).value value with
        | true => simp only [hlt, if_false, if_true, Option.map_some]
        | false => simp only [hlt, if_false, Bool.false_eq_true]

variable [NeZero cap]

/-- The insertion loop is the insertion of the probe table. -/
theorem insertLoop_refines {n d : Nat} (hcap : ht.cap = cap) (hashed : Hashed f ht)
    (hcovers : ∀ x, Holds (view cap ht) x → Covers cap (f.hash x))
    (covers : Covers cap (f.hash value)) (hn : d + n ≤ cap) :
    ∃ ht', insertLoop f n ht value (f.hash value) d =
        (resultOf (place (home f cap) (same f) n (view cap ht) value d).1, ht') ∧
      ht'.cap = cap ∧ Hashed f ht' ∧
      view cap ht' = (place (home f cap) (same f) n (view cap ht) value d).2 := by
  induction n generalizing ht value d with
  | zero => exact ⟨ht, rfl, hcap, hashed, rfl⟩
  | succ n ih =>
    rw [insertLoop, probeIndex_ok hcap (covers.probe (by omega)), place]
    have hhome : (f.hash value : ZMod cap) = home f cap value := rfl
    rw [hhome]
    obtain ⟨p, hp⟩ : ∃ p, p = home f cap value + (d : ZMod cap) := ⟨_, rfl⟩
    obtain ⟨ht₁, h₁⟩ : ∃ ht₁, ht₁ = ht.set p.val
        { value := value, hash := f.hash value, dib := d, present := true } := ⟨_, rfl⟩
    have hview : view cap ht₁ = Function.update (view cap ht) p (some (value, d)) := by
      rw [h₁]
      exact view_set ht p _
    have hcap₁ : ht₁.cap = cap := by
      rw [h₁]
      exact hcap
    have hashed₁ : Hashed f ht₁ := by
      rw [h₁]
      exact hashed.set fun _ => rfl
    rw [← hp]
    cases hslot : view cap ht p with
    | none =>
      simp only [view_none hslot, Bool.not_false, if_true, ← h₁]
      exact ⟨ht₁, rfl, hcap₁, hashed₁, hview⟩
    | some o =>
      obtain ⟨x, c⟩ := o
      obtain ⟨hpres, rfl, rfl⟩ := view_some hslot
      simp only [hpres, Bool.not_true, Bool.false_eq_true, if_false, hashed _ hpres,
        compare_eq, ← h₁]
      by_cases hlt : (ht.elems p.val).dib < d
      · simp only [hlt, if_true]
        cases same f value (ht.elems p.val).value with
        | true => exact ⟨ht₁, rfl, hcap₁, hashed₁, hview⟩
        | false =>
          have hcovers₁ : ∀ y, Holds (view cap ht₁) y → Covers cap (f.hash y) := by
            intro y hy
            rw [hview] at hy
            rcases (holds_displace hslot y).mp (Or.inl hy) with hy | rfl
            · exact hcovers y hy
            · exact covers
          have hstep := ih hcap₁ hashed₁ hcovers₁ (hcovers _ ⟨_, _, hslot⟩)
            (show (ht.elems p.val).dib + 1 + n ≤ cap by omega)
          rw [hview] at hstep
          exact hstep
      · simp only [hlt, if_false]
        cases same f (ht.elems p.val).value value with
        | true => exact ⟨ht, rfl, hcap, hashed, rfl⟩
        | false => exact ih hcap hashed hcovers covers (by omega)

/-- The shifting loop is the shift of the probe table, once its `m` rounds do not jump. -/
theorem shiftLoop_refines {m n : Nat} {t : Table V cap} (hcap : ht.cap = cap)
    (hashed : Hashed f ht) (hprobe : cap ∣ 2 ^ 32 ∨ hash + (i + m) < 2 ^ 32) (hmn : m ≤ n)
    (hhole : view cap ht ((hash : ZMod cap) + i) ≠ none)
    (hrun : shift m (view cap ht) ((hash : ZMod cap) + i) = some t) :
    ∃ ht', shiftLoop hash n ht i = .ok (.success, ht') ∧ ht'.cap = cap ∧ Hashed f ht' ∧
      view cap ht' = t := by
  induction m generalizing n ht i with
  | zero => cases hrun
  | succ m ih =>
    obtain ⟨n, rfl⟩ : ∃ k, n = k + 1 := ⟨n - 1, by omega⟩
    rw [shiftLoop, probeIndex_ok hcap (hprobe.imp_right (by omega)),
      probeIndex_ok hcap (hprobe.imp_right (by omega)), path_succ]
    rw [shift] at hrun
    obtain ⟨h, hh⟩ : ∃ h, h = (hash : ZMod cap) + i := ⟨_, rfl⟩
    rw [← hh] at hrun hhole ⊢
    have hclear : view cap (ht.set h.val { ht.elems h.val with present := false }) =
        Function.update (view cap ht) h none := view_set ht h _
    have hashed' : Hashed f (ht.set h.val { ht.elems h.val with present := false }) :=
      hashed.set fun hp => Bool.noConfusion hp
    cases hslot : view cap ht (h + 1) with
    | none =>
      rw [hslot] at hrun
      refine ⟨ht.set h.val { ht.elems h.val with present := false }, ?_, hcap, hashed',
        hclear.trans (Option.some.inj hrun)⟩
      simp only [view_none hslot, Bool.not_false, Bool.true_or, if_true]
    | some o =>
      obtain ⟨x, d⟩ := o
      rw [hslot] at hrun
      obtain ⟨hp, hx, hd⟩ := view_some hslot
      cases d with
      | zero =>
        refine ⟨ht.set h.val { ht.elems h.val with present := false }, ?_, hcap, hashed',
          hclear.trans (Option.some.inj hrun)⟩
        simp only [hp, hd, beq_self_eq_true, Bool.or_true, if_true]
      | succ d =>
        have hgap : (ht.elems h.val).present = true := view_present hhole
        obtain ⟨ht₁, h₁⟩ : ∃ ht₁, ht₁ =
            ht.set h.val { ht.elems h.val with value := (ht.elems (h + 1).val).value } := ⟨_, rfl⟩
        obtain ⟨ht₂, h₂⟩ : ∃ ht₂, ht₂ =
            ht₁.set h.val { ht₁.elems h.val with hash := (ht₁.elems (h + 1).val).hash } := ⟨_, rfl⟩
        obtain ⟨ht₃, h₃⟩ : ∃ ht₃, ht₃ = ht₂.set h.val { ht₂.elems h.val with dib := d } := ⟨_, rfl⟩
        -- with one slot the fields are read back from the slot just written
        have hhash₁ : (ht₁.elems (h + 1).val).hash = (ht.elems (h + 1).val).hash := by
          rw [h₁]
          exact field_set HEntry.hash rfl
        have hdib₁ : (ht₁.elems (h + 1).val).dib = (ht.elems (h + 1).val).dib := by
          rw [h₁]
          exact field_set HEntry.dib rfl
        have hdib₂ : (ht₂.elems (h + 1).val).dib = d + 1 := by
          rw [h₂, ← hd, ← hdib₁]
          exact field_set HEntry.dib rfl
        have hlast : ht₃ = ht.set h.val
            ⟨(ht.elems (h + 1).val).value, (ht.elems (h + 1).val).hash, d, true⟩ := by
          rw [h₃, h₂, hhash₁, h₁]
          simp only [HashTable.set, Function.update_self, Function.update_idem, hgap]
        have hview : view cap ht₃ = Function.update (view cap ht) h (some (x, d)) := by
          rw [hlast, ← hx]
          exact view_set ht h _
        have hashed₃ : Hashed f ht₃ := by
          rw [hlast]
          exact hashed.set fun _ => hashed _ hp
        have hcap₃ : ht₃.cap = cap := by
          rw [hlast]
          exact hcap
        have hstill : (ht₃.elems h.val).present = true := by
          rw [hlast]
          simp only [HashTable.set, Function.update_self]
        have hstep : (hash : ZMod cap) + ((i + 1 : Nat) : ZMod cap) = h + 1 := by
          rw [path_succ, hh]
        have hhole₃ : view cap ht₃ ((hash : ZMod cap) + ((i + 1 : Nat) : ZMod cap)) ≠ none := by
          rw [hstep, hview]
          exact update_some_ne_none (hslot ▸ Option.some_ne_none _) h _
        obtain ⟨ht', hloop, rest⟩ := ih hcap₃ hashed₃
          (show cap ∣ 2 ^ 32 ∨ hash + (i + 1 + m) < 2 ^ 32 from hprobe.imp_right (by omega))
          (show m ≤ n by omega) hhole₃ (by rw [hstep, hview]; exact hrun)
        refine ⟨ht', ?_, rest⟩
        have hgo : (!(ht.elems (h + 1).val).present || (ht.elems (h + 1).val).dib == 0) =
            false := by
          rw [hp, hd]
          rfl
        rw [hgo, if_neg Bool.false_ne_true]
        dsimp only
        rw [← h₁, ← h₂, hdib₂, assert_pos (Nat.succ_pos d), ok_bind, Nat.add_sub_cancel, ← h₃,
          assert_pos hstill, ok_bind, hloop]

end Probing

inductive Op (V : Type) where
  | insert (value : V)
  | delete (value : V)

/-- The return value and, for the deletion, what `*dest` receives. -/
inductive Reply (V : Type) where
  | inserted (res : HtiRes)
  | deleted (res : HtaRes) (dest : Option V)

def Stored (ht : HashTable V) (value : V) : Prop :=
  ∃ i < ht.cap, (ht.elems i).present = true ∧ (ht.elems i).value = value

/-- A stored value is equal to this one. -/
def Known (f : Funcs V) (ht : HashTable V) (value : V) : Prop :=
  ∃ x, Stored ht x ∧ f.cmpFunc x value = true

def HasRoom (ht : HashTable V) : Prop := ∃ i < ht.cap, (ht.elems i).present = false

/-- A slot that is empty or holds an entry in its home slot. -/
def RootAt (ht : HashTable V) (i : Nat) : Prop :=
  (ht.elems i).present = true → (ht.elems i).dib = 0

/-- A new value covers the table and, if the table is full, starts at an entry that
is at home; a deletion whose sums reach 2^32 has an end before it gets there. -/
def Sound (f : Funcs V) (ht : HashTable V) : Op V → Prop
  | .insert value => Known f ht value ∨
      Covers ht.cap (f.hash value) ∧ (HasRoom ht ∨ RootAt ht (f.hash value % ht.cap))
  | .delete value => Known f ht value → ht.cap ∣ 2 ^ 32 ∨ f.hash value + ht.cap ≠ 2 ^ 32 ∨
      ∃ i < ht.cap, i ≠ f.hash value % ht.cap ∧ RootAt ht i

def step (f : Funcs V) (ht : HashTable V) : Op V → Outcome (Reply V × HashTable V)
  | .insert value => do
    let (res, ht') ← htInsert f ht value
    .ok (.inserted res, ht')
  | .delete value => do
    let (res, dest, ht') ← htDelete f ht value
    .ok (.deleted res dest, ht')

def manual (f : Funcs V) : Interface (HashTable V) (Op V) (Reply V) :=
  { pre := Sound f, step := step f }

/-- The table under calls of any kind. -/
def anyCalls (f : Funcs V) : Interface (HashTable V) (Op V) (Reply V) :=
  { pre := fun _ _ => True, step := step f }

/-- `HT_GET` answers with the equal stored value, or that there is none. -/
def GetsExactly (f : Funcs V) (ht : HashTable V) : Prop :=
  ∀ value, (∃ x, Stored ht x ∧ f.cmpFunc x value = true ∧
      htGet f ht value = .ok (.success, some x)) ∨
    ¬ Known f ht value ∧ htGet f ht value = .ok (.doesntExist, none)

structure Coherent (f : Funcs V) (cap : Nat) (ht : HashTable V) : Prop where
  cap_eq : ht.cap = cap
  hashed : Hashed f ht
  ordered : Ordered (home f cap) (view cap ht)
  distinct : Distinct (same f) (view cap ht)
  rooted : Rooted (view cap ht)
  covers : ∀ x, Holds (view cap ht) x → Covers cap (f.hash x)

section Keeping

variable {ht : HashTable V} {value x : V}

theorem init_coherent [Inhabited V] (f : Funcs V) (cap : Nat) : Coherent f cap (htInit cap) := by
  have hnone : ∀ p x d, view cap (htInit cap : HashTable V) p ≠ some (x, d) := by
    intro p x d h
    cases h
  have hhashed : Hashed f (htInit cap : HashTable V) := fun i h => Bool.noConfusion h
  exact ⟨rfl, hhashed, ⟨fun p x d h => absurd h (hnone p x d),
    fun p x d h => absurd h (hnone _ x _)⟩,
    fun p q x c x' c' h => absurd h (hnone p x c), ⟨0, fun x d h => absurd h (hnone 0 x d)⟩,
    fun x ⟨p, d, h⟩ => absurd h (hnone p x d)⟩

theorem view_val {i : Nat} (hi : i < cap) : view cap ht (i : ZMod cap) = occupant (ht.elems i) := by
  rw [view, ZMod.val_natCast, Nat.mod_eq_of_lt hi]

theorem search_unknown {n i : Nat} (hcap : ht.cap > 0) (h : ¬ Known f ht value) :
    searchLoop f ht value (f.hash value) n i = none := by
  refine searchLoop_missing hcap fun s hs hp => Bool.eq_false_iff.mpr fun hcmp => h ?_
  exact ⟨_, ⟨s, hs, hp, rfl⟩, hcmp⟩

variable [NeZero cap]

theorem Coherent.cap_pos (coherent : Coherent f cap ht) : ht.cap > 0 := by
  rw [coherent.cap_eq]
  exact Nat.pos_of_neZero cap

theorem Coherent.stored_iff (coherent : Coherent f cap ht) :
    Stored ht x ↔ Holds (view cap ht) x := by
  constructor
  · rintro ⟨i, hi, hp, rfl⟩
    refine ⟨(i : ZMod cap), (ht.elems i).dib, ?_⟩
    rw [view_val (coherent.cap_eq ▸ hi), occupant, if_pos hp]
  · rintro ⟨p, d, hp⟩
    obtain ⟨hpres, hvalue, -⟩ := view_some hp
    exact ⟨p.val, coherent.cap_eq ▸ ZMod.val_lt p, hpres, hvalue⟩

/-- A known value is found at the distance of its equal. -/
theorem Coherent.find (lawful : f.Lawful) (coherent : Coherent f cap ht)
    (known : Known f ht value) :
    ∃ x d, Stored ht x ∧ f.cmpFunc x value = true ∧ d < cap ∧
      view cap ht (home f cap value + d) = some (x, d) ∧ Covers cap (f.hash value) ∧
      searchLoop f ht value (f.hash value) cap 0 = some (d, (home f cap value + d).val) := by
  obtain ⟨x, hstored, hcmp⟩ := known
  obtain ⟨p, d, hp⟩ := coherent.stored_iff.mp hstored
  obtain ⟨hd, hpos⟩ := coherent.ordered.distance _ _ _ hp
  have hhash : f.hash x = f.hash value := lawful.hash x value hcmp
  have hhome : home f cap value + d = p := by
    rw [← hpos, home, home, hhash]
  have covers : Covers cap (f.hash value) := hhash ▸ coherent.covers x ⟨p, d, hp⟩
  have hslot : view cap ht (home f cap value + d) = some (x, d) := by
    rw [hhome, hp]
  have hsame : same f x value = true := by
    rw [lawful.same_eq, hcmp]
  have hfound : search (fun y => same f y value) (home f cap value) (view cap ht) cap 0 = some d :=
    search_found coherent.ordered coherent.distinct hslot hsame
      (fun y hy => lawful.same_trans y value x hy hsame) (Nat.zero_le d) (by omega)
  refine ⟨x, d, hstored, hcmp, hd, hslot, covers, ?_⟩
  rw [searchLoop_refines coherent.cap_eq coherent.hashed covers (by omega), hfound, Option.map_some]

theorem Coherent.gets (lawful : f.Lawful) (coherent : Coherent f cap ht) : GetsExactly f ht := by
  intro value
  by_cases known : Known f ht value
  · obtain ⟨x, d, hstored, hcmp, -, hslot, -, hsearch⟩ := coherent.find lawful known
    refine Or.inl ⟨x, hstored, hcmp, ?_⟩
    rw [htGet, assert_pos coherent.cap_pos, ok_bind, coherent.cap_eq, hsearch]
    simp only [(view_some hslot).2.1]
  · refine Or.inr ⟨known, ?_⟩
    rw [htGet, assert_pos coherent.cap_pos, ok_bind, search_unknown coherent.cap_pos known]

theorem Coherent.fresh (lawful : f.Lawful) (coherent : Coherent f cap ht)
    (h : ¬ Known f ht value) : Fresh (same f) (view cap ht) value := by
  intro p y d hy
  refine Bool.eq_false_iff.mpr fun hsame => h ⟨y, coherent.stored_iff.mpr ⟨p, d, hy⟩, ?_⟩
  rwa [lawful.same_eq] at hsame

/-- What an insertion does to the table is what the probe table's insertion does. -/
theorem Coherent.insert_refines (coherent : Coherent f cap ht)
    (covers : Covers cap (f.hash value)) :
    ∃ ht', htInsert f ht value =
        .ok (resultOf (place (home f cap) (same f) cap (view cap ht) value 0).1, ht') ∧
      ht'.cap = cap ∧ Hashed f ht' ∧
      view cap ht' = (place (home f cap) (same f) cap (view cap ht) value 0).2 := by
  obtain ⟨ht', hrun, rest⟩ := insertLoop_refines coherent.cap_eq coherent.hashed coherent.covers
    covers (show 0 + cap ≤ cap by omega)
  refine ⟨ht', ?_, rest⟩
  rw [htInsert, assert_pos coherent.cap_pos, ok_bind, coherent.cap_eq, hrun]

theorem Coherent.insert_known (lawful : f.Lawful) (coherent : Coherent f cap ht)
    (known : Known f ht value) :
    ∃ ht', htInsert f ht value = .ok (.exists, ht') ∧ Coherent f cap ht' := by
  obtain ⟨x, d, -, hcmp, hd, hslot, covers, -⟩ := coherent.find lawful known
  obtain ⟨ht', hrun, hcap', hashed', hview⟩ := coherent.insert_refines covers
  have hsame : same f x value = true := by
    rw [lawful.same_eq, hcmp]
  have hdup := place_duplicate (n := cap) coherent.ordered coherent.distinct
    (fun a b c => lawful.same_trans a b c) hslot hsame (Nat.zero_le d) (by omega)
  rw [hdup] at hrun hview
  have hview' : view cap ht' = view cap ht := hview
  exact ⟨ht', hrun, hcap', hashed', hview' ▸ coherent.ordered, hview' ▸ coherent.distinct,
    hview' ▸ coherent.rooted, hview' ▸ coherent.covers⟩

/-- An empty slot takes a new value. -/
theorem Coherent.insert_room (lawful : f.Lawful) (coherent : Coherent f cap ht)
    (hnew : ¬ Known f ht value) (covers : Covers cap (f.hash value)) (room : HasRoom ht) :
    ∃ ht', htInsert f ht value = .ok (.success, ht') ∧ Coherent f cap ht' ∧
      ∀ x, Stored ht' x ↔ Stored ht x ∨ x = value := by
  obtain ⟨i, hi, hempty⟩ := room
  obtain ⟨j, hj, hpos⟩ := exists_offset (home f cap value) (i : ZMod cap)
  have hfree : view cap ht (home f cap value + ((0 : Nat) : ZMod cap) + j) = none := by
    rw [Nat.cast_zero, add_zero, hpos, view_val (coherent.cap_eq ▸ hi), occupant, hempty]
    rfl
  obtain ⟨t, hplace, hord, hdis, hrooted, holds⟩ := place_fresh (n := cap) (d := 0)
    (fun a b => lawful.same_symm a b) coherent.ordered coherent.distinct
    (coherent.fresh lawful hnew) carried_zero (by omega) ⟨j, hj, hfree⟩
  obtain ⟨ht', hrun, hcap', hashed', hview⟩ := coherent.insert_refines covers
  rw [hplace] at hrun hview
  have hview' : view cap ht' = t := hview
  have coherent' : Coherent f cap ht' := by
    refine ⟨hcap', hashed', hview' ▸ hord, hview' ▸ hdis, hview' ▸ hrooted, fun x hx => ?_⟩
    rw [hview', holds] at hx
    rcases hx with hx | rfl
    · exact coherent.covers x hx
    · exact covers
  refine ⟨ht', hrun, coherent', fun x => ?_⟩
  rw [coherent'.stored_iff, coherent.stored_iff, hview', holds]

/-- A full table whose home slot for the value is at home stays rooted there. -/
theorem Coherent.insert_full (lawful : f.Lawful) (coherent : Coherent f cap ht)
    (hnew : ¬ Known f ht value) (covers : Covers cap (f.hash value)) (full : ¬ HasRoom ht)
    (root : RootAt ht (f.hash value % ht.cap)) :
    ∃ ht', htInsert f ht value = .ok (.full, ht') ∧ Coherent f cap ht' := by
  have hfull : ∀ p, view cap ht p ≠ none := by
    intro p hp
    exact full ⟨p.val, coherent.cap_eq ▸ ZMod.val_lt p, view_none hp⟩
  obtain ⟨⟨y, d⟩, hslot⟩ := Option.ne_none_iff_exists'.mp (hfull (home f cap value))
  obtain ⟨hp, -, hd⟩ := view_some hslot
  have hval : (home f cap value).val = f.hash value % ht.cap := by
    rw [home, ZMod.val_natCast, coherent.cap_eq]
  have hzero : d = 0 := by
    rw [← hd, hval]
    exact root (hval ▸ hp)
  obtain ⟨t, hplace, hord, hdis, hrooted, holds⟩ := place_full_rooted
    (fun a b => lawful.same_symm a b) coherent.ordered coherent.distinct
    (coherent.fresh lawful hnew) hfull (hzero ▸ hslot)
  obtain ⟨ht', hrun, hcap', hashed', hview⟩ := coherent.insert_refines covers
  rw [hplace] at hrun hview
  have hview' : view cap ht' = t := hview
  refine ⟨ht', hrun, hcap', hashed', hview' ▸ hord, hview' ▸ hdis, hview' ▸ hrooted, fun x hx => ?_⟩
  rw [hview'] at hx
  rcases holds x hx with hx | rfl
  · exact coherent.covers x hx
  · exact covers

/-- A deletion that reaches an end before its sums reach 2^32. -/
theorem Coherent.delete_known (lawful : f.Lawful) (coherent : Coherent f cap ht)
    (known : Known f ht value) (sound : Sound f ht (.delete value)) :
    ∃ x ht', htDelete f ht value = .ok (.success, some x, ht') ∧ Coherent f cap ht' := by
  obtain ⟨x, d, -, -, hd, hslot, covers, hsearch⟩ := coherent.find lawful known
  obtain ⟨j, hj, hjcap, hroot, hprobe⟩ : ∃ j, 0 < j ∧ d + j ≤ cap ∧
      (∀ y k, view cap ht (home f cap value + d + j) = some (y, k) → k = 0) ∧
      (cap ∣ 2 ^ 32 ∨ f.hash value + (d + j) < 2 ^ 32) := by
    obtain ⟨j, hj, hjcap, hroot⟩ := root_ahead coherent.ordered coherent.rooted hslot
    rw [Sound, coherent.cap_eq] at sound
    rcases covers with hdvd | hle
    · exact ⟨j, hj, hjcap, hroot, Or.inl hdvd⟩
    · rcases sound known with hdvd | hne | ⟨i, hi, hihome, hiroot⟩
      · exact ⟨j, hj, hjcap, hroot, Or.inl hdvd⟩
      · exact ⟨j, hj, hjcap, hroot, Or.inr (by omega)⟩
      · have hroot' : ∀ y k, view cap ht (i : ZMod cap) = some (y, k) → k = 0 := by
          intro y k hy
          obtain ⟨hp, -, hk⟩ := view_some hy
          rw [ZMod.val_natCast, Nat.mod_eq_of_lt hi] at hp hk
          exact hk.symm.trans (hiroot hp)
        have hne : (i : ZMod cap) ≠ home f cap value := by
          intro heq
          have hval := congrArg ZMod.val heq
          rw [home, ZMod.val_natCast, ZMod.val_natCast, Nat.mod_eq_of_lt hi] at hval
          exact hihome hval
        obtain ⟨j, hj, hlt, hahead⟩ := root_ahead_of_ne coherent.ordered hroot' hne hslot
        exact ⟨j, hj, hlt.le, hahead, Or.inr (by omega)⟩
  obtain ⟨t, hshift, hord, hdis, hrooted, holds⟩ :=
    shift_spec (n := j) coherent.ordered (coherent.distinct.but _) hj le_rfl hroot
  have hhole : view cap ht (home f cap value + d) ≠ none := by
    rw [hslot]
    exact Option.some_ne_none _
  obtain ⟨ht', hloop, hcap', hashed', hview⟩ := shiftLoop_refines (n := cap - d) coherent.cap_eq
    coherent.hashed hprobe (by omega) hhole hshift
  refine ⟨x, ht', ?_, hcap', hashed', hview ▸ hord, hview ▸ hdis, hview ▸ hrooted, fun y hy => ?_⟩
  · rw [htDelete, assert_pos coherent.cap_pos, ok_bind, coherent.cap_eq, hsearch]
    simp only [hloop, ok_bind, (view_some hslot).2.1]
  · rw [hview, holds] at hy
    exact coherent.covers y (holds_of_gap hy)

theorem manual_preserves (lawful : f.Lawful) : Preserves (manual f) (Coherent f cap) := by
  intro ht op reply ht' coherent sound hstep
  cases op with
  | insert value =>
    obtain ⟨⟨res, ht₁⟩, hrun, hstep⟩ := bind_eq_ok.mp hstep
    obtain ⟨-, rfl⟩ := ok_pair_inj hstep
    by_cases known : Known f ht value
    · obtain ⟨ht₂, hrun', coherent'⟩ := coherent.insert_known lawful known
      rw [hrun] at hrun'
      exact (ok_pair_inj hrun').2 ▸ coherent'
    · obtain ⟨covers, room⟩ := sound.resolve_left known
      rw [coherent.cap_eq] at covers
      by_cases hroom : HasRoom ht
      · obtain ⟨ht₂, hrun', coherent', -⟩ := coherent.insert_room lawful known covers hroom
        rw [hrun] at hrun'
        exact (ok_pair_inj hrun').2 ▸ coherent'
      · obtain ⟨ht₂, hrun', coherent'⟩ := coherent.insert_full lawful known covers hroom
          (room.resolve_left hroom)
        rw [hrun] at hrun'
        exact (ok_pair_inj hrun').2 ▸ coherent'
  | delete value =>
    obtain ⟨⟨res, dest, ht₁⟩, hrun, hstep⟩ := bind_eq_ok.mp hstep
    obtain ⟨-, rfl⟩ := ok_pair_inj hstep
    by_cases known : Known f ht value
    · obtain ⟨x, ht₂, hrun', coherent'⟩ := coherent.delete_known lawful known sound
      rw [hrun] at hrun'
      exact (ok_triple_inj hrun').2.2 ▸ coherent'
    · rw [htDelete, assert_pos coherent.cap_pos, ok_bind,
        search_unknown coherent.cap_pos known] at hrun
      exact (ok_triple_inj hrun).2.2 ▸ coherent

end Keeping

/-- In every run of sound calls, a table with room takes each new value that covers it. -/
theorem new_values_inserted [Inhabited V] (lawful : f.Lawful) (hcap : 1 ≤ cap)
    {trace : List (Op V × Reply V)} {ht : HashTable V}
    (run : Trace (manual f) (htInit cap) trace ht) :
    GetsExactly f ht ∧
      (HasRoom ht → ∀ value, ¬ Known f ht value → Covers cap (f.hash value) →
        ∃ ht', htInsert f ht value = .ok (.success, ht') ∧
          (∀ x, Stored ht' x ↔ Stored ht x ∨ x = value) ∧ GetsExactly f ht') := by
  have : NeZero cap := ⟨by omega⟩
  have coherent := (manual_preserves lawful).trace (init_coherent f cap) run
  refine ⟨coherent.gets lawful, fun room value hnew covers => ?_⟩
  obtain ⟨ht', hrun, coherent', holds⟩ := coherent.insert_room lawful hnew covers room
  exact ⟨ht', hrun, holds, coherent'.gets lawful⟩

/-- Numbers that are their own hashes. -/
def numbers : Funcs Nat := ⟨id, fun a b => decide (a = b)⟩

theorem numbers_lawful : numbers.Lawful where
  refl := fun a => decide_eq_true rfl
  symm := fun a b => decide_eq_decide.mpr eq_comm
  trans := by
    intro a b c hab hbc
    exact decide_eq_true ((of_decide_eq_true hab).trans (of_decide_eq_true hbc))
  hash := by
    intro a b hab
    rw [of_decide_eq_true hab]

/-- Three slots, of which 0 and 3 take the first two. -/
def twoOfThree : HashTable Nat :=
  ((htInit 3).set 0 { value := 0, hash := 0, dib := 0, present := true }).set 1
    { value := 3, hash := 3, dib := 1, present := true }

theorem insert_zero : step numbers (htInit 3) (.insert 0) = .ok (.inserted .success,
    (htInit 3).set 0 { value := 0, hash := 0, dib := 0, present := true }) := rfl

theorem insert_three :
    step numbers ((htInit 3).set 0 { value := 0, hash := 0, dib := 0, present := true })
      (.insert 3) = .ok (.inserted .success, twoOfThree) := rfl

theorem new_values_inserted_three : GetsExactly numbers twoOfThree ∧
    (HasRoom twoOfThree → ∀ value, ¬ Known numbers twoOfThree value →
      Covers 3 (numbers.hash value) →
      ∃ ht', htInsert numbers twoOfThree value = .ok (.success, ht') ∧
        (∀ x, Stored ht' x ↔ Stored twoOfThree x ∨ x = value) ∧ GetsExactly numbers ht') := by
  have sound₁ : Sound numbers (htInit 3) (.insert 0) :=
    Or.inr ⟨Or.inr (by decide), Or.inl ⟨0, by decide, rfl⟩⟩
  have sound₂ : Sound numbers
      ((htInit 3).set 0 { value := 0, hash := 0, dib := 0, present := true }) (.insert 3) :=
    Or.inr ⟨Or.inr (by decide), Or.inl ⟨1, by decide, rfl⟩⟩
  have run : Trace (manual numbers) (htInit 3)
      [(.insert 0, .inserted .success), (.insert 3, .inserted .success)] twoOfThree :=
    .cons sound₁ insert_zero (.cons sound₂ insert_three (.nil _))
  exact new_values_inserted numbers_lawful (by decide) run

/-- The probes of 2^32 - 1 visit the slots 0, 0 and 1: the third slot stays empty, and 0 is
displaced from the table. -/
theorem wrapping_hash_lost : ¬ ∀ (V : Type) [Inhabited V] (f : Funcs V) (cap : Nat)
    (trace : List (Op V × Reply V)) (ht : HashTable V), f.Lawful → 1 ≤ cap →
    Trace (anyCalls f) (htInit cap) trace ht → HasRoom ht → ∀ value, ¬ Known f ht value →
    ∃ ht', htInsert f ht value = .ok (.success, ht') ∧
      (∀ x, Stored ht x → Stored ht' x) ∧ GetsExactly f ht' := by
  intro h
  have run : Trace (anyCalls numbers) (htInit 3)
      [(.insert 0, .inserted .success), (.insert 3, .inserted .success)] twoOfThree :=
    .cons trivial insert_zero (.cons trivial insert_three (.nil _))
  have hnew : ¬ Known numbers twoOfThree 4294967295 := by
    rintro ⟨x, ⟨i, hi, hp, rfl⟩, hcmp⟩
    have hslots : i = 0 ∨ i = 1 ∨ i = 2 := by
      have hi : i < 3 := hi
      omega
    rcases hslots with rfl | rfl | rfl
    · cases hcmp
    · cases hcmp
    · cases hcmp
  obtain ⟨ht', hrun, -, -⟩ := h Nat numbers 3 _ _ numbers_lawful (by decide) run
    ⟨2, by decide, rfl⟩ 4294967295 hnew
  have hfull : (htInsert numbers twoOfThree 4294967295).map Prod.fst = .ok .full := rfl
  rw [hrun] at hfull
  cases hfull

end RobinHoodManual
