import CSpecx.Component
import CSpecx.ProbeTable
import CSpecx.RobinHood
import Mathlib.Data.Finmap
import Mathlib.Tactic.NormNum

/-!
# The Robin Hood table is a finite map

The occupied slots are seen as a probe table over the ring of slots; each loop
of the source is the loop of the probe table as long as no probe wraps. The
map is the set of entries, and every call is a step of the map.
-/

namespace RobinHood

open CExec ProbeTable Component

variable {V : Type} {K : KeyType} {cap : Nat}

/-- The first number above the type. -/
def KeyType.limit (K : KeyType) : Int := if K.signed then 2 ^ (K.bits - 1) else 2 ^ K.bits

/-- The keys whose probes all stay in range. -/
def KeyOk (K : KeyType) (cap : Nat) (key : Int) : Prop := 0 ≤ key ∧ key + cap < K.limit

def home (cap : Nat) (e : HData V) : ZMod cap := (e.key.toNat : ZMod cap)

def sameKey (a b : HData V) : Bool := decide (a.key = b.key)

def occupant (e : HEntry V) : Option (HData V × Nat) :=
  if e.present then some (e.data, e.dib) else none

def view (cap : Nat) (ht : HashTable V) : Table (HData V) cap :=
  fun p => occupant (ht.elems p.val)

theorem sameKey_symm (a b : HData V) : sameKey a b = sameKey b a := by
  simp only [sameKey, eq_comm]

theorem sameKey_trans (a b c : HData V) (hab : sameKey a b = true) (hcb : sameKey c b = true) :
    sameKey a c = true := by
  simp only [sameKey, decide_eq_true_eq] at *
  rw [hab, hcb]

section Probing

variable {ht : HashTable V} {key : Int} {i : Nat}

theorem view_some {p : ZMod cap} {e : HData V} {d : Nat} (h : view cap ht p = some (e, d)) :
    (ht.elems p.val).present = true ∧ (ht.elems p.val).data = e ∧
      (ht.elems p.val).dib = d := by
  simp only [view, occupant] at h
  split at h
  · next hp =>
    obtain ⟨h₁, h₂⟩ := Prod.mk.inj (Option.some.inj h)
    exact ⟨hp, h₁, h₂⟩
  · cases h

theorem view_none {p : ZMod cap} (h : view cap ht p = none) :
    (ht.elems p.val).present = false := by
  simp only [view, occupant] at h
  split at h
  · cases h
  · next hp => exact Bool.eq_false_iff.mpr hp

theorem view_present {p : ZMod cap} (h : view cap ht p ≠ none) :
    (ht.elems p.val).present = true := by
  obtain ⟨⟨e, d⟩, hslot⟩ := Option.ne_none_iff_exists'.mp h
  exact (view_some hslot).1

/-- No sum leaves the type. -/
theorem keySum_ok (hkey : KeyOk K cap key) (hi : i ≤ cap) : keySum K key i = .ok (key + i) := by
  obtain ⟨h₀, h₁⟩ := hkey
  rw [KeyType.limit] at h₁
  rw [keySum]
  split
  · next hwraps =>
    rw [KeyType.wraps, Bool.and_eq_true, Bool.not_eq_true'] at hwraps
    rw [if_neg (Bool.eq_false_iff.mp hwraps.1)] at h₁
    rw [Int.emod_eq_of_lt (by omega) (by omega)]
  · next hplain =>
    have hneg : (0 : Int) ≤ 2 ^ (sumBits K - 1) := pow_nonneg (by norm_num) _
    have hbits : key + cap < 2 ^ (sumBits K - 1) := by
      refine lt_of_lt_of_le h₁ ?_
      split
      · exact pow_le_pow_right₀ (by norm_num) (by unfold sumBits; omega)
      · next hunsigned =>
        refine pow_le_pow_right₀ (by norm_num) ?_
        have hnarrow : K.bits < 32 := by
          by_contra hwide
          exact hplain (by simp [KeyType.wraps, hunsigned, not_lt.mp hwide])
        unfold sumBits
        omega
    rw [access_pos ⟨by omega, by omega⟩, ok_bind]

variable [NeZero cap]

theorem ktypeCap_eq (hkey : KeyOk K cap key) : ktypeCap K cap = cap := by
  obtain ⟨h₀, h₁⟩ := hkey
  have hpos : 0 < cap := Nat.pos_of_neZero cap
  rw [KeyType.limit] at h₁
  rw [ktypeCap]
  split at h₁
  · next hsigned =>
    have hw : 0 < K.bits := by
      refine Nat.pos_of_ne_zero fun hw => ?_
      rw [hw] at h₁
      norm_num at h₁
      omega
    have hpow : (2 : Nat) ^ K.bits = 2 * 2 ^ (K.bits - 1) := by
      rw [← pow_succ', Nat.sub_add_cancel hw]
    have h₂ : (cap : Int) < ((2 ^ (K.bits - 1) : Nat) : Int) := by
      push_cast
      omega
    rw [if_pos hsigned]
    refine Int.bmod_eq_of_le ?_ ?_
    · omega
    · rw [hpow]
      push_cast at h₂ ⊢
      omega
  · next hunsigned =>
    rw [if_neg hunsigned]
    exact Int.emod_eq_of_lt (Int.natCast_nonneg cap) (by omega)

theorem probeIndex_ok (hcap : ht.cap = cap) (hkey : KeyOk K cap key) (hi : i ≤ cap) :
    probeIndex K ht.cap key i = .ok ((key.toNat : ZMod cap) + i).val := by
  obtain ⟨k, rfl⟩ := Int.eq_ofNat_of_zero_le hkey.1
  have hpos : 0 < cap := Nat.pos_of_neZero cap
  have hmod : ((k : Int) + i).tmod cap = (((k + i) % cap : Nat) : Int) := by
    rw [← Int.natCast_add, ← Int.ofNat_tmod]
  have hlt : (k + i) % cap < cap := Nat.mod_lt _ hpos
  have hval : (((k : Int).toNat : ZMod cap) + i).val = (k + i) % cap := by
    rw [Int.toNat_natCast, ← Nat.cast_add, ZMod.val_natCast]
  unfold probeIndex
  rw [keySum_ok hkey hi, ok_bind, hcap, ktypeCap_eq hkey, hmod, access_pos ⟨by omega, by omega⟩,
    ok_bind, Int.toNat_natCast, hval]

theorem view_set (ht : HashTable V) (p : ZMod cap) (e : HEntry V) :
    view cap (ht.set p.val e) = Function.update (view cap ht) p (occupant e) := by
  funext q
  by_cases hq : q = p
  · subst hq
    simp [view, HashTable.set]
  · have hne : q.val ≠ p.val := fun h => hq (ZMod.val_injective cap h)
    simp [view, HashTable.set, hq, hne]

/-- The search loop is the search of the probe table. -/
theorem searchLoop_refines {n : Nat} (hcap : ht.cap = cap) (hkey : KeyOk K cap key)
    (hn : i + n ≤ cap) :
    searchLoop K ht key n i = .ok ((search (fun e => decide (e.key = key))
      (key.toNat : ZMod cap) (view cap ht) n i).map
        fun j => (j, ((key.toNat : ZMod cap) + j).val)) := by
  induction n generalizing i with
  | zero => rfl
  | succ n ih =>
    rw [searchLoop, probeIndex_ok hcap hkey (by omega), ok_bind]
    cases hslot : view cap ht ((key.toNat : ZMod cap) + i) with
    | none =>
      simp only [search, hslot, view_none hslot, Bool.not_false, if_true, Option.map_none]
    | some o =>
      obtain ⟨e, d⟩ := o
      obtain ⟨hp, rfl, rfl⟩ := view_some hslot
      simp only [search, hslot, hp, Bool.not_true, Bool.false_eq_true, if_false,
        decide_eq_true_eq, ih (i := i + 1) (by omega)]
      split
      · rfl
      · split <;> rfl

def resultOf : Placed → HtiRes
  | .new => .success
  | .duplicate => .exists
  | .full => .full

/-- The insertion loop is the insertion of the probe table. -/
theorem insertLoop_refines {n d : Nat} {data : HData V} (hcap : ht.cap = cap)
    (hkeys : ∀ e, Holds (view cap ht) e → KeyOk K cap e.key) (hkey : KeyOk K cap data.key)
    (hn : d + n ≤ cap) : ∃ ht',
    insertLoop K n ht data d =
      .ok (resultOf (place (home cap) sameKey n (view cap ht) data d).1, ht') ∧
    ht'.cap = cap ∧
    view cap ht' = (place (home cap) sameKey n (view cap ht) data d).2 := by
  induction n generalizing ht data d with
  | zero => exact ⟨ht, rfl, hcap, rfl⟩
  | succ n ih =>
    rw [insertLoop, probeIndex_ok hcap hkey (by omega), ok_bind]
    have hhome : (data.key.toNat : ZMod cap) = home cap data := rfl
    rw [hhome]
    cases hslot : view cap ht (home cap data + d) with
    | none =>
      simp only [place, hslot, view_none hslot, Bool.not_false, if_true]
      exact ⟨_, rfl, hcap, view_set ht _ _⟩
    | some o =>
      obtain ⟨e, c⟩ := o
      obtain ⟨hp, rfl, rfl⟩ := view_some hslot
      simp only [place, hslot, hp, Bool.not_true, Bool.false_eq_true, if_false]
      by_cases hlt : (ht.elems (home cap data + (d : ZMod cap)).val).dib < d
      · simp only [hlt, if_true, sameKey, decide_eq_true_eq]
        have hview := view_set ht (home cap data + (d : ZMod cap))
          { data := data, dib := d, present := true }
        split
        · exact ⟨_, rfl, hcap, hview⟩
        · have hkeys' : ∀ x, Holds (view cap (ht.set (home cap data + (d : ZMod cap)).val
              { data := data, dib := d, present := true })) x → KeyOk K cap x.key := by
            intro x hx
            rw [hview] at hx
            rcases (holds_displace hslot x).mp (Or.inl hx) with hx | rfl
            · exact hkeys x hx
            · exact hkey
          obtain ⟨c, hc⟩ : ∃ c, c = (ht.elems (home cap data + (d : ZMod cap)).val).dib + 1 :=
            ⟨_, rfl⟩
          rw [← hc]
          have hcap' : (ht.set (home cap data + (d : ZMod cap)).val
              { data := data, dib := d, present := true }).cap = cap := hcap
          have hstep := ih (d := c) hcap' hkeys' (hkeys _ ⟨_, _, hslot⟩) (by omega)
          rw [hview] at hstep
          exact hstep
      · simp only [hlt, if_false, sameKey, decide_eq_true_eq]
        split
        · exact ⟨ht, rfl, hcap, rfl⟩
        · exact ih hcap hkeys hkey (by omega)

/-- The shifting loop is the shift of the probe table. -/
theorem shiftLoop_refines {n : Nat} {t : Table (HData V) cap} (hcap : ht.cap = cap)
    (hkey : KeyOk K cap key) (hn : i + n ≤ cap)
    (hhole : view cap ht ((key.toNat : ZMod cap) + i) ≠ none)
    (hrun : shift n (view cap ht) ((key.toNat : ZMod cap) + i) = some t) :
    ∃ ht', shiftLoop K key n ht i = .ok (.success, ht') ∧ ht'.cap = cap ∧
      view cap ht' = t := by
  induction n generalizing ht i with
  | zero => cases hrun
  | succ n ih =>
    rw [shiftLoop, probeIndex_ok hcap hkey (by omega), ok_bind,
      probeIndex_ok hcap hkey (by omega), ok_bind, path_succ]
    rw [shift] at hrun
    obtain ⟨h, hh⟩ : ∃ h, h = (key.toNat : ZMod cap) + i := ⟨_, rfl⟩
    rw [← hh] at hrun hhole ⊢
    have hclear : view cap (ht.set h.val { ht.elems h.val with present := false }) =
        Function.update (view cap ht) h none := view_set ht h _
    cases hslot : view cap ht (h + 1) with
    | none =>
      rw [hslot] at hrun
      have hp := view_none hslot
      refine ⟨ht.set h.val { ht.elems h.val with present := false }, ?_, hcap,
        hclear.trans (Option.some.inj hrun)⟩
      simp only [hp, Bool.not_false, Bool.true_or, if_true]
    | some o =>
      obtain ⟨e, d⟩ := o
      rw [hslot] at hrun
      obtain ⟨hp, he, hd⟩ := view_some hslot
      cases d with
      | zero =>
        refine ⟨ht.set h.val { ht.elems h.val with present := false }, ?_, hcap,
          hclear.trans (Option.some.inj hrun)⟩
        simp only [hp, hd, beq_self_eq_true, Bool.or_true, if_true]
      | succ d =>
        have hgap : (ht.elems h.val).present = true := view_present hhole
        obtain ⟨ht₁, h₁⟩ : ∃ ht₁, ht₁ =
            ht.set h.val { ht.elems h.val with data := (ht.elems (h + 1).val).data } := ⟨_, rfl⟩
        -- with one slot the copy is read back from the slot just written
        have hdib : (ht₁.elems (h + 1).val).dib = d + 1 := by
          rw [h₁, ← hd]
          by_cases hs : (h + 1).val = h.val
          · simp [HashTable.set, hs]
          · simp [HashTable.set, hs]
        have hview : view cap (ht₁.set h.val { ht₁.elems h.val with dib := d }) =
            Function.update (view cap ht) h (some (e, d)) := by
          rw [view_set, h₁, view_set, Function.update_idem]
          simp [HashTable.set, occupant, hgap, he]
        have hstill : ((ht₁.set h.val { ht₁.elems h.val with dib := d }).elems
            h.val).present = true := by
          simp [HashTable.set, h₁, hgap]
        have hstep : (key.toNat : ZMod cap) + ((i + 1 : Nat) : ZMod cap) = h + 1 := by
          rw [path_succ, hh]
        have hcap₂ : (ht₁.set h.val { ht₁.elems h.val with dib := d }).cap = cap := by
          rw [h₁]
          exact hcap
        have hhole₂ : view cap (ht₁.set h.val { ht₁.elems h.val with dib := d })
            ((key.toNat : ZMod cap) + ((i + 1 : Nat) : ZMod cap)) ≠ none := by
          rw [hstep, hview]
          exact update_some_ne_none (hslot ▸ Option.some_ne_none _) h _
        obtain ⟨ht', hloop, hcap', hview'⟩ := ih hcap₂ (by omega) hhole₂
          (by rw [hstep, hview]; exact hrun)
        refine ⟨ht', ?_, hcap', hview'⟩
        have hgo : (!(ht.elems (h + 1).val).present ||
            (ht.elems (h + 1).val).dib == 0) = false := by simp [hp, hd]
        rw [hgo, if_neg Bool.false_ne_true]
        dsimp only
        rw [← h₁, hdib, assert_pos (Nat.succ_pos d), ok_bind, Nat.add_sub_cancel,
          assert_pos hstill, ok_bind, hloop]

end Probing

inductive Op (V : Type) where
  | insert (data : HData V)
  | get (key : Int)
  | delete (key : Int)
  | count

/-- The return value and, for the lookups, what `*dest` receives. -/
inductive Reply (V : Type) where
  | inserted (res : HtiRes)
  | found (res : HtaRes) (dest : Option (HData V))
  | counted (n : Nat)

def Stored (ht : HashTable V) (key : Int) : Prop :=
  ∃ i < ht.cap, (ht.elems i).present = true ∧ (ht.elems i).data.key = key

def occupied (ht : HashTable V) : Nat :=
  (List.range ht.cap).countP fun i => (ht.elems i).present

/-- No probe of the key wraps, and an absent key is inserted into a table that
is not full. -/
def Permitted (K : KeyType) (ht : HashTable V) : Op V → Prop
  | .insert data => KeyOk K ht.cap data.key ∧ (Stored ht data.key ∨ occupied ht < ht.cap)
  | .get key => KeyOk K ht.cap key
  | .delete key => KeyOk K ht.cap key
  | .count => True

def step (K : KeyType) (ht : HashTable V) : Op V → Outcome (Reply V × HashTable V)
  | .insert data => do
    let (res, ht') ← htInsert K ht data
    .ok (.inserted res, ht')
  | .get key => do
    let (res, dest) ← htGet K ht key
    .ok (.found res dest, ht)
  | .delete key => do
    let (res, dest, ht') ← htDelete K ht key
    .ok (.found res dest, ht')
  | .count => do
    let n ← htCount ht
    .ok (.counted n, ht)

def robinHood (V : Type) (K : KeyType) : Interface (HashTable V) (Op V) (Reply V) :=
  { pre := Permitted K, step := step K }

abbrev KeyMap (V : Type) := Finmap fun _ : Int => V

/-- The operations of a finite map. -/
inductive MapStep : KeyMap V → Op V → Reply V → KeyMap V → Prop where
  | insertExists {m : KeyMap V} {data : HData V} :
      data.key ∈ m → MapStep m (.insert data) (.inserted .exists) m
  | insertSuccess {m : KeyMap V} {data : HData V} :
      data.key ∉ m →
        MapStep m (.insert data) (.inserted .success) (m.insert data.key data.value)
  | getFound {m : KeyMap V} {key : Int} {value : V} :
      m.lookup key = some value →
        MapStep m (.get key) (.found .success (some ⟨key, value⟩)) m
  | getMissing {m : KeyMap V} {key : Int} :
      key ∉ m → MapStep m (.get key) (.found .doesntExist none) m
  | deleteFound {m : KeyMap V} {key : Int} {value : V} :
      m.lookup key = some value →
        MapStep m (.delete key) (.found .success (some ⟨key, value⟩)) (m.erase key)
  | deleteMissing {m : KeyMap V} {key : Int} :
      key ∉ m → MapStep m (.delete key) (.found .doesntExist none) m
  | count (m : KeyMap V) : MapStep m .count (.counted m.keys.card) m

structure Represents (K : KeyType) (cap : Nat) (ht : HashTable V) (m : KeyMap V) : Prop where
  cap_eq : ht.cap = cap
  ordered : Ordered (home cap) (view cap ht)
  distinct : Distinct sameKey (view cap ht)
  rooted : Rooted (view cap ht)
  keys : ∀ e, Holds (view cap ht) e → KeyOk K cap e.key
  holds : ∀ e, Holds (view cap ht) e ↔ m.lookup e.key = some e.value

section Simulation

variable {ht : HashTable V} {m : KeyMap V} {key : Int}

theorem Represents.absent (rep : Represents K cap ht m) (h : key ∉ m) {p : ZMod cap}
    {e : HData V} {c : Nat} (he : view cap ht p = some (e, c)) : e.key ≠ key := by
  rintro rfl
  have hlook := (rep.holds e).mp ⟨p, c, he⟩
  exact h (Finmap.mem_iff.mpr ⟨_, hlook⟩)

theorem init_represents [Inhabited V] (K : KeyType) :
    Represents K cap (htInit cap : HashTable V) ∅ := by
  have hnone : ∀ p, view cap (htInit cap : HashTable V) p = none := fun p => rfl
  refine ⟨rfl, ⟨fun p e d h => ?_, fun p e d h => ?_⟩, fun p q e c e' c' h => ?_,
    ⟨0, fun e d h => ?_⟩, fun e ⟨p, c, h⟩ => ?_, fun e => ⟨fun ⟨p, c, h⟩ => ?_, fun h => ?_⟩⟩
  · rw [hnone] at h; cases h
  · rw [hnone] at h; cases h
  · rw [hnone] at h; cases h
  · rw [hnone] at h; cases h
  · rw [hnone] at h; cases h
  · rw [hnone] at h; cases h
  · rw [Finmap.lookup_empty] at h; cases h

variable [NeZero cap]

/-- A key of the map is found at its distance. -/
theorem Represents.search_present (rep : Represents K cap ht m) (hkey : KeyOk K cap key)
    {value : V} (h : m.lookup key = some value) : ∃ d < cap,
    view cap ht ((key.toNat : ZMod cap) + d) = some (⟨key, value⟩, d) ∧
    searchLoop K ht key cap 0 = .ok (some (d, ((key.toNat : ZMod cap) + d).val)) := by
  obtain ⟨p, d, hp⟩ := (rep.holds ⟨key, value⟩).mpr h
  obtain ⟨hd, hpos⟩ := rep.ordered.distance _ _ _ hp
  have hpos' : (key.toNat : ZMod cap) + d = p := hpos
  refine ⟨d, hd, hpos'.symm ▸ hp, ?_⟩
  have hfound : search (fun e => decide (e.key = key)) (key.toNat : ZMod cap) (view cap ht)
      cap 0 = some d :=
    search_found rep.ordered rep.distinct (hpos'.symm ▸ hp) (by simp)
      (fun x hx => by simpa [sameKey] using hx) (Nat.zero_le d) (by omega)
  rw [searchLoop_refines rep.cap_eq hkey (by omega), hfound]
  rfl

theorem Represents.search_absent (rep : Represents K cap ht m) (hkey : KeyOk K cap key)
    (h : key ∉ m) : searchLoop K ht key cap 0 = .ok none := by
  rw [searchLoop_refines rep.cap_eq hkey (by omega),
    search_missing fun p e c he => decide_eq_false (rep.absent h he)]
  rfl

theorem Represents.iterations (rep : Represents K cap ht m) (hkey : KeyOk K cap key) :
    (ktypeCap K ht.cap).toNat = cap := by
  rw [rep.cap_eq, ktypeCap_eq hkey, Int.toNat_natCast]

theorem Represents.cap_pos (rep : Represents K cap ht m) : ht.cap > 0 := by
  rw [rep.cap_eq]
  exact Nat.pos_of_neZero cap

theorem get_present (rep : Represents K cap ht m) (hkey : KeyOk K cap key) {value : V}
    (h : m.lookup key = some value) :
    htGet K ht key = .ok (.success, some ⟨key, value⟩) := by
  obtain ⟨d, -, hslot, hsearch⟩ := rep.search_present hkey h
  have hdata := (view_some hslot).2.1
  rw [htGet, assert_pos rep.cap_pos, ok_bind, rep.iterations hkey, hsearch, ok_bind]
  simp only [hdata]

theorem get_absent (rep : Represents K cap ht m) (hkey : KeyOk K cap key) (h : key ∉ m) :
    htGet K ht key = .ok (.doesntExist, none) := by
  rw [htGet, assert_pos rep.cap_pos, ok_bind, rep.iterations hkey,
    rep.search_absent hkey h, ok_bind]

/-- Deleting shifts the following entries back to a root, also in a full table. -/
theorem delete_present (rep : Represents K cap ht m) (hkey : KeyOk K cap key) {value : V}
    (h : m.lookup key = some value) :
    ∃ ht', htDelete K ht key = .ok (.success, some ⟨key, value⟩, ht') ∧
      Represents K cap ht' (m.erase key) := by
  obtain ⟨d, hd, hslot, hsearch⟩ := rep.search_present hkey h
  have hdata := (view_some hslot).2.1
  obtain ⟨j, hj, hjcap, hroot⟩ := root_ahead rep.ordered rep.rooted hslot
  obtain ⟨t, hshift, hord, hdis, hrooted, holds⟩ :=
    shift_spec (n := cap - d) rep.ordered (rep.distinct.but _) hj (by omega) hroot
  obtain ⟨ht', hloop, hcap', hview⟩ := shiftLoop_refines rep.cap_eq hkey (by omega)
    (by rw [hslot]; simp) hshift
  have hholds : ∀ e, Holds (view cap ht') e ↔ Holds (view cap ht) e ∧ e.key ≠ key := by
    intro e
    rw [hview, holds]
    constructor
    · rintro ⟨p, c, hp⟩
      by_cases hpd : p = (key.toNat : ZMod cap) + d
      · rw [hpd, Function.update_self] at hp
        cases hp
      · rw [Function.update_of_ne hpd] at hp
        refine ⟨⟨p, c, hp⟩, fun he => hpd ?_⟩
        exact rep.distinct _ _ _ _ _ _ hp hslot (by simpa [sameKey] using he)
    · rintro ⟨⟨p, c, hp⟩, hne⟩
      refine ⟨p, c, ?_⟩
      have hpd : p ≠ (key.toNat : ZMod cap) + d := by
        rintro rfl
        rw [hslot] at hp
        have he : e = ⟨key, value⟩ := (Prod.mk.inj (Option.some.inj hp)).1.symm
        exact hne (by rw [he])
      rw [Function.update_of_ne hpd, hp]
  refine ⟨ht', ?_, hcap', hview ▸ hord, hview ▸ hdis, hview ▸ hrooted,
    fun e he => rep.keys e ((hholds e).mp he).1, fun e => ?_⟩
  · rw [htDelete, assert_pos rep.cap_pos, ok_bind, rep.iterations hkey, hsearch, ok_bind]
    simp only [hloop, ok_bind, hdata]
  · rw [hholds, rep.holds]
    by_cases hek : e.key = key
    · rw [hek, Finmap.lookup_erase]
      simp
    · simp [hek, Finmap.lookup_erase_ne hek]

theorem delete_absent (rep : Represents K cap ht m) (hkey : KeyOk K cap key) (h : key ∉ m) :
    htDelete K ht key = .ok (.doesntExist, none, ht) := by
  rw [htDelete, assert_pos rep.cap_pos, ok_bind, rep.iterations hkey,
    rep.search_absent hkey h, ok_bind]

theorem insert_present (rep : Represents K cap ht m) {data : HData V}
    (hkey : KeyOk K cap data.key) (h : data.key ∈ m) :
    ∃ ht', htInsert K ht data = .ok (.exists, ht') ∧ Represents K cap ht' m := by
  obtain ⟨value, hvalue⟩ := Finmap.mem_iff.mp h
  obtain ⟨d, -, hslot, -⟩ := rep.search_present hkey hvalue
  obtain ⟨ht', hrun, hcap', hview⟩ := insertLoop_refines rep.cap_eq rep.keys hkey
    (show 0 + cap ≤ cap by omega)
  have hdup := place_duplicate (n := cap) (e := data) rep.ordered rep.distinct sameKey_trans
    hslot (by simp [sameKey]) (Nat.zero_le d)
    (by have := (rep.ordered.distance _ _ _ hslot).1; omega)
  rw [hdup] at hrun hview
  have hsame : view cap ht' = view cap ht := hview
  refine ⟨ht', ?_, hcap', hsame ▸ rep.ordered, hsame ▸ rep.distinct, hsame ▸ rep.rooted,
    hsame ▸ rep.keys, hsame ▸ rep.holds⟩
  rw [htInsert, assert_pos rep.cap_pos, ok_bind, rep.iterations hkey, hrun]
  rfl

theorem exists_empty (hcap : ht.cap = cap) (h : occupied ht < ht.cap) :
    ∃ p : ZMod cap, view cap ht p = none := by
  by_contra hall
  have hfull : occupied ht = (List.range ht.cap).length := by
    refine List.countP_eq_length.mpr fun i hi => ?_
    rw [List.mem_range, hcap] at hi
    refine by_contra fun hno => hall ⟨(i : ZMod cap), ?_⟩
    have hval : ((i : ZMod cap)).val = i := by
      rw [ZMod.val_natCast, Nat.mod_eq_of_lt hi]
    simp only [view, occupant, hval, Bool.eq_false_iff.mpr hno, Bool.false_eq_true, if_false]
  rw [List.length_range] at hfull
  omega

theorem insert_absent (rep : Represents K cap ht m) {data : HData V}
    (hkey : KeyOk K cap data.key) (h : data.key ∉ m) (hroom : occupied ht < ht.cap) :
    ∃ ht', htInsert K ht data = .ok (.success, ht') ∧
      Represents K cap ht' (m.insert data.key data.value) := by
  have hfresh : Fresh sameKey (view cap ht) data := fun p e c he =>
    decide_eq_false (rep.absent h he)
  obtain ⟨p, hp⟩ := exists_empty rep.cap_eq hroom
  obtain ⟨j, hj, rfl⟩ := exists_offset (home cap data) p
  obtain ⟨t, hplace, hord, hdis, hrooted, holds⟩ :=
    place_fresh (n := cap) (d := 0) sameKey_symm rep.ordered rep.distinct hfresh carried_zero
      (by omega) ⟨j, hj, by rwa [Nat.cast_zero, add_zero]⟩
  obtain ⟨ht', hrun, hcap', hview⟩ := insertLoop_refines rep.cap_eq rep.keys hkey
    (show 0 + cap ≤ cap by omega)
  rw [hplace] at hrun hview
  have hview' : view cap ht' = t := hview
  refine ⟨ht', ?_, hcap', hview' ▸ hord, hview' ▸ hdis, hview' ▸ hrooted, fun e he => ?_,
    fun e => ?_⟩
  · rw [htInsert, assert_pos rep.cap_pos, ok_bind, rep.iterations hkey, hrun]
    rfl
  · rw [hview', holds] at he
    rcases he with he | rfl
    · exact rep.keys e he
    · exact hkey
  · rw [hview', holds, rep.holds]
    by_cases hek : e.key = data.key
    · rw [hek, Finmap.lookup_insert, Finmap.lookup_eq_none.mpr h]
      constructor
      · rintro (hno | rfl)
        · cases hno
        · rfl
      · intro hv
        refine Or.inr ?_
        obtain ⟨k, v⟩ := e
        obtain ⟨k', v'⟩ := data
        simp only at hek hv
        rw [hek, Option.some.inj hv]
    · rw [Finmap.lookup_insert_of_ne _ hek]
      constructor
      · rintro (hv | rfl)
        · exact hv
        · exact absurd rfl hek
      · exact Or.inl

theorem stored_iff (rep : Represents K cap ht m) : Stored ht key ↔ key ∈ m := by
  constructor
  · rintro ⟨i, hi, hp, rfl⟩
    rw [rep.cap_eq] at hi
    have hval : ((i : ZMod cap)).val = i := by
      rw [ZMod.val_natCast, Nat.mod_eq_of_lt hi]
    have hview : view cap ht (i : ZMod cap) = some ((ht.elems i).data, (ht.elems i).dib) := by
      simp only [view, occupant, hval, hp, if_true]
    exact Finmap.mem_iff.mpr ⟨_, (rep.holds _).mp ⟨_, _, hview⟩⟩
  · intro hm
    obtain ⟨value, hvalue⟩ := Finmap.mem_iff.mp hm
    obtain ⟨p, c, hp⟩ := (rep.holds ⟨key, value⟩).mpr hvalue
    obtain ⟨hpres, hdata, -⟩ := view_some hp
    exact ⟨p.val, rep.cap_eq ▸ ZMod.val_lt p, hpres, by rw [hdata]⟩

/-- The occupied slots carry the keys of the map, one each. -/
theorem occupied_eq (rep : Represents K cap ht m) : occupied ht = m.keys.card := by
  have hslots : occupied ht =
      ((Finset.range cap).filter fun i => (ht.elems i).present = true).card := by
    rw [occupied, rep.cap_eq, List.countP_eq_length_filter]
    simp only [Finset.card_def, Finset.filter_val, Finset.range_val, Multiset.range,
      Multiset.filter_coe, Multiset.coe_card, Bool.decide_eq_true]
  have hval : ∀ i < cap, ((i : ZMod cap)).val = i := fun i hi => by
    rw [ZMod.val_natCast, Nat.mod_eq_of_lt hi]
  have hkeys : m.keys =
      ((Finset.range cap).filter fun i => (ht.elems i).present = true).image
        fun i => (ht.elems i).data.key := by
    ext key
    rw [Finmap.mem_keys, ← stored_iff rep, Stored, rep.cap_eq]
    simp only [Finset.mem_image, Finset.mem_filter, Finset.mem_range, and_assoc]
  rw [hslots, hkeys, Finset.card_image_of_injOn]
  intro i hi j hj hij
  simp only [Finset.coe_filter, Finset.mem_range, Set.mem_ofPred_eq] at hi hj
  have hview : ∀ k < cap, (ht.elems k).present = true →
      view cap ht (k : ZMod cap) = some ((ht.elems k).data, (ht.elems k).dib) := by
    intro k hk hp
    simp only [view, occupant, hval k hk, hp, if_true]
  have heq := rep.distinct _ _ _ _ _ _ (hview i hi.1 hi.2) (hview j hj.1 hj.2)
    (by simpa [sameKey] using hij)
  exact cast_inj hi.1 hj.1 heq

theorem step_simulates : Simulation (robinHood V K) MapStep (Represents K cap) := by
  intro ht m op rep hpre
  cases op with
  | insert data =>
    obtain ⟨hkey, hroom⟩ := hpre
    rw [rep.cap_eq] at hkey
    by_cases hm : data.key ∈ m
    · obtain ⟨ht', hrun, rep'⟩ := insert_present rep hkey hm
      exact ⟨_, _, _, by simp only [robinHood, step, hrun]; rfl, .insertExists hm, rep'⟩
    · have hroom' := hroom.resolve_left fun hs => hm ((stored_iff rep).mp hs)
      obtain ⟨ht', hrun, rep'⟩ := insert_absent rep hkey hm hroom'
      exact ⟨_, _, _, by simp only [robinHood, step, hrun]; rfl, .insertSuccess hm, rep'⟩
  | get key =>
    have hkey : KeyOk K cap key := rep.cap_eq ▸ hpre
    by_cases hm : key ∈ m
    · obtain ⟨value, hvalue⟩ := Finmap.mem_iff.mp hm
      have hrun := get_present rep hkey hvalue
      exact ⟨_, _, _, by simp only [robinHood, step, hrun]; rfl, .getFound hvalue, rep⟩
    · have hrun := get_absent rep hkey hm
      exact ⟨_, _, _, by simp only [robinHood, step, hrun]; rfl, .getMissing hm, rep⟩
  | delete key =>
    have hkey : KeyOk K cap key := rep.cap_eq ▸ hpre
    by_cases hm : key ∈ m
    · obtain ⟨value, hvalue⟩ := Finmap.mem_iff.mp hm
      obtain ⟨ht', hrun, rep'⟩ := delete_present rep hkey hvalue
      exact ⟨_, _, _, by simp only [robinHood, step, hrun]; rfl, .deleteFound hvalue, rep'⟩
    · have hrun := delete_absent rep hkey hm
      exact ⟨_, _, _, by simp only [robinHood, step, hrun]; rfl, .deleteMissing hm, rep⟩
  | count =>
    have hrun : htCount ht = .ok m.keys.card := by
      rw [htCount, assert_pos rep.cap_pos, ok_bind, ← occupied_eq rep]
      rfl
    exact ⟨_, _, _, by simp only [robinHood, step, hrun]; rfl, .count m, rep⟩

end Simulation

/-- Every run from an initialised table is a run of a finite map, and every
permitted next call returns. -/
theorem table_is_map [Inhabited V] {ht : HashTable V} {trace : List (Op V × Reply V)}
    (hcap : 1 ≤ cap) (run : Trace (robinHood V K) (htInit cap) trace ht) :
    ∃ m, SpecTrace MapStep ∅ trace m ∧
      (∀ key, KeyOk K cap key → htGet K ht key = .ok (match m.lookup key with
        | some value => (.success, some ⟨key, value⟩)
        | none => (.doesntExist, none))) ∧
      htCount ht = .ok m.keys.card ∧
      ∀ op, Permitted K ht op → ∃ reply ht', step K ht op = .ok (reply, ht') := by
  have : NeZero cap := ⟨by omega⟩
  obtain ⟨m, hm, rep⟩ := step_simulates.trace (init_represents K) run
  refine ⟨m, hm, fun key hkey => ?_, ?_, fun op hop => step_simulates.returns rep hop⟩
  · cases hlook : m.lookup key with
    | none => exact get_absent rep hkey (Finmap.lookup_eq_none.mp hlook)
    | some value => exact get_present rep hkey hlook
  · rw [htCount, assert_pos rep.cap_pos, ok_bind, ← occupied_eq rep]
    rfl

/-- Two slots filled by keys of one home, and a deletion that shifts. -/
theorem table_is_map_full : ∃ (ht : HashTable Int) (m : KeyMap Int),
    SpecTrace MapStep ∅ [(.insert ⟨0, 10⟩, .inserted .success),
      (.insert ⟨2, 12⟩, .inserted .success), (.delete 0, .found .success (some ⟨0, 10⟩))] m ∧
      htCount ht = .ok m.keys.card := by
  obtain ⟨t₁, ht₁⟩ : ∃ t₁ : HashTable Int, t₁ = (htInit 2).set 0 ⟨⟨0, 10⟩, 0, true⟩ :=
    ⟨_, rfl⟩
  obtain ⟨t₂, ht₂⟩ : ∃ t₂, t₂ = t₁.set 1 ⟨⟨2, 12⟩, 1, true⟩ := ⟨_, rfl⟩
  have h₁ : step .int (htInit 2) (.insert ⟨0, 10⟩) = .ok (.inserted .success, t₁) := by
    rw [ht₁]
    rfl
  have h₂ : step .int t₁ (.insert ⟨2, 12⟩) = .ok (.inserted .success, t₂) := by
    rw [ht₂, ht₁]
    rfl
  obtain ⟨ht, h₃⟩ : ∃ ht, step .int t₂ (.delete 0) =
      .ok (.found .success (some ⟨0, 10⟩), ht) := by
    rw [ht₂, ht₁]
    exact ⟨_, rfl⟩
  have hkey : ∀ k : Int, 0 ≤ k → k ≤ 2 → KeyOk .int 2 k := by
    intro k h₀ h
    refine ⟨h₀, ?_⟩
    rw [show KeyType.int.limit = 2 ^ 31 from rfl]
    omega
  have hcap : t₁.cap = 2 ∧ t₂.cap = 2 := by
    rw [ht₂, ht₁]
    exact ⟨rfl, rfl⟩
  have hroom : occupied t₁ < t₁.cap := by
    rw [ht₁]
    decide
  have hdelete : KeyOk .int t₂.cap 0 := hcap.2 ▸ hkey 0 (by decide) (by decide)
  have run : Trace (robinHood Int .int) (htInit 2) [(.insert ⟨0, 10⟩, .inserted .success),
      (.insert ⟨2, 12⟩, .inserted .success),
      (.delete 0, .found .success (some ⟨0, 10⟩))] ht :=
    .cons ⟨hkey 0 (by decide) (by decide), Or.inr (by decide)⟩ h₁
      (.cons ⟨hcap.1 ▸ hkey 2 (by decide) (by decide), Or.inr hroom⟩ h₂
        (.cons hdelete h₃ (.nil ht)))
  obtain ⟨m, hm, -, hcount, -⟩ := @table_is_map Int .int 2 _ ht _ (by decide) run
  exact ⟨ht, m, hm, hcount⟩

end RobinHood
