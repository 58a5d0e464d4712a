import CSpecx.ProbeWalk
import CSpecx.RobinHoodMap

/-!
# Failed insertions into a full Robin Hood table

`HT_INSERT` swaps entries while it probes and does not undo the swaps when it
returns `HTIR_FULL`. The lookups survive when the new key meets no entry nearer
to its home than the probe is long. While no key probes past the range of its
type, keys of any sign included, they survive only then.
-/

namespace RobinHood

open CExec ProbeWalk

variable {V : Type} {K : KeyType} {cap : Nat} {ht ht' : HashTable V} {data : HData V}

/-- The tables built by calls that return, with keys that satisfy `P`. -/
inductive Reachable [Inhabited V] (K : KeyType) (P : Nat → Int → Prop) : HashTable V → Prop where
  | init (nelem : Nat) : Reachable K P (htInit nelem)
  | insert {ht ht' : HashTable V} {data : HData V} {res : HtiRes} :
      Reachable K P ht → P ht.cap data.key → htInsert K ht data = .ok (res, ht') →
        Reachable K P ht'
  | delete {ht ht' : HashTable V} {key : Int} {res : HtaRes} {dest : Option (HData V)} :
      Reachable K P ht → P ht.cap key → htDelete K ht key = .ok (res, dest, ht') →
        Reachable K P ht'

/-- No probe of the key jumps: its sums do not wrap, or they wrap to the slot that is next. -/
def Direct (K : KeyType) (cap : Nat) (key : Int) : Prop :=
  K.wraps = true → ktypeCap K cap ∣ 2 ^ K.bits ∨ 0 ≤ key ∧ key + cap < 2 ^ K.bits

/-- No slot on the path of the key holds an entry nearer to its home than the path is long there. -/
def Spares (K : KeyType) (ht : HashTable V) (key : Int) : Prop :=
  ∀ i s : Nat, (i : Int) < ktypeCap K ht.cap → probeIndex K ht.cap key i = .ok s →
    i ≤ (ht.elems s).dib

def Probes (K : KeyType) (cap : Nat) (e : HData V) (i s : Nat) : Prop :=
  probeIndex K cap e.key i = .ok s

def slots (ht : HashTable V) : Slots (HData V) := fun i => occupant (ht.elems i)

@[simp] theorem set_elems_self (i : Nat) (e : HEntry V) : (ht.set i e).elems i = e :=
  Function.update_self _ _ _

@[simp] theorem set_elems_ne {i s : Nat} (h : s ≠ i) (e : HEntry V) :
    (ht.set i e).elems s = ht.elems s :=
  Function.update_of_ne h _ _

theorem slots_set (i : Nat) (e : HEntry V) :
    slots (ht.set i e) = Function.update (slots ht) i (occupant e) := by
  funext s
  by_cases hs : s = i
  · rw [hs, Function.update_self, slots, set_elems_self]
  · rw [Function.update_of_ne hs, slots, set_elems_ne hs, slots]

theorem slots_of_present {s : Nat} (h : (ht.elems s).present = true) :
    slots ht s = some ((ht.elems s).data, (ht.elems s).dib) := if_pos h

theorem slots_some {s d : Nat} {e : HData V} (h : slots ht s = some (e, d)) :
    (ht.elems s).present = true ∧ (ht.elems s).data = e ∧ (ht.elems s).dib = d := by
  by_cases hp : (ht.elems s).present = true
  · rw [slots_of_present hp] at h
    obtain ⟨hdata, hdib⟩ := Prod.mk.inj (Option.some.inj h)
    exact ⟨hp, hdata, hdib⟩
  · rw [slots, occupant, if_neg hp] at h
    cases h

/-- A slot that is probed differs from the sum by a multiple of the capacity. -/
theorem Direct.straight {e : HData V} (direct : Direct K cap e.key) :
    Straight (Probes K cap) (ktypeCap K cap) HData.key e := by
  intro i s hi hs
  obtain ⟨sum, hsum, hs⟩ := bind_eq_ok.mp hs
  obtain ⟨_, hrange, hs⟩ := bind_eq_ok.mp hs
  have hs : (s : Int) = sum.tmod (ktypeCap K cap) := by
    rw [← Except.ok.inj hs, Int.toNat_of_nonneg (access_eq_ok_iff.mp hrange).1]
  have hslot : ktypeCap K cap ∣ sum - s := by
    have hdiv := Int.mul_tdiv_add_tmod sum (ktypeCap K cap)
    exact ⟨sum.tdiv (ktypeCap K cap), by rw [hs]; linarith⟩
  have hsum : ktypeCap K cap ∣ e.key + i - sum := by
    rw [keySum] at hsum
    split at hsum
    · next hwraps =>
      obtain rfl := Except.ok.inj hsum
      rcases direct hwraps with hdvd | ⟨h₀, hlt⟩
      · exact hdvd.trans Int.dvd_self_sub_emod
      · have hle : ktypeCap K cap ≤ cap := by
          rw [KeyType.wraps, Bool.and_eq_true, Bool.not_eq_true'] at hwraps
          rw [ktypeCap, if_neg (Bool.eq_false_iff.mp hwraps.1)]
          exact_mod_cast Nat.mod_le cap (2 ^ K.bits)
        rw [Int.emod_eq_of_lt (by omega) (by omega), Int.sub_self]
        exact Int.dvd_zero _
    · obtain ⟨_, -, hsum⟩ := bind_eq_ok.mp hsum
      obtain rfl := Except.ok.inj hsum
      rw [Int.sub_self]
      exact Int.dvd_zero _
  convert Int.dvd_add hsum hslot using 1
  ring

/-- The insertion loop walks, and finds the table full when it makes every round. -/
theorem insertLoop_walk {n d : Nat} {res : HtiRes} (hcap : ht.cap = cap)
    (h : insertLoop K n ht data d = .ok (res, ht')) :
    Walk (Probes K cap) sameKey n (slots ht) data d (decide (res = .full)) (slots ht') ∧
      ht'.cap = cap := by
  induction n generalizing ht data d with
  | zero =>
    obtain ⟨rfl, rfl⟩ := ok_pair_inj h
    exact ⟨.dropped _ _ _, hcap⟩
  | succ n ih =>
    obtain ⟨s, hs, h⟩ := bind_eq_ok.mp h
    have hs : Probes K cap data d s := hcap ▸ hs
    dsimp only at h
    split at h
    · obtain ⟨rfl, rfl⟩ := ok_pair_inj h
      exact ⟨.stop hs (.inr (slots_set s _)), hcap⟩
    · next hp =>
      have hp : (ht.elems s).present = true := by simpa using hp
      have hswap : slots (ht.set s { ht.elems s with data := data, dib := d }) =
          Function.update (slots ht) s (some (data, d)) := by
        rw [slots_set, occupant, if_pos hp]
      split at h
      · next hlt =>
        split at h
        · obtain ⟨rfl, rfl⟩ := ok_pair_inj h
          exact ⟨.stop hs (.inr hswap), hcap⟩
        · obtain ⟨walk, hcap'⟩ := ih (show (ht.set s _).cap = cap from hcap) h
          rw [hswap] at walk
          exact ⟨.step (.swap hs (slots_of_present hp) hlt) walk, hcap'⟩
      · next hge =>
        split at h
        · obtain ⟨rfl, rfl⟩ := ok_pair_inj h
          exact ⟨.stop hs (.inl rfl), hcap⟩
        · next hne =>
          have passed : Passed (Probes K cap) sameKey (slots ht) data d :=
            ⟨s, _, _, hs, slots_of_present hp, not_lt.mp hge, decide_eq_false hne⟩
          obtain ⟨walk, hcap'⟩ := ih hcap h
          exact ⟨.step (.pass passed) walk, hcap'⟩

/-- The shifts of a deletion close the gap. -/
theorem shiftLoop_shift {n i : Nat} {key : Int} {res : HtaRes} {e : HData V} (he : e.key = key)
    (hcap : ht.cap = cap) (h : shiftLoop K key n ht i = .ok (res, ht')) :
    Shift (Probes K cap) e n (slots ht) i (slots ht') ∧ ht'.cap = cap := by
  subst he
  induction n generalizing ht i with
  | zero =>
    obtain ⟨-, rfl⟩ := ok_pair_inj h
    exact ⟨.done _ _, hcap⟩
  | succ n ih =>
    obtain ⟨hole, hhole, h⟩ := bind_eq_ok.mp h
    obtain ⟨next, hnext, h⟩ := bind_eq_ok.mp h
    split at h
    · obtain ⟨-, rfl⟩ := ok_pair_inj h
      refine ⟨?_, hcap⟩
      rw [slots_set]
      exact .clear _ i hole
    · next hgo =>
      have hp : (ht.elems next).present = true := by
        simp only [Bool.or_eq_true, Bool.not_eq_true', beq_iff_eq, not_or,
          Bool.not_eq_false] at hgo
        exact hgo.1
      obtain ⟨_, hassert, h⟩ := bind_eq_ok.mp h
      obtain ⟨_, hstill, h⟩ := bind_eq_ok.mp h
      obtain ⟨ht₁, h₁⟩ : ∃ ht₁, ht₁ =
          ht.set hole { ht.elems hole with data := (ht.elems next).data } := ⟨_, rfl⟩
      have hdib : (ht₁.elems next).dib = (ht.elems next).dib := by
        rw [h₁]
        by_cases hs : next = hole
        · rw [hs, set_elems_self]
        · rw [set_elems_ne hs]
      have hpos := assert_eq_ok_iff.mp hassert
      have hstill := assert_eq_ok_iff.mp hstill
      simp only [← h₁, hdib, set_elems_self] at h hpos hstill
      obtain ⟨d, hd⟩ : ∃ d, (ht.elems next).dib = d + 1 := ⟨(ht.elems next).dib - 1, by omega⟩
      rw [hd, Nat.add_sub_cancel] at h
      have hback : slots (ht₁.set hole { ht₁.elems hole with dib := d }) =
          Function.update (slots ht) hole (some ((ht.elems next).data, d)) := by
        rw [slots_set, occupant, if_pos hstill, h₁, slots_set, Function.update_idem, set_elems_self]
      have hcap₁ : (ht₁.set hole { ht₁.elems hole with dib := d }).cap = cap := by
        rw [h₁]
        exact hcap
      obtain ⟨shift, hcap'⟩ := ih hcap₁ h
      rw [hback] at shift
      exact ⟨.move (hcap ▸ hhole) (hcap ▸ hnext) ((slots_of_present hp).trans (by rw [hd])) shift,
        hcap'⟩

theorem searchLoop_found {key : Int} {n i j s : Nat}
    (h : searchLoop K ht key n i = .ok (some (j, s))) :
    j < i + n ∧ (ht.elems s).present = true := by
  induction n generalizing i with
  | zero => cases h
  | succ n ih =>
    obtain ⟨r, -, h⟩ := bind_eq_ok.mp h
    split at h
    · cases h
    · next hp =>
      split at h
      · cases h
      · split at h
        · obtain ⟨rfl, rfl⟩ := Prod.mk.inj (Option.some.inj (Except.ok.inj h))
          exact ⟨by omega, by simpa using hp⟩
        · obtain ⟨hlt, hpresent⟩ := ih h
          exact ⟨by omega, hpresent⟩

theorem Reachable.homed [Inhabited V] (reach : Reachable K (Direct K) ht) :
    Homed (Probes K ht.cap) (ktypeCap K ht.cap) HData.key (slots ht) := by
  induction reach with
  | init nelem => exact homed_empty
  | @insert ht ht' data res _ direct h ih =>
    obtain ⟨_, -, h⟩ := bind_eq_ok.mp h
    by_cases hpos : 0 ≤ ktypeCap K ht.cap
    · obtain ⟨walk, hcap⟩ := insertLoop_walk rfl h
      rw [hcap]
      exact walk.homed ih direct.straight (by omega)
    · rw [Int.toNat_of_nonpos (by omega)] at h
      obtain ⟨-, rfl⟩ := ok_pair_inj h
      exact ih
  | @delete ht ht' key res dest _ direct h ih =>
    obtain ⟨_, -, h⟩ := bind_eq_ok.mp h
    obtain ⟨found, hfound, h⟩ := bind_eq_ok.mp h
    cases found with
    | none =>
      obtain ⟨-, -, rfl⟩ := ok_triple_inj h
      exact ih
    | some f =>
      obtain ⟨⟨res, ht₁⟩, hshift, h⟩ := bind_eq_ok.mp h
      obtain ⟨-, -, rfl⟩ := ok_triple_inj h
      have hlt := (searchLoop_found hfound).1
      obtain ⟨e, he⟩ : ∃ e : HData V, e.key = key := ⟨⟨key, (ht.elems f.2).data.value⟩, rfl⟩
      obtain ⟨shift, hcap⟩ := shiftLoop_shift he rfl hshift
      rw [hcap]
      exact shift.homed ih (he ▸ direct : Direct K ht.cap e.key).straight (by omega)

/-- What is looked up depends on the occupied slots only. -/
theorem searchLoop_congr {key : Int} {n i : Nat} (hcap : ht'.cap = ht.cap)
    (hslots : slots ht' = slots ht) : searchLoop K ht' key n i = searchLoop K ht key n i := by
  induction n generalizing i with
  | zero => rfl
  | succ n ih =>
    rw [searchLoop, searchLoop, hcap]
    refine bind_congr fun s => ?_
    have hs : occupant (ht'.elems s) = occupant (ht.elems s) := congrFun hslots s
    simp only [occupant] at hs
    split at hs <;> split at hs
    · next hp' hp =>
      obtain ⟨hdata, hdib⟩ := Prod.mk.inj (Option.some.inj hs)
      simp only [hp', hp, hdata, hdib, ih]
    · cases hs
    · cases hs
    · next hp' hp =>
      simp only [Bool.eq_false_iff.mpr hp', Bool.eq_false_iff.mpr hp, Bool.not_false, if_true]

theorem htGet_congr (hcap : ht'.cap = ht.cap) (hslots : slots ht' = slots ht) (key : Int) :
    htGet K ht' key = htGet K ht key := by
  rw [htGet, htGet, hcap, searchLoop_congr hcap hslots]
  refine bind_congr fun _ => ?_
  cases hsearch : searchLoop K ht key (ktypeCap K ht.cap).toNat 0 with
  | error => rfl
  | ok found =>
    cases found with
    | none => rfl
    | some f =>
      have hs := congrFun hslots f.2
      rw [slots_of_present (searchLoop_found hsearch).2] at hs
      simp only [ok_bind, (slots_some hs).2.1]

theorem searchLoop_passed {n i j : Nat}
    (hall : ∀ k, i ≤ k → k < i + j → Passed (Probes K ht.cap) sameKey (slots ht) data k) :
    searchLoop K ht data.key (n + j) i = searchLoop K ht data.key n (i + j) := by
  induction j generalizing i with
  | zero => rfl
  | succ j ih =>
    obtain ⟨s, e, d, hs, hslot, hle, hne⟩ := hall i le_rfl (by omega)
    obtain ⟨hp, rfl, rfl⟩ := slots_some hslot
    have hs : probeIndex K ht.cap data.key i = .ok s := hs
    have hnot : ¬ (ht.elems s).dib < i := not_lt.mpr hle
    have hne : ¬ (ht.elems s).data.key = data.key := of_decide_eq_false hne
    rw [← Nat.add_assoc, searchLoop, hs, ok_bind]
    simp only [hp, Bool.not_true, Bool.false_eq_true, if_false, hnot, hne]
    rw [ih fun k h₁ h₂ => hall k (by omega) (by omega), Nat.add_right_comm, Nat.add_assoc]

/-- A probe behind slots that are passed decides the lookup. -/
theorem htGet_passed {j s : Nat} (hcap : ht.cap > 0) (hj : (j : Int) < ktypeCap K ht.cap)
    (hall : ∀ k < j, Passed (Probes K ht.cap) sameKey (slots ht) data k)
    (hs : Probes K ht.cap data j s) {e : HData V} {d : Nat} (hslot : slots ht s = some (e, d)) :
    (d < j → htGet K ht data.key = .ok (.doesntExist, none)) ∧
      (d = j → e.key = data.key → htGet K ht data.key = .ok (.success, some e)) := by
  obtain ⟨m, hm⟩ : ∃ m, (ktypeCap K ht.cap).toNat = (m + 1) + j :=
    ⟨(ktypeCap K ht.cap).toNat - j - 1, by omega⟩
  obtain ⟨hp, rfl, rfl⟩ := slots_some hslot
  have hs : probeIndex K ht.cap data.key j = .ok s := hs
  have hsearch : searchLoop K ht data.key (ktypeCap K ht.cap).toNat 0 =
      searchLoop K ht data.key (m + 1) j := by
    rw [hm, searchLoop_passed fun k _ hk => hall k (by omega), Nat.zero_add]
  constructor
  · intro hlt
    rw [htGet, assert_pos hcap, ok_bind, hsearch, searchLoop, hs, ok_bind]
    simp only [hp, Bool.not_true, Bool.false_eq_true, if_false, hlt, if_true, ok_bind]
  · intro hdib hkey
    rw [htGet, assert_pos hcap, ok_bind, hsearch, searchLoop, hs, ok_bind]
    simp only [hp, Bool.not_true, Bool.false_eq_true, if_false, hdib, lt_irrefl, hkey, if_true,
      ok_bind]

/-- A path that spares every entry leaves the table as it is. -/
theorem insert_full_spared (spares : Spares K ht data.key)
    (full : htInsert K ht data = .ok (.full, ht')) (key : Int) :
    htGet K ht' key = htGet K ht key := by
  obtain ⟨_, -, hloop⟩ := bind_eq_ok.mp full
  obtain ⟨walk, hcap⟩ := insertLoop_walk rfl hloop
  rcases walk.first_swap with ⟨hslots, -⟩ | ⟨j, s, e, d, hj, -, hs, hslot, hlt, -, -⟩
  · exact htGet_congr hcap hslots key
  · have hle := spares j s (by omega) hs
    have hdib := (slots_some hslot).2.2
    omega

/-- On a ring the path spares every entry when the lookup of the new key survives. -/
theorem insert_full_exact [Inhabited V] (reach : Reachable K (Direct K) ht)
    (direct : Direct K ht.cap data.key) (full : htInsert K ht data = .ok (.full, ht'))
    (hget : htGet K ht' data.key = htGet K ht data.key) : Spares K ht data.key := by
  obtain ⟨_, hassert, hloop⟩ := bind_eq_ok.mp full
  have hpos := assert_eq_ok_iff.mp hassert
  obtain ⟨walk, hcap⟩ := insertLoop_walk rfl hloop
  rcases walk.first_swap with ⟨-, hall⟩ | ⟨j, s, e, d, hj, hall, hs, hslot, hlt, -, rest⟩
  · intro i s hi hs
    obtain ⟨r, e, d, hr, hslot, hle, -⟩ := hall i (Nat.zero_le i) (by omega)
    obtain rfl : s = r := Except.ok.inj (hs.symm.trans hr)
    exact (slots_some hslot).2.2.symm ▸ hle
  · have hall : ∀ k < j, Passed (Probes K ht.cap) sameKey (slots ht) data k :=
      fun k hk => hall k (Nat.zero_le k) hk
    obtain ⟨hall', hslot'⟩ :=
      rest.swapped_found reach.homed direct.straight hall hs hslot hlt (by omega)
    have hbefore := (htGet_passed hpos (by omega) hall hs hslot).1 hlt
    have hafter := (htGet_passed (hcap ▸ hpos) (by rw [hcap]; omega) (hcap ▸ hall')
      (hcap ▸ hs) hslot').2 rfl rfl
    rw [hget, hbefore] at hafter
    cases hafter

end RobinHood
