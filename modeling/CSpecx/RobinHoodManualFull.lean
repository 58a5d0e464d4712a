import CSpecx.RobinHoodFull
import CSpecx.RobinHoodManualSets

/-!
# Failed insertions into a full table with a hash function

The insertion of `robin_hood_manual_ht.h` swaps as the one of `robin_hood_ht.h`
does, and the two headers have one law: the lookups survive a failed insertion
when its path holds no entry nearer to home than the path is long, and where no
probe jumps they survive only then.
-/

namespace RobinHoodManual

open CExec ProbeWalk
open RobinHood (HtiRes HtaRes)

variable {V : Type} {f : Funcs V} {cap : Nat} {ht ht' : HashTable V} {value : V} {hash : Nat}

/-- The tables built by calls that return, with hashes that satisfy `P`. -/
inductive Reachable [Inhabited V] (f : Funcs V) (P : Nat → Nat → Prop) : HashTable V → Prop where
  | init (nelem : Nat) : Reachable f P (htInit nelem)
  | insert {ht ht' : HashTable V} {value : V} {res : HtiRes} :
      Reachable f P ht → P ht.cap (f.hash value) → htInsert f ht value = .ok (res, ht') →
        Reachable f P ht'
  | delete {ht ht' : HashTable V} {value : V} {res : HtaRes} {dest : Option V} :
      Reachable f P ht → P ht.cap (f.hash value) → htDelete f ht value = .ok (res, dest, ht') →
        Reachable f P ht'

/-- No slot on the path of the value holds an entry nearer to its home than the path is long
there. -/
def Spares (f : Funcs V) (ht : HashTable V) (value : V) : Prop :=
  ∀ i < ht.cap, i ≤ (ht.elems (probeIndex ht (f.hash value) i)).dib

def Probes (cap : Nat) (e : V × Nat) (i s : Nat) : Prop := u32 (e.2 + i) % cap = s

/-- The comparison of an entry with a value and its hash. -/
def agrees (f : Funcs V) (a b : V × Nat) : Bool := decide (a.2 = b.2) && f.cmpFunc a.1 b.1

def slots (ht : HashTable V) : Slots (V × Nat) := fun i =>
  if (ht.elems i).present then some (((ht.elems i).value, (ht.elems i).hash), (ht.elems i).dib)
  else none

theorem set_self (i : Nat) (e : HEntry V) : (ht.set i e).elems i = e :=
  Function.update_self _ _ _

theorem set_ne {i s : Nat} (h : s ≠ i) (e : HEntry V) : (ht.set i e).elems s = ht.elems s :=
  Function.update_of_ne h _ _

theorem slots_set (i : Nat) (e : HEntry V) : slots (ht.set i e) = Function.update (slots ht) i
    (if e.present then some ((e.value, e.hash), e.dib) else none) := by
  funext s
  by_cases hs : s = i
  · rw [hs, Function.update_self, slots, set_self]
  · rw [Function.update_of_ne hs, slots, set_ne hs, slots]

theorem slots_of_present {s : Nat} (h : (ht.elems s).present = true) :
    slots ht s = some (((ht.elems s).value, (ht.elems s).hash), (ht.elems s).dib) := if_pos h

theorem slots_some {s d : Nat} {e : V × Nat} (h : slots ht s = some (e, d)) :
    (ht.elems s).present = true ∧ ((ht.elems s).value, (ht.elems s).hash) = e ∧
      (ht.elems s).dib = d := by
  by_cases hp : (ht.elems s).present = true
  · rw [slots_of_present hp] at h
    obtain ⟨he, hdib⟩ := Prod.mk.inj (Option.some.inj h)
    exact ⟨hp, he, hdib⟩
  · rw [slots, if_neg hp] at h
    cases h

theorem probes_probeIndex (hcap : ht.cap = cap) (value : V) (hash i : Nat) :
    Probes cap (value, hash) i (probeIndex ht hash i) := by
  rw [probeIndex, hcap]
  rfl

theorem Rounds.straight {e : V × Nat} (rounds : Rounds cap e.2) :
    Straight (Probes cap) cap (fun e => (e.2 : Int)) e := by
  intro i s hi hs
  have hsum : (u32 (e.2 + i) : Int) % cap = (e.2 + i : Int) % cap := by
    rw [u32]
    rcases rounds with hdvd | hlt
    · exact_mod_cast Nat.mod_mod_of_dvd _ hdvd
    · rw [Nat.mod_eq_of_lt (by omega)]
      rfl
  have hs : (s : Int) = (e.2 + i : Int) % cap := by
    rw [← hsum, ← hs]
    rfl
  exact hs ▸ Int.dvd_self_sub_emod

/-- The insertion loop walks, and finds the table full when it makes every round. -/
theorem insertLoop_walk {n d : Nat} {res : HtiRes} (hcap : ht.cap = cap)
    (h : insertLoop f n ht value hash d = (res, ht')) :
    Walk (Probes cap) (agrees f) n (slots ht) (value, hash) d (decide (res = .full)) (slots ht') ∧
      ht'.cap = cap := by
  induction n generalizing ht value hash d with
  | zero =>
    obtain ⟨rfl, rfl⟩ := Prod.mk.inj h
    exact ⟨.dropped _ _ _, hcap⟩
  | succ n ih =>
    obtain ⟨s, hslot⟩ : ∃ s, s = probeIndex ht hash d := ⟨_, rfl⟩
    have hs : Probes cap (value, hash) d s := hslot ▸ probes_probeIndex hcap value hash d
    rw [insertLoop, ← hslot] at h
    dsimp only at h
    split at h
    · obtain ⟨rfl, rfl⟩ := Prod.mk.inj h
      exact ⟨.stop hs (.inr (slots_set s _)), hcap⟩
    · next hp =>
      have hp : (ht.elems s).present = true := by simpa using hp
      have hswap : slots (ht.set s { ht.elems s with value := value, hash := hash, dib := d }) =
          Function.update (slots ht) s (some ((value, hash), d)) := by
        rw [slots_set, if_pos hp]
      split at h
      · next hlt =>
        split at h
        · obtain ⟨rfl, rfl⟩ := Prod.mk.inj h
          exact ⟨.stop hs (.inr hswap), hcap⟩
        · obtain ⟨walk, hcap'⟩ := ih (show (ht.set s _).cap = cap from hcap) h
          rw [hswap] at walk
          exact ⟨.step (.swap hs (slots_of_present hp) hlt) walk, hcap'⟩
      · next hge =>
        split at h
        · obtain ⟨rfl, rfl⟩ := Prod.mk.inj h
          exact ⟨.stop hs (.inl rfl), hcap⟩
        · next hne =>
          have passed : Passed (Probes cap) (agrees f) (slots ht) (value, hash) d :=
            ⟨s, _, _, hs, slots_of_present hp, not_lt.mp hge, Bool.eq_false_iff.mpr hne⟩
          obtain ⟨walk, hcap'⟩ := ih hcap h
          exact ⟨.step (.pass passed) walk, hcap'⟩

/-- The shifts of a deletion close the gap. -/
theorem shiftLoop_shift (value : V) {n i : Nat} {res : HtaRes} (hcap : ht.cap = cap)
    (h : shiftLoop hash n ht i = .ok (res, ht')) :
    Shift (Probes cap) (value, hash) n (slots ht) i (slots ht') ∧ ht'.cap = cap := by
  induction n generalizing ht i with
  | zero =>
    obtain ⟨-, rfl⟩ := ok_pair_inj h
    exact ⟨.done _ _, hcap⟩
  | succ n ih =>
    obtain ⟨hole, hhole⟩ : ∃ s, s = probeIndex ht hash i := ⟨_, rfl⟩
    obtain ⟨next, hnext⟩ : ∃ s, s = probeIndex ht hash (i + 1) := ⟨_, rfl⟩
    rw [shiftLoop, ← hhole, ← hnext] at h
    dsimp only at h
    split at h
    · obtain ⟨-, rfl⟩ := ok_pair_inj h
      refine ⟨?_, hcap⟩
      rw [slots_set]
      exact .clear _ i hole
    · next hgo =>
      have hp : (ht.elems next).present = true := by
        simp only [Bool.or_eq_true, Bool.not_eq_true', beq_iff_eq, not_or,
          Bool.not_eq_false] at hgo
        exact hgo.1
      obtain ⟨_, hassert, h⟩ := bind_eq_ok.mp h
      obtain ⟨_, hstill, h⟩ := bind_eq_ok.mp h
      obtain ⟨ht₁, h₁⟩ : ∃ ht₁, ht₁ =
          ht.set hole { ht.elems hole with value := (ht.elems next).value } := ⟨_, rfl⟩
      obtain ⟨ht₂, h₂⟩ : ∃ ht₂, ht₂ =
          ht₁.set hole { ht₁.elems hole with hash := (ht₁.elems next).hash } := ⟨_, rfl⟩
      have hpos := assert_eq_ok_iff.mp hassert
      have hstill := assert_eq_ok_iff.mp hstill
      -- a slot that is its own successor is read back after it was written
      have hhash : (ht₁.elems next).hash = (ht.elems next).hash := by
        rw [h₁]
        exact field_set HEntry.hash rfl
      have hdib₁ : (ht₁.elems next).dib = (ht.elems next).dib := by
        rw [h₁]
        exact field_set HEntry.dib rfl
      have hdib : (ht₂.elems next).dib = (ht.elems next).dib := by
        rw [h₂, ← hdib₁]
        exact field_set HEntry.dib rfl
      simp only [← h₁, ← h₂, hdib, set_self] at h hpos hstill
      obtain ⟨d, hd⟩ : ∃ d, (ht.elems next).dib = d + 1 := ⟨(ht.elems next).dib - 1, by omega⟩
      rw [hd, Nat.add_sub_cancel] at h
      have hback : slots (ht₂.set hole { ht₂.elems hole with dib := d }) =
          Function.update (slots ht) hole
            (some (((ht.elems next).value, (ht.elems next).hash), d)) := by
        rw [slots_set, if_pos hstill, h₂, slots_set, Function.update_idem, hhash, h₁, slots_set,
          Function.update_idem, set_self, set_self]
      have hcap₂ : (ht₂.set hole { ht₂.elems hole with dib := d }).cap = cap := by
        rw [h₂, h₁]
        exact hcap
      obtain ⟨shift, hcap'⟩ := ih hcap₂ h
      rw [hback] at shift
      exact ⟨.move (hhole ▸ probes_probeIndex hcap value hash i)
        (hnext ▸ probes_probeIndex hcap value hash (i + 1))
        ((slots_of_present hp).trans (by rw [hd])) shift, hcap'⟩

theorem searchLoop_found {n i j s : Nat} (h : searchLoop f ht value hash n i = some (j, s)) :
    j < i + n ∧ (ht.elems s).present = true := by
  induction n generalizing i with
  | zero => cases h
  | succ n ih =>
    rw [searchLoop] at h
    split at h
    · cases h
    · next hp =>
      split at h
      · cases h
      · split at h
        · obtain ⟨rfl, rfl⟩ := Prod.mk.inj (Option.some.inj h)
          exact ⟨by omega, by simpa using hp⟩
        · obtain ⟨hlt, hpresent⟩ := ih h
          exact ⟨by omega, hpresent⟩

theorem Reachable.homed [Inhabited V] (reach : Reachable f Rounds ht) :
    Homed (Probes ht.cap) ht.cap (fun e => (e.2 : Int)) (slots ht) := by
  induction reach with
  | init nelem => exact homed_empty
  | @insert ht ht' value res _ rounds h ih =>
    obtain ⟨_, -, h⟩ := bind_eq_ok.mp h
    obtain ⟨walk, hcap⟩ := insertLoop_walk rfl (Except.ok.inj h)
    rw [hcap]
    exact walk.homed ih (Rounds.straight (show Rounds _ (value, f.hash value).2 from rounds))
      (by omega)
  | @delete ht ht' value res dest _ rounds h ih =>
    obtain ⟨_, -, h⟩ := bind_eq_ok.mp h
    split at h
    · obtain ⟨-, -, rfl⟩ := ok_triple_inj h
      exact ih
    · next i s hfound =>
      obtain ⟨⟨res, ht₁⟩, hshift, h⟩ := bind_eq_ok.mp h
      obtain ⟨-, -, rfl⟩ := ok_triple_inj h
      have hlt := (searchLoop_found hfound).1
      obtain ⟨shift, hcap⟩ := shiftLoop_shift value rfl hshift
      rw [hcap]
      exact shift.homed ih (Rounds.straight (show Rounds _ (value, f.hash value).2 from rounds))
        (by omega)

/-- What is looked up depends on the occupied slots only. -/
theorem searchLoop_congr {n i : Nat} (hcap : ht'.cap = ht.cap) (hslots : slots ht' = slots ht) :
    searchLoop f ht' value hash n i = searchLoop f ht value hash n i := by
  induction n generalizing i with
  | zero => rfl
  | succ n ih =>
    obtain ⟨s, hs⟩ : ∃ s, s = probeIndex ht hash i := ⟨_, rfl⟩
    have hs' : probeIndex ht' hash i = s := by
      rw [hs, probeIndex, probeIndex, hcap]
    rw [searchLoop, searchLoop, hs', ← hs]
    have hslot := congrFun hslots s
    simp only [slots] at hslot
    split at hslot <;> split at hslot
    · next hp' hp =>
      obtain ⟨hentry, hdib⟩ := Prod.mk.inj (Option.some.inj hslot)
      obtain ⟨hvalue, hhash⟩ := Prod.mk.inj hentry
      simp only [hp', hp, hvalue, hhash, hdib, ih]
    · cases hslot
    · cases hslot
    · next hp' hp =>
      simp only [Bool.eq_false_iff.mpr hp', Bool.eq_false_iff.mpr hp, Bool.not_false, if_true]

theorem htGet_congr (hcap : ht'.cap = ht.cap) (hslots : slots ht' = slots ht) (value : V) :
    htGet f ht' value = htGet f ht value := by
  rw [htGet, htGet, hcap, searchLoop_congr hcap hslots]
  refine bind_congr fun _ => ?_
  cases hsearch : searchLoop f ht value (f.hash value) ht.cap 0 with
  | none => rfl
  | some found =>
    have hs := congrFun hslots found.2
    rw [slots_of_present (searchLoop_found hsearch).2] at hs
    simp only [(Prod.mk.inj (slots_some hs).2.1).1]

theorem searchLoop_passed {n i j : Nat} (hall : ∀ k, i ≤ k → k < i + j →
      Passed (Probes ht.cap) (agrees f) (slots ht) (value, hash) k) :
    searchLoop f ht value hash (n + j) i = searchLoop f ht value hash n (i + j) := by
  induction j generalizing i with
  | zero => rfl
  | succ j ih =>
    obtain ⟨s, e, d, hs, hslot, hle, hne⟩ := hall i le_rfl (by omega)
    obtain ⟨hp, rfl, rfl⟩ := slots_some hslot
    have hs : probeIndex ht hash i = s := hs
    have hnot : ¬ (ht.elems s).dib < i := not_lt.mpr hle
    have hne : (decide ((ht.elems s).hash = hash) && f.cmpFunc (ht.elems s).value value) = false :=
      hne
    rw [← Nat.add_assoc, searchLoop, hs]
    simp only [hp, Bool.not_true, Bool.false_eq_true, if_false, hnot, hne]
    rw [ih fun k h₁ h₂ => hall k (by omega) (by omega), Nat.add_right_comm, Nat.add_assoc]

/-- A probe behind slots that are passed decides the lookup. -/
theorem htGet_passed {j s d : Nat} {e : V × Nat} (hj : j < ht.cap)
    (hall : ∀ k < j, Passed (Probes ht.cap) (agrees f) (slots ht) (value, f.hash value) k)
    (hs : Probes ht.cap (value, f.hash value) j s) (hslot : slots ht s = some (e, d)) :
    (d < j → htGet f ht value = .ok (.doesntExist, none)) ∧
      (d = j → agrees f e (value, f.hash value) = true →
        htGet f ht value = .ok (.success, some e.1)) := by
  obtain ⟨m, hm⟩ : ∃ m, ht.cap = (m + 1) + j := ⟨ht.cap - j - 1, by omega⟩
  obtain ⟨hp, rfl, rfl⟩ := slots_some hslot
  have hs : probeIndex ht (f.hash value) j = s := hs
  have hpos : ht.cap > 0 := by omega
  have hsearch : searchLoop f ht value (f.hash value) ht.cap 0 =
      searchLoop f ht value (f.hash value) (m + 1) j := by
    conv_lhs => rw [hm]
    rw [searchLoop_passed fun k _ hk => hall k (by omega), Nat.zero_add]
  constructor
  · intro hlt
    rw [htGet, assert_pos hpos, ok_bind, hsearch, searchLoop, hs]
    simp only [hp, Bool.not_true, Bool.false_eq_true, if_false, hlt, if_true]
  · intro hdib hagrees
    have hagrees : (decide ((ht.elems s).hash = f.hash value) &&
        f.cmpFunc (ht.elems s).value value) = true := hagrees
    rw [htGet, assert_pos hpos, ok_bind, hsearch, searchLoop, hs]
    simp only [hp, Bool.not_true, Bool.false_eq_true, if_false, hdib, lt_irrefl, hagrees, if_true]

/-- A path that spares every entry leaves the table as it is. -/
theorem insert_full_spared (spares : Spares f ht value)
    (full : htInsert f ht value = .ok (.full, ht')) (v : V) :
    htGet f ht' v = htGet f ht v := by
  obtain ⟨_, -, hloop⟩ := bind_eq_ok.mp full
  obtain ⟨walk, hcap⟩ := insertLoop_walk rfl (Except.ok.inj hloop)
  rcases walk.first_swap with ⟨hslots, -⟩ | ⟨j, s, e, d, hj, -, hs, hslot, hlt, -, -⟩
  · exact htGet_congr hcap hslots v
  · have hs : probeIndex ht (f.hash value) j = s := hs
    have hle := spares j (by omega)
    have hdib := (slots_some hslot).2.2
    rw [hs] at hle
    omega

/-- Where no probe jumps the path spares every entry when the lookup of the new value survives. -/
theorem insert_full_exact [Inhabited V] (hself : f.cmpFunc value value = true)
    (reach : Reachable f Rounds ht) (rounds : Rounds ht.cap (f.hash value))
    (full : htInsert f ht value = .ok (.full, ht')) (hget : htGet f ht' value = htGet f ht value) :
    Spares f ht value := by
  obtain ⟨_, -, hloop⟩ := bind_eq_ok.mp full
  obtain ⟨walk, hcap⟩ := insertLoop_walk rfl (Except.ok.inj hloop)
  have straight := Rounds.straight (show Rounds ht.cap (value, f.hash value).2 from rounds)
  rcases walk.first_swap with ⟨-, hall⟩ | ⟨j, s, e, d, hj, hall, hs, hslot, hlt, -, rest⟩
  · intro i hi
    obtain ⟨s, e, d, hs, hslot, hle, -⟩ := hall i (Nat.zero_le i) (by omega)
    have hs : probeIndex ht (f.hash value) i = s := hs
    rw [hs, (slots_some hslot).2.2]
    exact hle
  · have hall : ∀ k < j, Passed (Probes ht.cap) (agrees f) (slots ht) (value, f.hash value) k :=
      fun k hk => hall k (Nat.zero_le k) hk
    obtain ⟨hall', hslot'⟩ :=
      rest.swapped_found reach.homed straight hall hs hslot hlt (by omega)
    have hagrees : agrees f (value, f.hash value) (value, f.hash value) = true := by
      rw [agrees, decide_eq_true rfl, Bool.true_and]
      exact hself
    have hbefore := (htGet_passed (by omega) hall hs hslot).1 hlt
    have hafter := (htGet_passed (by omega) (hcap ▸ hall') (hcap ▸ hs) hslot').2 rfl hagrees
    rw [hget, hbefore] at hafter
    cases hafter

/-- A failed insertion keeps the lookups of either table when its path spares every entry, and
while no probe jumps only then. -/
theorem full_inserts_keep_gets {V : Type} [Inhabited V] (K : RobinHood.KeyType) (f : Funcs V) :
    (∀ (ht ht' : RobinHood.HashTable V) (data : RobinHood.HData V),
      RobinHood.htInsert K ht data = .ok (.full, ht') →
      (RobinHood.Spares K ht data.key →
        ∀ key, RobinHood.htGet K ht' key = RobinHood.htGet K ht key) ∧
      (RobinHood.Reachable K (RobinHood.Direct K) ht → RobinHood.Direct K ht.cap data.key →
        ((∀ key, RobinHood.htGet K ht' key = RobinHood.htGet K ht key) ↔
          RobinHood.Spares K ht data.key))) ∧
    ∀ (ht ht' : HashTable V) (value : V), htInsert f ht value = .ok (.full, ht') →
      (Spares f ht value → ∀ v, htGet f ht' v = htGet f ht v) ∧
      (f.cmpFunc value value = true → Reachable f Rounds ht → Rounds ht.cap (f.hash value) →
        ((∀ v, htGet f ht' v = htGet f ht v) ↔ Spares f ht value)) := by
  constructor
  · intro ht ht' data full
    refine ⟨fun spares => RobinHood.insert_full_spared spares full, fun reach direct => ⟨?_, ?_⟩⟩
    · exact fun hget => RobinHood.insert_full_exact reach direct full (hget data.key)
    · exact fun spares => RobinHood.insert_full_spared spares full
  · intro ht ht' value full
    refine ⟨fun spares => insert_full_spared spares full, fun hself reach rounds => ⟨?_, ?_⟩⟩
    · exact fun hget => insert_full_exact hself reach rounds full (hget value)
    · exact fun spares => insert_full_spared spares full

/-- Two entries of one home fill two slots, and a third one goes past both. -/
theorem full_inserts_keep_gets_two_slots :
    (∃ ht ht' : RobinHood.HashTable Nat,
      RobinHood.Reachable .u32 (RobinHood.Direct .u32) ht ∧
      RobinHood.htInsert .u32 ht ⟨4, 14⟩ = .ok (.full, ht') ∧
      RobinHood.htGet .u32 ht 2 = .ok (.success, some ⟨2, 12⟩) ∧
      ∀ key, RobinHood.htGet .u32 ht' key = RobinHood.htGet .u32 ht key) ∧
    ∃ ht ht' : HashTable Nat, Reachable numbers Rounds ht ∧
      htInsert numbers ht 4 = .ok (.full, ht') ∧ htGet numbers ht 2 = .ok (.success, some 2) ∧
      ∀ v, htGet numbers ht' v = htGet numbers ht v := by
  constructor
  · obtain ⟨t₁, t₂, t₃, h₁, h₂, h₃, hget, hcap₁, hcap₂, hdib⟩ :
        ∃ t₁ t₂ t₃ : RobinHood.HashTable Nat,
          RobinHood.htInsert .u32 (RobinHood.htInit 2) ⟨0, 10⟩ = .ok (.success, t₁) ∧
          RobinHood.htInsert .u32 t₁ ⟨2, 12⟩ = .ok (.success, t₂) ∧
          RobinHood.htInsert .u32 t₂ ⟨4, 14⟩ = .ok (.full, t₃) ∧
          RobinHood.htGet .u32 t₂ 2 = .ok (.success, some ⟨2, 12⟩) ∧
          t₁.cap = 2 ∧ t₂.cap = 2 ∧ (t₂.elems 1).dib = 1 :=
      ⟨_, _, _, rfl, rfl, rfl, rfl, rfl, rfl, rfl⟩
    have direct : ∀ key, RobinHood.Direct .u32 2 key := fun key _ => .inl (by decide)
    have reach : RobinHood.Reachable .u32 (RobinHood.Direct .u32) t₂ :=
      ((RobinHood.Reachable.init 2).insert (direct 0) h₁).insert (hcap₁ ▸ direct 2) h₂
    have spares : RobinHood.Spares .u32 t₂ 4 := by
      intro i s hi hs
      rw [hcap₂] at hi hs
      have hi : i = 0 ∨ i = 1 := by
        have hi : (i : Int) < 2 := hi
        omega
      rcases hi with rfl | rfl
      · exact Nat.zero_le _
      · obtain rfl : 1 = s := Except.ok.inj hs
        exact hdib.ge
    exact ⟨t₂, t₃, reach, h₃, hget, (((full_inserts_keep_gets .u32 numbers).1 t₂ t₃ ⟨4, 14⟩ h₃).2
      reach (hcap₂ ▸ direct 4)).mpr spares⟩
  · obtain ⟨t₁, t₂, t₃, h₁, h₂, h₃, hget, hcap₁, hcap₂, hdib⟩ :
        ∃ t₁ t₂ t₃ : HashTable Nat, htInsert numbers (htInit 2) 0 = .ok (.success, t₁) ∧
          htInsert numbers t₁ 2 = .ok (.success, t₂) ∧ htInsert numbers t₂ 4 = .ok (.full, t₃) ∧
          htGet numbers t₂ 2 = .ok (.success, some 2) ∧ t₁.cap = 2 ∧ t₂.cap = 2 ∧
          (t₂.elems (probeIndex t₂ (numbers.hash 4) 1)).dib = 1 :=
      ⟨_, _, _, rfl, rfl, rfl, rfl, rfl, rfl, rfl⟩
    have rounds : ∀ hash, Rounds 2 hash := fun hash => .inl (by decide)
    have reach : Reachable numbers Rounds t₂ :=
      ((Reachable.init 2).insert (rounds _) h₁).insert (hcap₁ ▸ rounds _) h₂
    have spares : Spares numbers t₂ 4 := by
      intro i hi
      have hi : i = 0 ∨ i = 1 := by omega
      rcases hi with rfl | rfl
      · exact Nat.zero_le _
      · exact hdib.ge
    exact ⟨t₂, t₃, reach, h₃, hget, (((full_inserts_keep_gets .u32 numbers).2 t₂ t₃ 4 h₃).2
      (numbers_lawful.refl 4) reach (hcap₂ ▸ rounds _)).mpr spares⟩

/-- Past the range of the type a walk can come back: 0 swaps in the slot 1, is pushed out of it
again and dropped, and no lookup shows it. -/
example : (do
    let keys : List Int := [1, 4294967288, 4294967285, 4294967295, 9, 4]
    let ht ← keys.foldlM (fun ht key => do
      let (_, ht) ← RobinHood.htInsert .u32 ht ⟨key, key⟩
      .ok ht) (RobinHood.htInit 6)
    let (res, ht') ← RobinHood.htInsert .u32 ht ⟨0, 0⟩
    let s ← RobinHood.probeIndex .u32 6 0 1
    let same := (0 :: keys).all fun key =>
      decide (RobinHood.htGet .u32 ht' key = RobinHood.htGet .u32 ht key)
    .ok (res, s, (ht.elems s).dib, same) : Outcome (HtiRes × Nat × Nat × Bool)) =
    .ok (.full, 1, 0, true) := by
  decide +kernel

/-- 0 and 1 fill both slots; inserting 2 fails, drops 1 and keeps 2. -/
theorem full_inserts_lose_entries :
    (∃ ht ht' : RobinHood.HashTable Int, RobinHood.Reachable .int (fun _ _ => True) ht ∧
      RobinHood.htInsert .int ht ⟨2, 12⟩ = .ok (.full, ht') ∧
      RobinHood.htGet .int ht 1 = .ok (.success, some ⟨1, 11⟩) ∧
      RobinHood.htGet .int ht' 1 = .ok (.doesntExist, none) ∧
      RobinHood.htGet .int ht' 2 = .ok (.success, some ⟨2, 12⟩)) ∧
    ∃ ht ht' : HashTable Nat, Reachable numbers (fun _ _ => True) ht ∧
      htInsert numbers ht 2 = .ok (.full, ht') ∧
      htGet numbers ht 1 = .ok (.success, some 1) ∧
      htGet numbers ht' 1 = .ok (.doesntExist, none) ∧
      htGet numbers ht' 2 = .ok (.success, some 2) := by
  constructor
  · obtain ⟨t₁, t₂, h₁, h₂, rest⟩ : ∃ t₁ t₂ : RobinHood.HashTable Int,
        RobinHood.htInsert .int (RobinHood.htInit 2) ⟨0, 10⟩ = .ok (.success, t₁) ∧
        RobinHood.htInsert .int t₁ ⟨1, 11⟩ = .ok (.success, t₂) ∧
        ∃ t₃, RobinHood.htInsert .int t₂ ⟨2, 12⟩ = .ok (.full, t₃) ∧
          RobinHood.htGet .int t₂ 1 = .ok (.success, some ⟨1, 11⟩) ∧
          RobinHood.htGet .int t₃ 1 = .ok (.doesntExist, none) ∧
          RobinHood.htGet .int t₃ 2 = .ok (.success, some ⟨2, 12⟩) :=
      ⟨_, _, rfl, rfl, _, rfl, rfl, rfl, rfl⟩
    obtain ⟨t₃, rest⟩ := rest
    exact ⟨t₂, t₃, ((RobinHood.Reachable.init 2).insert trivial h₁).insert trivial h₂, rest⟩
  · obtain ⟨t₁, t₂, h₁, h₂, rest⟩ : ∃ t₁ t₂ : HashTable Nat,
        htInsert numbers (htInit 2) 0 = .ok (.success, t₁) ∧
        htInsert numbers t₁ 1 = .ok (.success, t₂) ∧
        ∃ t₃, htInsert numbers t₂ 2 = .ok (.full, t₃) ∧
          htGet numbers t₂ 1 = .ok (.success, some 1) ∧
          htGet numbers t₃ 1 = .ok (.doesntExist, none) ∧
          htGet numbers t₃ 2 = .ok (.success, some 2) :=
      ⟨_, _, rfl, rfl, _, rfl, rfl, rfl, rfl⟩
    obtain ⟨t₃, rest⟩ := rest
    exact ⟨t₂, t₃, ((Reachable.init 2).insert trivial h₁).insert trivial h₂, rest⟩

end RobinHoodManual
