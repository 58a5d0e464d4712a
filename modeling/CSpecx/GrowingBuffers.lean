import CSpecx.DoubleBuffers
import CSpecx.StridePositions

/-!
# Buffers that grow

What the appends of a double buffer and the insertions of an `ext_array` keep,
over runs in which every request has room.
-/

namespace ExtArrays

open CExec CellMemory Component Strided ByteSequence

variable {e e' : ExtArray} {str : Stride} {size ofst cap : Nat} {src : List UInt8}
  {grown : Option (Nat → UInt8)} {tail dest : Bool}

/-- What `ext_array_insert` may do. A failed assertion ends the program. -/
def InsertSafe (e : ExtArray) (ofst : Nat) (src : List UInt8) :
    Outcome (Option Nat × ExtArray) → Prop
  | .ok (some n, e') => n = src.length ∧ e'.len = e.len + src.length ∧ e'.len ≤ e'.cap ∧
    contents e' = (contents e).take ofst ++ src ++ (contents e).drop ofst
  | .ok (none, e') => e'.len = e.len ∧ e'.len ≤ e'.cap ∧ contents e' = contents e
  | .error fault => fault = .assertion

/-- The bytes fit, or twice the new length has 32 bits or is refused by an assertion.
There is memory to insert nothing into. -/
def Growable (e : ExtArray) (src : List UInt8) : Prop :=
  (e.data.isSome ∨ src ≠ []) ∧ (e.len + src.length ≤ e.cap ∨ e.len + src.length ≤ 2 ^ 31)

theorem contents_moved (sound : Sound e) (m : Nat → UInt8) (cap : Nat) :
    contents { e with data := some (e.moved m), cap := cap } = contents e := by
  have hle := sound.len_le
  refine load_congr fun i _ hi => ?_
  have hi : i < 0 + e.len := hi
  have hlt : i < e.cap := by omega
  obtain ⟨m', hm⟩ := Option.isSome_iff_exists.mp (sound.data (by omega))
  simp only [ExtArray.moved, cells, hm, if_pos hlt, Option.getD_some]

/-- A request that fits, or whose double has 32 bits, gets its room. -/
theorem extArrayReserve_cases (grown : Option (Nat → UInt8)) (kept : Kept e)
    (hroom : cap ≤ e.cap ∨ cap ≤ 2 ^ 31) (hle : e.len ≤ cap) :
    extArrayReserve e cap grown = .ok none ∨
      (∃ e₁, extArrayReserve e cap grown = .ok (some e₁) ∧ Kept e₁ ∧ e₁.len = e.len ∧
        cap ≤ e₁.cap ∧ contents e₁ = contents e ∧ (e.data.isSome ∨ 0 < cap → e₁.data.isSome)) ∨
      extArrayReserve e cap grown = .error .assertion := by
  obtain ⟨sound, hcap⟩ := kept
  by_cases hgrow : e.cap < cap
  · by_cases hhalf : cap = 2 ^ 31
    · have hzero : ¬ 0 < u32 (cap * 2) := by
        rw [hhalf]
        decide
      refine .inr (.inr ?_)
      rw [extArrayReserve, if_pos hgrow, assert_pos sound.allocated, ok_bind, assert_neg hzero,
        error_bind]
    · have hdouble : u32 (cap * 2) = cap * 2 := u32_of_lt (by omega)
      rw [extArrayReserve, if_pos hgrow, assert_pos sound.allocated, ok_bind, hdouble,
        assert_pos (show 0 < cap * 2 by omega), ok_bind]
      cases grown with
      | none => exact .inl rfl
      | some m =>
        refine .inr (.inl ⟨_, rfl, ⟨⟨.inl rfl, ?_, sound.len_lt⟩, ?_⟩, rfl, ?_,
          contents_moved sound m _, fun _ => rfl⟩)
        · show e.len ≤ cap * 2
          omega
        · show cap * 2 < 2 ^ 32
          omega
        · show cap ≤ cap * 2
          omega
  · rw [extArrayReserve, if_neg hgrow]
    refine .inr (.inl ⟨e, rfl, ⟨sound, hcap⟩, rfl, by omega, rfl, fun hdata => ?_⟩)
    rcases hdata with hdata | hpos
    · exact hdata
    · exact sound.allocated.resolve_right (by omega)

/-- With room an insertion puts the bytes in place, or changes nothing. -/
theorem extArrayInsert_cases (grown : Option (Nat → UInt8)) (tail : Bool) (kept : Kept e)
    (hofst : ofst ≤ e.len) (growable : Growable e src) :
    (∃ e', extArrayInsert e ofst src grown tail = .ok (none, e') ∧ Kept e' ∧ e'.len = e.len ∧
        contents e' = contents e) ∨
      (∃ e', extArrayInsert e ofst src grown tail = .ok (some src.length, e') ∧ Kept e' ∧
        e'.len = e.len + src.length ∧
        contents e' = (contents e).take ofst ++ src ++ (contents e).drop ofst) ∨
      extArrayInsert e ofst src grown tail = .error .assertion := by
  obtain ⟨hdata, hroom⟩ := growable
  have hcap := kept.2
  have hsum : u32 (e.len + src.length) = e.len + src.length := u32_of_lt (by omega)
  have hsome : e.data.isSome ∨ 0 < e.len + src.length := by
    refine hdata.imp_right fun hsrc => ?_
    have hpos := List.length_pos_iff.mpr hsrc
    omega
  rw [extArrayInsert, assert_pos hofst, ok_bind, hsum]
  obtain hrun | ⟨e₁, hrun, kept₁, hlen, hfits, hsame, hsome₁⟩ | hrun :=
    extArrayReserve_cases grown kept hroom (Nat.le_add_right _ _)
  · rw [hrun, ok_bind]
    exact .inl ⟨e, rfl, kept, rfl, rfl⟩
  · rw [hrun, ok_bind]
    dsimp only
    by_cases hrefused : 0 < e₁.len - ofst ∧ tail = false
    · rw [if_pos hrefused]
      exact .inl ⟨e₁, rfl, kept₁, hlen, hsame⟩
    · have hofst₁ : ofst ≤ e₁.len := by omega
      have hfits₁ : e₁.len + src.length ≤ e₁.cap := by omega
      obtain ⟨m, hm, hload⟩ := spliceSource_spec (hsome₁ hsome) hofst₁ hfits₁
      have htake : (contents e₁).take ofst = load (cells e₁) 0 ofst := by
        rw [contents, take_load, Nat.min_eq_left hofst₁]
      have hdrop : (contents e₁).drop ofst = load (cells e₁) ofst (e₁.len - ofst) := by
        rw [contents, drop_load, Nat.zero_add]
      have hcap₁ := kept₁.2
      have hsum₁ : u32 (e₁.len + src.length) = e₁.len + src.length := u32_of_lt (by omega)
      rw [if_neg hrefused, hm, ok_bind, hsum₁]
      refine .inr (.inl ⟨_, rfl, ⟨⟨.inl rfl, hfits₁, ?_⟩, hcap₁⟩, ?_, ?_⟩)
      · show e₁.len + src.length < 2 ^ 32
        omega
      · show e₁.len + src.length = e.len + src.length
        omega
      · rw [← hsame, htake, hdrop]
        exact hload
  · rw [hrun, error_bind]
    exact .inr (.inr rfl)

/-- Bytes that end behind the memory. -/
theorem spliceSource_outside (hdata : e.data.isSome) (hofst : ofst ≤ e.len)
    (short : e.cap < e.len + src.length) :
    spliceSource e ofst (e.len - ofst) src = .error .undefined := by
  obtain ⟨m, hm⟩ := Option.isSome_iff_exists.mp hdata
  by_cases htail : 0 < e.len - ofst
  · rw [spliceSource, if_pos htail]
    by_cases hload : ofst + (e.len - ofst) ≤ e.cap
    · rw [loadBytes_ok hdata hload, ok_bind]
      by_cases hstore : ofst + src.length ≤ e.cap
      · have houtside : ¬ ofst + src.length + (load (cells e) ofst (e.len - ofst)).length ≤
            e.cap := by
          rw [length_load]
          omega
        rw [storeBytes_ok hdata hstore, ok_bind, ExtArray.storeBytes]
        dsimp only
        rw [access_neg houtside, error_bind]
      · rw [ExtArray.storeBytes, hm]
        dsimp only
        rw [access_neg hstore, error_bind, error_bind]
    · rw [ExtArray.loadBytes, hm]
      dsimp only
      rw [access_neg hload, error_bind, error_bind]
  · have hstore : ¬ ofst + src.length ≤ e.cap := by omega
    rw [spliceSource, if_neg htail, ExtArray.storeBytes, hm]
    dsimp only
    rw [access_neg hstore, error_bind]

/-- Where the new length wraps around, or the doubled one, the copies leave the memory. -/
theorem extArrayInsert_escapes (kept : Kept e) (hofst : ofst ≤ e.len) (hsrc : src.length < 2 ^ 32)
    (full : ¬ Growable e src) :
    extArrayInsert e ofst src (some fun _ => 0) true = .error .undefined := by
  obtain ⟨sound, hcap⟩ := kept
  have hle := sound.len_le
  have hgrant : ∀ e₁ : ExtArray, ¬ (0 < e₁.len - ofst ∧ true = false) := fun e₁ h =>
    absurd h.2 (by decide)
  rw [extArrayInsert, assert_pos hofst, ok_bind]
  by_cases hroom : e.len + src.length ≤ e.cap ∨ e.len + src.length ≤ 2 ^ 31
  · obtain ⟨hdata, hsrc⟩ := not_or.mp fun h => full ⟨h, hroom⟩
    have hnone : e.data = none := Option.not_isSome_iff_eq_none.mp hdata
    have hempty : src = [] := not_not.mp hsrc
    have hzero : e.cap = 0 := sound.allocated.resolve_left hdata
    have hlen : e.len = 0 := by omega
    have hsum : u32 (e.len + src.length) = 0 := by
      rw [hlen, hempty]
      rfl
    have htail : ¬ 0 < e.len - ofst := by omega
    rw [hsum, extArrayReserve, if_neg (by omega), ok_bind]
    dsimp only
    rw [if_neg (hgrant e), spliceSource, if_neg htail, ExtArray.storeBytes, hnone]
    rfl
  · obtain ⟨hmore, hlarge⟩ := not_or.mp hroom
    by_cases hwraps : 2 ^ 32 ≤ e.len + src.length
    · have hsum : u32 (e.len + src.length) = e.len + src.length - 2 ^ 32 := by
        unfold u32
        omega
      rw [hsum, extArrayReserve, if_neg (by omega), ok_bind]
      dsimp only
      rw [if_neg (hgrant e), spliceSource_outside (sound.data (by omega)) hofst (by omega),
        error_bind]
    · have hsum : u32 (e.len + src.length) = e.len + src.length := u32_of_lt (by omega)
      have hdouble : u32 ((e.len + src.length) * 2) = (e.len + src.length) * 2 - 2 ^ 32 := by
        unfold u32
        omega
      have hshort : (e.len + src.length) * 2 - 2 ^ 32 < e.len + src.length := by omega
      have houtside : spliceSource { e with
          data := some (e.moved fun _ => 0), cap := (e.len + src.length) * 2 - 2 ^ 32 }
          ofst (e.len - ofst) src = .error .undefined := spliceSource_outside rfl hofst hshort
      rw [hsum, extArrayReserve, if_pos (by omega), assert_pos sound.allocated, ok_bind, hdouble,
        assert_pos (by omega), ok_bind, Option.map_some, ok_bind]
      dsimp only
      rw [if_neg (hgrant e), houtside, error_bind]

/-- Whatever the allocator answers, an insertion is safe exactly when the array can grow. -/
theorem insertSafe_iff (kept : Kept e) (hofst : ofst ≤ e.len) (hsrc : src.length < 2 ^ 32) :
    (∀ grown tail, InsertSafe e ofst src (extArrayInsert e ofst src grown tail)) ↔
      Growable e src := by
  constructor
  · intro safe
    by_contra full
    have hsafe := safe (some fun _ => 0) true
    rw [extArrayInsert_escapes kept hofst hsrc full] at hsafe
    cases hsafe
  · intro growable grown tail
    obtain ⟨e', hrun, kept', hlen, hsame⟩ | ⟨e', hrun, kept', hlen, hsame⟩ | hrun :=
      extArrayInsert_cases grown tail kept hofst growable
    · rw [hrun]
      exact ⟨hlen, kept'.1.len_le, hsame⟩
    · rw [hrun]
      exact ⟨rfl, hlen, kept'.1.len_le, hsame⟩
    · rw [hrun]
      rfl

/-! ## Runs of an array -/

theorem writeLoop_kept {src : Nat → UInt8} {n bidx total done count : Nat} (kept : Kept e)
    (hrun : writeLoop str size src n e bidx total done = .ok (count, e')) : Kept e' := by
  induction n generalizing e bidx total done with
  | zero => cases hrun
  | succ n ih =>
    rw [writeLoop] at hrun
    split at hrun
    · obtain ⟨-, rfl⟩ := ok_pair_inj hrun
      exact kept
    · split at hrun
      · obtain ⟨-, rfl⟩ := ok_pair_inj hrun
        exact kept
      · obtain ⟨e₁, hstore, hrun⟩ := bind_eq_ok.mp hrun
        obtain ⟨-, hdata, hlen, hcap⟩ := storeBytes_eq_ok hstore
        obtain ⟨⟨-, hle, hlt⟩, hcaplt⟩ := kept
        exact ih ⟨⟨.inl hdata, by omega, by omega⟩, by omega⟩ hrun

theorem moveDown_kept {wpos rpos : Nat} (hrun : moveDown e wpos rpos size = .ok e') :
    e'.len = e.len ∧ e'.cap = e.cap ∧
      (e.data.isSome ∨ e.cap = 0 → e'.data.isSome ∨ e'.cap = 0) := by
  unfold moveDown at hrun
  split at hrun
  · obtain ⟨bytes, -, hrun⟩ := bind_eq_ok.mp hrun
    obtain ⟨-, hdata, hlen, hcap⟩ := storeBytes_eq_ok hrun
    exact ⟨hlen, hcap, fun _ => .inl hdata⟩
  · obtain rfl := Except.ok.inj hrun
    exact ⟨rfl, rfl, id⟩

/-- On a whole number of elements the write cursor ends inside the data, whatever
the stride selects. -/
theorem removeLoop_kept {n : Nat} {s s' : Sweep} (kept : Kept e) (hdvd : size ∣ e.len)
    (hw : s.wpos ≤ s.rpos) (hr : s.rpos * size ≤ e.len)
    (hrun : removeLoop str size dest n e s = .ok (e', s')) :
    Kept e' ∧ e'.len = e.len ∧ s'.wpos * size ≤ e.len := by
  induction n generalizing e s with
  | zero => cases hrun
  | succ n ih =>
    have hlt := kept.1.len_lt
    have hpos : u32 (s.rpos * size) = s.rpos * size := u32_of_lt (by omega)
    rw [removeLoop, hpos] at hrun
    split at hrun
    · next hmore =>
      have hsize : 0 < size := by
        refine Nat.pos_of_ne_zero fun hzero => ?_
        rw [hzero, Nat.zero_dvd] at hdvd
        omega
      have hnext : (s.rpos + 1) * size ≤ e.len := by
        obtain ⟨d, hd⟩ := hdvd
        rw [hd, Nat.mul_comm] at hmore ⊢
        exact Nat.mul_le_mul_left size (Nat.lt_of_mul_lt_mul_left hmore)
      have hrpos : s.rpos + 1 ≤ (s.rpos + 1) * size := Nat.le_mul_of_pos_right _ hsize
      have hsucc : u32 (s.rpos + 1) = s.rpos + 1 := u32_of_lt (by omega)
      have hwsucc : u32 (s.wpos + 1) = s.wpos + 1 := u32_of_lt (by omega)
      split at hrun
      · obtain ⟨bytes, -, hrun⟩ := bind_eq_ok.mp hrun
        rw [hsucc] at hrun
        exact ih kept hdvd (show s.wpos ≤ s.rpos + 1 by omega) hnext hrun
      · obtain ⟨e₁, hmove, hrun⟩ := bind_eq_ok.mp hrun
        obtain ⟨hlen, hcap, hdata⟩ := moveDown_kept hmove
        obtain ⟨⟨allocated, hle, -⟩, hcaplt⟩ := kept
        have kept₁ : Kept e₁ := ⟨⟨hdata allocated, by omega, by omega⟩, by omega⟩
        rw [hsucc, hwsucc] at hrun
        obtain ⟨kept', hlen', hend⟩ := ih kept₁ (hlen ▸ hdvd)
          (show s.wpos + 1 ≤ s.rpos + 1 by omega) (by rw [hlen]; exact hnext) hrun
        exact ⟨kept', hlen'.trans hlen, hlen ▸ hend⟩
    · obtain ⟨rfl, rfl⟩ := ok_pair_inj hrun
      exact ⟨kept, rfl, le_trans (Nat.mul_le_mul_right size hw) hr⟩

/-- Insertions that the array can grow for, and removals from a whole number of elements. -/
def Growing (e : ExtArray) (c : Call) : Prop :=
  match c.op with
  | .insert _ src _ => Growable e src
  | .remove _ size _ => size ∣ e.len
  | .read _ _ | .write _ _ _ | .getlen => True

def growingRuns : Interface ExtArray Call Reply where
  pre := Growing
  step := callStep

theorem growingRuns_keep : Preserves growingRuns Kept := by
  rintro e ⟨op, realloc, malloc⟩ reply e' kept growing hstep
  cases op with
  | insert ofst src grown =>
    obtain ⟨⟨n, e₁⟩, hrun, hstep⟩ := bind_eq_ok.mp hstep
    obtain ⟨-, rfl⟩ := ok_pair_inj hstep
    obtain ⟨_, hofst, -⟩ := bind_eq_ok.mp hrun
    obtain ⟨e₂, hrun', kept', -⟩ | ⟨e₂, hrun', kept', -⟩ | hrun' :=
      extArrayInsert_cases (if realloc then some grown else none) malloc kept
        (assert_eq_ok_iff.mp hofst) growing
    · obtain ⟨-, rfl⟩ := ok_pair_inj (hrun'.symm.trans hrun)
      exact kept'
    · obtain ⟨-, rfl⟩ := ok_pair_inj (hrun'.symm.trans hrun)
      exact kept'
    · cases hrun'.symm.trans hrun
  | read str size =>
    obtain ⟨_, -, hstep⟩ := bind_eq_ok.mp hstep
    obtain ⟨-, rfl⟩ := ok_pair_inj hstep
    exact kept
  | write str size src =>
    obtain ⟨⟨n, e₁⟩, hrun, hstep⟩ := bind_eq_ok.mp hstep
    obtain ⟨-, rfl⟩ := ok_pair_inj hstep
    exact writeLoop_kept kept hrun
  | remove str size dest =>
    obtain ⟨⟨n, bytes, e₁⟩, hrun, hstep⟩ := bind_eq_ok.mp hstep
    obtain ⟨-, rfl⟩ := ok_pair_inj hstep
    obtain ⟨⟨e₂, s⟩, hloop, hrun⟩ := bind_eq_ok.mp hrun
    obtain ⟨-, -, rfl⟩ := ok_triple_inj hrun
    obtain ⟨⟨⟨allocated, hle, hlt⟩, hcap⟩, hlen, hend⟩ := removeLoop_kept kept growing
      (le_refl 0) (by show 0 * size ≤ e.len; omega) hloop
    have hsum : u32 (s.wpos * size) = s.wpos * size := u32_of_lt (by omega)
    refine ⟨⟨allocated, ?_, u32_lt _⟩, hcap⟩
    show u32 (s.wpos * size) ≤ e₂.cap
    omega
  | getlen =>
    obtain ⟨-, rfl⟩ := ok_pair_inj hstep
    exact kept

end ExtArrays

namespace GrowingBuffers

open CExec Component DoubleBuffers ExtArrays

/-- Over runs of calls that have room, an append or an insertion keeps the contents
and the capacity exactly when it has room. -/
theorem growing_buffers_keep {memory : Option (Nat → UInt8)} {size initialCap : Nat}
    {e₀ e₁ : Errors.ErrorObject} {code : Int} {d₀ d : DblBuffer}
    {dtrace : List (DoubleBuffers.Call × Bool)} {e : ExtArray}
    {trace : List (ExtArrays.Call × ByteSequence.Reply)}
    (init : dblbCreate memory size initialCap e₀ = .ok (code, some d₀, e₁))
    (drun : Trace roomyRuns d₀ dtrace d) (run : Trace growingRuns extArrayCreate trace e) :
    (∀ nelem, nelem < 2 ^ 32 →
      ((∀ memory e, AllocSafe d nelem (dblbAppendAlloc memory d nelem e)) ↔
        Room d (d.nelem + nelem))) ∧
    (∀ nelem (data : List UInt8), nelem < 2 ^ 32 → data.length = d.size * nelem →
      ((∀ memory e, AppendSafe d data nelem (dblbAppend memory d data nelem e)) ↔
        Room d (d.nelem + nelem))) ∧
    ∀ ofst (src : List UInt8), ofst ≤ e.len → src.length < 2 ^ 32 →
      ((∀ grown tail, InsertSafe e ofst src (extArrayInsert e ofst src grown tail)) ↔
        Growable e src) := by
  have sound := roomyRuns_keep.trace (dblbCreate_sound init) drun
  have kept₀ : Kept extArrayCreate := ⟨extArrayCreate_represents.sound, by decide⟩
  have kept := growingRuns_keep.trace kept₀ run
  exact ⟨fun nelem h => allocSafe_iff sound h, fun nelem data h hdata =>
    appendSafe_iff sound h hdata, fun ofst src hofst hsrc => insertSafe_iff kept hofst hsrc⟩

def zeros : Nat → UInt8 := fun _ => 0

/-- One byte of room. -/
def oneByte : DblBuffer := ⟨zeros, 1, 1, 0⟩

theorem oneByte_created :
    dblbCreate (some zeros) 1 1 Errors.errorCreate =
      .ok (Errors.success, some oneByte, Errors.errorCreate) := rfl

theorem one_byte_grows :
    (∀ memory e, AppendSafe oneByte [7, 8] 2 (dblbAppend memory oneByte [7, 8] 2 e)) ∧
      ∀ grown tail, InsertSafe extArrayCreate 0 [7, 8]
        (extArrayInsert extArrayCreate 0 [7, 8] grown tail) := by
  obtain ⟨-, happend, hinsert⟩ :=
    growing_buffers_keep oneByte_created (.nil oneByte) (.nil extArrayCreate)
  constructor
  · exact (happend 2 [7, 8] (by decide) rfl).mpr (by decide)
  · exact (hinsert 0 [7, 8] (by decide) (by decide)).mpr
      ⟨.inr (List.cons_ne_nil 7 [8]), .inr (by decide)⟩

/-- From 2 ^ 31 + 1 bytes on the doubled capacity wraps around: the double buffer keeps two
bytes for them, and the insertion copies behind the memory. -/
theorem doubled_capacity_wraps :
    (dblbAppendAlloc (some zeros) oneByte (2 ^ 31 + 1) Errors.errorCreate).map
        (fun out => (out.1, out.2.1.nelem, out.2.1.nelemCap)) = .ok (some 0, 2 ^ 31 + 1, 2) ∧
    ¬ (∀ memory e, AllocSafe oneByte (2 ^ 31 + 1)
      (dblbAppendAlloc memory oneByte (2 ^ 31 + 1) e)) ∧
    ∃ src : List UInt8, src.length = 2 ^ 31 + 1 ∧
      extArrayInsert extArrayCreate 0 src (some zeros) true = .error .undefined ∧
      ¬ ∀ grown tail, InsertSafe extArrayCreate 0 src
        (extArrayInsert extArrayCreate 0 src grown tail) := by
  have sound : DoubleBuffers.Sound oneByte := dblbCreate_sound oneByte_created
  have kept : Kept extArrayCreate := ⟨extArrayCreate_represents.sound, by decide⟩
  obtain ⟨src, hlength⟩ : ∃ src : List UInt8, src.length = 2 ^ 31 + 1 :=
    ⟨List.replicate (2 ^ 31 + 1) 0, List.length_replicate⟩
  have hlt : src.length < 2 ^ 32 := by
    rw [hlength]
    decide
  have full : ¬ Growable extArrayCreate src := by
    rintro ⟨-, hroom⟩
    rw [hlength] at hroom
    revert hroom
    decide
  refine ⟨by decide +kernel, fun safe => ?_, src, hlength,
    extArrayInsert_escapes kept (le_refl 0) hlt full, fun safe => ?_⟩
  · have full : ¬ Room oneByte (oneByte.nelem + (2 ^ 31 + 1)) := by decide +kernel
    exact full ((allocSafe_iff sound (by decide)).mp safe)
  · exact full ((insertSafe_iff kept (le_refl 0) hlt).mp safe)

end GrowingBuffers
