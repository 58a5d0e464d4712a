import CSpecx.PartialElements

/-!
# Positions beyond 32 bits

A `struct stride` has fields of 64 bits, and both arrays keep positions in 32.
While no position wraps around into the data, every element accessed is the one
that the stride names.
-/

namespace ByteSequence

open CellMemory Strided

variable {str : Stride} {size len : Nat} {xs : List UInt8}

/-- A read, a write or a removal of elements that have a byte. -/
def Accessing : Op → Prop
  | .read _ size | .write _ size _ | .remove _ size _ => 0 < size
  | .insert _ _ _ | .getlen => False

/-- A read or a write of the elements that lie inside the sequence. -/
def whole (len : Nat) : Op → Op
  | .read str size => .read (str.first ((str.selection size).count len)) size
  | .write str size src => .write (str.first ((str.selection size).count len)) size src
  | op => op

theorem Accessing.not_insert {op : Op} (accessing : Accessing op) :
    ∀ ofst src grown, op ≠ .insert ofst src grown := by
  rintro ofst src grown rfl
  exact accessing

theorem Accessing.whole {op : Op} (accessing : Accessing op) (len : Nat) :
    Accessing (whole len op) := by
  cases op with
  | insert ofst src grown => exact accessing
  | read str size => exact accessing
  | write str size src => exact accessing
  | remove str size dest => exact accessing
  | getlen => exact accessing

/-- The start is past the end. -/
def Past (len : Nat) : Op → Prop
  | .read str size | .write str size _ | .remove str size _ => len ≤ str.start * size
  | .insert _ _ _ | .getlen => False

/-- The elements accessed are those at `start + k * stride`, and a start past the
end returns 0 and changes nothing. -/
structure Exact (xs : List UInt8) (op : Op) (reply : Reply) (ys : List UInt8) : Prop where
  answer : (reply, ys) = apply xs op
  past_end : Past xs.length op → reply = .count 0 [] ∧ ys = xs

theorem count_first :
    ((str.first ((str.selection size).count len)).selection size).count len =
      (str.selection size).count len := by
  obtain ⟨-, inside, -⟩ := Selection.count_whole (str.selection size) len
  exact Selection.count_eq (le_refl _) inside fun h => absurd h (Nat.lt_irrefl _)

theorem start_le_pos (k : Nat) : str.start * size ≤ (str.selection size).pos k :=
  Nat.mul_le_mul_right size (Nat.le_add_right _ _)

theorem not_picked_past (hpast : xs.length ≤ str.start * size) :
    ∀ p, 0 ≤ p → p < 0 + xs.length → ¬ (str.selection size).Picked p := by
  rintro p - hp ⟨k, -, hlow, -⟩
  have hmono : str.start * size ≤ (str.selection size).pos k := start_le_pos k
  omega

theorem elements_past (hsize : 0 < size) (hpast : xs.length ≤ str.start * size) :
    elements str size xs = 0 := by
  refine Selection.count_eq (Nat.zero_le _) (fun j hj => absurd hj (Nat.not_lt_zero j)) fun _ => ?_
  have hmono : str.start * size ≤ (str.selection size).pos 0 := start_le_pos 0
  show xs.length < _ + size
  omega

theorem apply_past {op : Op} (accessing : Accessing op) (hpast : Past xs.length op) :
    apply xs op = (.count 0 [], xs) := by
  cases op with
  | insert ofst src grown => exact accessing.elim
  | read str size =>
    have hnone : selected str size xs = [] := select_none (not_picked_past hpast)
    rw [apply, elements_past accessing hpast, hnone]
  | write str size src =>
    have hkept : overwritten str size src xs = xs := overlay_none (not_picked_past hpast)
    rw [apply, elements_past accessing hpast, hkept]
  | remove str size dest =>
    have hnone : selected str size xs = [] := select_none (not_picked_past hpast)
    have hkept : remaining str size xs = xs := select_all (not_picked_past hpast)
    rw [apply, elements_past accessing hpast, hnone, hkept, ite_self]
  | getlen => exact accessing.elim

theorem apply_exact {op : Op} (accessing : Accessing op) :
    Exact xs op (apply xs op).1 (apply xs op).2 := by
  refine ⟨rfl, fun hpast => ?_⟩
  rw [apply_past accessing hpast]
  exact ⟨rfl, rfl⟩

end ByteSequence

namespace ExtArrays

open CExec CellMemory Component Strided ByteSequence

variable {e e' : ExtArray} {str : Stride} {size ofst : Nat} {src : List UInt8}

/-- An operation, and whether `i_realloc_right` and `i_malloc` succeed in it. -/
structure Call where
  op : Op
  realloc : Bool
  malloc : Bool

def callStep (e : ExtArray) (c : Call) : Outcome (Reply × ExtArray) :=
  match c.op with
  | .insert ofst src grown => do
    let (_, e) ← extArrayInsert e ofst src (if c.realloc then some grown else none) c.malloc
    .ok (.inserted, e)
  | op => step e op

/-- No position of the operation wraps around into `len` bytes. What is removed
from is a whole number of elements, and an insertion whose buffer is refused has
not doubled the capacity past 32 bits. -/
def Unwrapping (len : Nat) (c : Call) : Prop :=
  match c.op with
  | .insert _ src _ => c.malloc = false → len + src.length < 2 ^ 31
  | .read str size | .write str size _ => 0 < size ∧ 0 < str.stride ∧ Stops str size len
  | .remove str size _ => 0 < size ∧ 0 < str.stride ∧ size ∣ len ∧ Passes str size len
  | .getlen => True

def unwrappedRuns : Interface ExtArray Call Reply where
  pre e c := Unwrapping e.len c
  step := callStep

/-- The capacity has 32 bits, too. -/
def Kept (e : ExtArray) : Prop := Sound e ∧ e.cap < 2 ^ 32

/-- The bytes spliced in end inside the memory. -/
theorem spliceSource_eq_ok {tlen : Nat} (hrun : spliceSource e ofst tlen src = .ok e') :
    ofst + src.length + tlen ≤ e.cap ∧ e'.data.isSome ∧ e'.len = e.len ∧ e'.cap = e.cap := by
  unfold spliceSource at hrun
  split at hrun
  · obtain ⟨tail, htail, hrun⟩ := bind_eq_ok.mp hrun
    obtain ⟨e₁, hfirst, hlast⟩ := bind_eq_ok.mp hrun
    obtain ⟨-, -, hlen₁, hcap₁⟩ := storeBytes_eq_ok hfirst
    obtain ⟨hfits, hdata, hlen, hcap⟩ := storeBytes_eq_ok hlast
    rw [loadBytes_length htail, hcap₁] at hfits
    exact ⟨hfits, hdata, hlen.trans hlen₁, hcap.trans hcap₁⟩
  · obtain ⟨hfits, hdata, hlen, hcap⟩ := storeBytes_eq_ok hrun
    exact ⟨by omega, hdata, hlen, hcap⟩

/-- The room asked for is there, unless twice of it passes 32 bits. -/
theorem extArrayReserve_kept {cap : Nat} {grown : Option (Nat → UInt8)} (kept : Kept e)
    (hrun : extArrayReserve e cap grown = .ok (some e')) :
    e'.len = e.len ∧ (e'.data.isSome ∨ e'.cap = 0) ∧ e'.cap < 2 ^ 32 ∧
      (cap < 2 ^ 31 → e.cap ≤ e'.cap) := by
  obtain ⟨sound, hcap⟩ := kept
  unfold extArrayReserve at hrun
  split at hrun
  · obtain ⟨_, -, hrun⟩ := bind_eq_ok.mp hrun
    obtain ⟨_, -, hrun⟩ := bind_eq_ok.mp hrun
    obtain ⟨m, -, hm⟩ := Option.map_eq_some_iff.mp (Except.ok.inj hrun)
    rw [← hm]
    refine ⟨rfl, .inl rfl, u32_lt _, fun hsmall => ?_⟩
    show e.cap ≤ u32 (cap * 2)
    rw [u32_of_lt (by omega)]
    omega
  · obtain rfl := Option.some.inj (Except.ok.inj hrun)
    exact ⟨rfl, sound.allocated, hcap, fun _ => le_refl _⟩

theorem extArrayInsert_kept {grown : Option (Nat → UInt8)} {tail : Bool} {n : Option Nat}
    (kept : Kept e) (refused : tail = false → e.len + src.length < 2 ^ 31)
    (hrun : extArrayInsert e ofst src grown tail = .ok (n, e')) : Kept e' := by
  have hle := kept.1.len_le
  have hlt := kept.1.len_lt
  obtain ⟨_, hofst, hrun⟩ := bind_eq_ok.mp hrun
  have hofst := assert_eq_ok_iff.mp hofst
  obtain ⟨reserved, hreserve, hrun⟩ := bind_eq_ok.mp hrun
  cases reserved with
  | none =>
    obtain ⟨-, rfl⟩ := ok_pair_inj hrun
    exact kept
  | some e₁ =>
    obtain ⟨hlen, hallocated, hcap, hgrown⟩ := extArrayReserve_kept kept hreserve
    by_cases hrefused : 0 < e₁.len - ofst ∧ tail = false
    · simp only [if_pos hrefused] at hrun
      obtain ⟨-, rfl⟩ := ok_pair_inj hrun
      have hsmall := refused hrefused.2
      have hroom := hgrown (by rw [u32_of_lt (by omega)]; exact hsmall)
      exact ⟨⟨hallocated, by omega, by omega⟩, hcap⟩
    · simp only [if_neg hrefused] at hrun
      obtain ⟨e₂, hsplice, hrun⟩ := bind_eq_ok.mp hrun
      obtain ⟨-, rfl⟩ := ok_pair_inj hrun
      obtain ⟨hfits, hdata, hlen₂, hcap₂⟩ := spliceSource_eq_ok hsplice
      have hsum : u32 (e₂.len + src.length) = e₂.len + src.length := u32_of_lt (by omega)
      refine ⟨⟨.inl hdata, ?_, u32_lt _⟩, ?_⟩
      · show u32 (e₂.len + src.length) ≤ e₂.cap
        omega
      · show e₂.cap < 2 ^ 32
        omega

/-- What a permitted read, write or removal answers. -/
theorem step_whole (sound : Sound e) {op : Op} (unwrapping : Unwrapping e.len ⟨op, true, true⟩)
    (hop : ∀ ofst src grown, op ≠ .insert ofst src grown) :
    ∃ e', step e op = .ok ((apply (contents e) (whole e.len op)).1, e') ∧
      contents e' = (apply (contents e) (whole e.len op)).2 ∧ Sound e' ∧ e'.cap = e.cap := by
  have hcount : ∀ (str : Stride) size, elements (str.first ((str.selection size).count e.len)) size
      (contents e) = elements str size (contents e) := fun str size => by
    rw [elements, elements, length_contents, count_first]
  have hlen : ∀ (str : Stride) size,
      (str.selection size).count e.len = elements str size (contents e) := fun str size => by
    rw [elements, length_contents]
  cases op with
  | insert ofst src grown => exact absurd rfl (hop ofst src grown)
  | read str size =>
    obtain ⟨hsize, hstep, stops⟩ := unwrapping
    refine ⟨e, ?_, rfl, sound, rfl⟩
    rw [step, extArrayRead_first sound hsize hstep stops, ok_bind]
    simp only [whole, apply, hcount]
    rw [hlen]
  | write str size src =>
    obtain ⟨hsize, hstep, stops⟩ := unwrapping
    obtain ⟨e', hrun, written⟩ := extArrayWrite_stops sound hsize hstep stops src
    refine ⟨e', ?_, ?_, written.sound sound, written.cap_eq⟩
    · rw [step, hrun, ok_bind]
      simp only [whole, apply, hcount]
      rw [hlen]
    · exact written.contents_eq hstep (Selection.count_whole (str.selection size) e.len).1
  | remove str size dest =>
    obtain ⟨hsize, hstep, divides, passes⟩ := unwrapping
    obtain ⟨e', hrun, hcontents, sound', -, hcap⟩ :=
      extArrayRemove_passes sound hsize hstep divides passes dest
    refine ⟨e', ?_, hcontents, sound', hcap⟩
    rw [step, hrun]
    rfl
  | getlen =>
    refine ⟨e, ?_, rfl, sound, rfl⟩
    rw [step, extArrayGetLen, ← length_contents]
    rfl

theorem unwrappedRuns_keep : Preserves unwrappedRuns Kept := by
  rintro e ⟨op, realloc, malloc⟩ reply e' kept unwrapping hrun
  have hother : ∀ op, (∀ ofst src grown, op ≠ .insert ofst src grown) →
      Unwrapping e.len ⟨op, true, true⟩ → step e op = .ok (reply, e') → Kept e' := by
    intro op hop unwrapping hrun
    obtain ⟨e₁, hok, -, sound, hcap⟩ := step_whole kept.1 unwrapping hop
    obtain ⟨-, rfl⟩ := ok_pair_inj (hok.symm.trans hrun)
    exact ⟨sound, hcap ▸ kept.2⟩
  cases op with
  | insert ofst src grown =>
    obtain ⟨⟨n, e₁⟩, hok, hrun⟩ := bind_eq_ok.mp hrun
    obtain ⟨-, rfl⟩ := ok_pair_inj hrun
    exact extArrayInsert_kept kept unwrapping hok
  | read str size => exact hother (.read str size) (fun _ _ _ h => nomatch h) unwrapping hrun
  | write str size src =>
    exact hother (.write str size src) (fun _ _ _ h => nomatch h) unwrapping hrun
  | remove str size dest =>
    exact hother (.remove str size dest) (fun _ _ _ h => nomatch h) unwrapping hrun
  | getlen => exact hother .getlen (fun _ _ _ h => nomatch h) unwrapping hrun

end ExtArrays

namespace BlockArrays

open CExec Component Strided ByteSequence

variable {A : BlockAllocator}

def unwrappedRuns (A : BlockAllocator) : Interface (BlockArray A) Op Reply where
  pre r op := ∃ len, blockArrayGetlen r = .ok len ∧ Unwrapping len op
  step := step

theorem unwrappedRuns_keep : Preserves (unwrappedRuns A) fun r => ∃ xs, Represents r xs := by
  rintro r op reply r' ⟨xs, rep⟩ ⟨len, hlen, unwrapping⟩ hrun
  obtain rfl := Except.ok.inj ((blockArrayGetlen_spec rep).symm.trans hlen)
  by_cases selects : Selects op
  · obtain ⟨r'', hok, rep'⟩ := step_unwrapped rep (step_fits rep hrun) unwrapping selects
    obtain ⟨-, rfl⟩ := ok_pair_inj (hok.symm.trans hrun)
    exact ⟨_, rep'⟩
  · exact ⟨xs, step_empty rep selects hrun⟩

end BlockArrays

namespace StridePositions

open CExec Component Strided ByteSequence BlockArrays ExtArrays

/-- Every access that no position wraps around in is exact. -/
def BlocksExact {A : BlockAllocator} (r : BlockArray A) : Prop :=
  ∃ xs, BlockArrays.contents r = .ok xs ∧
    ∀ op, Accessing op → Selects op → BlockArrays.Unwrapping xs.length op →
      ∃ reply r' ys, BlockArrays.step r op = .ok (reply, r') ∧
        BlockArrays.contents r' = .ok ys ∧ Exact xs op reply ys

/-- In an `ext_array` the elements that lie inside the data are accessed. -/
def ExtExact (e : ExtArray) : Prop :=
  ∀ op, Accessing op → ExtArrays.Unwrapping e.len ⟨op, true, true⟩ →
    ∃ reply e', ExtArrays.step e op = .ok (reply, e') ∧
      Exact (ExtArrays.contents e) (whole e.len op) reply (ExtArrays.contents e')

/-- While no position wraps around into the data, both arrays access the elements
that the stride names. -/
theorem positions_exact {A : Nat → Nat → BlockAllocator} {tail : Nat → UInt8}
    {blocks : Nat → BlockArrays.Block} {cap : Nat} {r₀ r : BlockArray (blocksOf A cap)}
    {e : ExtArray} {trace : List (Op × Reply)} {etrace : List (Call × Reply)}
    (init : blockArrayCreate A tail blocks cap = .ok r₀)
    (run : Trace (BlockArrays.unwrappedRuns _) r₀ trace r)
    (erun : Trace ExtArrays.unwrappedRuns extArrayCreate etrace e) :
    BlocksExact r ∧ ExtExact e := by
  have kept₀ : Kept extArrayCreate := ⟨extArrayCreate_represents.sound, by decide⟩
  obtain ⟨xs, rep⟩ :=
    BlockArrays.unwrappedRuns_keep.trace ⟨[], create_represents init⟩ run
  have kept := ExtArrays.unwrappedRuns_keep.trace kept₀ erun
  constructor
  · refine ⟨xs, contents_spec rep, fun op accessing selects unwrapping => ?_⟩
    obtain ⟨r', hrun, rep'⟩ := step_unwrapped rep (.inr accessing.not_insert) unwrapping selects
    exact ⟨_, r', _, hrun, contents_spec rep', apply_exact accessing⟩
  · intro op accessing unwrapping
    obtain ⟨e', hrun, hcontents, -, -⟩ := step_whole kept.1 unwrapping accessing.not_insert
    refine ⟨_, e', hrun, ?_⟩
    rw [hcontents]
    exact apply_exact (accessing.whole e.len)

def twoBytes : Op := .insert 0 [7, 8] fun _ => 0

/-- Two bytes, each in a block of its own. -/
theorem two_bytes_reached :
    ∃ r₀ r, EmptySelections.oneByteCreate = .ok r₀ ∧ blockArrayInsert r₀ 0 [7, 8] = .ok r ∧
      Trace (BlockArrays.unwrappedRuns EmptySelections.oneByteBlocks) r₀
        [(twoBytes, .inserted)] r ∧
      BlockArrays.contents r = .ok [7, 8] := by
  obtain ⟨r₀, r, init, hinsert, run, rep⟩ :=
    EmptySelections.insert_reached Nat.one_pos (by decide) (List.cons_ne_nil 7 [8])
      (show 2 < 2 ^ 31 by decide)
  have hpre : ∀ r op, (blockRuns EmptySelections.oneByteBlocks).pre r op →
      (BlockArrays.unwrappedRuns EmptySelections.oneByteBlocks).pre r op := by
    rintro r op ⟨len, hlen, allowed⟩
    exact ⟨len, hlen, unwrapping_of_allowed allowed⟩
  exact ⟨r₀, r, init, hinsert, run.weaken hpre rfl, contents_spec rep⟩

theorem two_bytes_exact :
    ∃ (r : BlockArray EmptySelections.oneByteBlocks) (e : ExtArray),
      BlockArrays.contents r = .ok [7, 8] ∧ ExtArrays.contents e = [7, 8] ∧
      BlocksExact r ∧ ExtExact e := by
  obtain ⟨r₀, r, init, -, run, hbytes⟩ := two_bytes_reached
  obtain ⟨e, erun, ebytes⟩ : ∃ e, Trace ExtArrays.unwrappedRuns extArrayCreate
      [(⟨twoBytes, true, true⟩, .inserted)] e ∧ ExtArrays.contents e = [7, 8] :=
    ⟨_, .cons (fun h => absurd h (by decide)) rfl (.nil _), by decide⟩
  exact ⟨r, e, hbytes, ebytes, positions_exact init run erun⟩

/-- A start at index 2 ^ 32 finds the first byte, and a stride of 2 ^ 32 + 1 the second. -/
theorem far_positions_wrap :
    (∃ r₀ r, Trace (BlockArrays.unwrappedRuns EmptySelections.oneByteBlocks) r₀
        [(twoBytes, .inserted)] r ∧
      blockArrayRead r ⟨2 ^ 32, 1, 1⟩ 1 = .ok (1, [7]) ∧
      blockArrayRead r ⟨0, 2 ^ 32 + 1, 2⟩ 1 = .ok (2, [7, 8])) ∧
    ∃ e e', Trace ExtArrays.unwrappedRuns extArrayCreate
        [(⟨twoBytes, true, true⟩, .inserted)] e ∧
      extArrayRead e ⟨2 ^ 32, 1, 1⟩ 1 = .ok (1, [7]) ∧
      extArrayRead e ⟨0, 2 ^ 32 + 1, 2⟩ 1 = .ok (2, [7, 8]) ∧
      extArrayRemove e ⟨2 ^ 32, 1, 1⟩ 1 false = .ok (1, [], e') ∧
      ExtArrays.contents e' = [8] := by
  constructor
  · obtain ⟨r₀, r, init, hinsert, run, -⟩ := two_bytes_reached
    have hread : ∀ str, (EmptySelections.oneByteCreate >>= fun r₀ =>
        blockArrayInsert r₀ 0 [7, 8] >>= fun r => blockArrayRead r str 1) =
          blockArrayRead r str 1 := by
      intro str
      rw [init, ok_bind, hinsert, ok_bind]
    refine ⟨r₀, r, run, ?_, ?_⟩
    · rw [← hread]
      decide +kernel
    · rw [← hread]
      decide +kernel
  · exact ⟨_, _, .cons (fun h => absurd h (by decide)) rfl (.nil _), rfl, rfl, rfl, by decide⟩

end StridePositions
