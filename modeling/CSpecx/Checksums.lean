import CSpecx.CExec
import CSpecx.CyclicChecks
import Mathlib.Logic.Function.Basic

/-!
# Checksums

`checksum_execute` looks eight steps of the register up in a table, which the
first call fills. The register is kept complemented between two calls.
-/

namespace Checksums

open CExec CyclicChecks

def polynomial : BitVec 32 := 0x82F63B78#32

/-- The static table and its flag. -/
structure Tables where
  tbl : Nat → BitVec 32
  inited : Bool

def startTables : Tables := ⟨fun _ => 0#32, false⟩

/-- The body of the loop over `k`. -/
def bitStep (c : BitVec 32) : BitVec 32 := (c >>> 1) ^^^ (polynomial &&& -(c &&& 1#32))

def tableEntry (i : Nat) : BitVec 32 := bitStep^[8] (BitVec.ofNat 32 i)

def fillTable (tbl : Nat → BitVec 32) (n : Nat) : Nat → BitVec 32 :=
  (List.range n).foldl (fun tbl i => Function.update tbl i (tableEntry i)) tbl

def crc32cInit (g : Tables) : Tables := ⟨fillTable g.tbl 256, true⟩

def checksumInit : BitVec 32 := 0#32

/-- The body of the loop over `data`. -/
def byteStep (tbl : Nat → BitVec 32) (c : BitVec 32) (b : UInt8) : BitVec 32 :=
  (c >>> 8) ^^^ tbl ((c ^^^ b.toBitVec.setWidth 32) &&& 0xFF#32).toNat

def checksumExecute (g : Tables) (state : BitVec 32) (data : List UInt8) :
    Outcome (BitVec 32 × Tables) := do
  assert (0 < data.length)
  let g := if g.inited then g else crc32cInit g
  let c := data.foldl (byteStep g.tbl) (~~~state)
  .ok (~~~c, g)

/-- Calls for one piece after the other. -/
def executeAll : Tables → BitVec 32 → List (List UInt8) → Outcome (BitVec 32 × Tables)
  | g, state, [] => .ok (state, g)
  | g, state, piece :: pieces => do
    let (state, g) ← checksumExecute g state piece
    executeAll g state pieces

/-! ## The code bit by bit -/

def byteBits (b : UInt8) : List Bool := (List.range 8).map b.toBitVec.getLsbD

def messageBits (message : List UInt8) : List Bool := message.flatMap byteBits

def crc32c (message : List UInt8) : BitVec 32 :=
  ~~~run polynomial (BitVec.allOnes 32) (messageBits message)

/-- A table that counts as filled is the one that is meant. -/
def Ready (g : Tables) : Prop := g.inited = true → ∀ i < 256, g.tbl i = tableEntry i

theorem ready_start : Ready startTables := nofun

section Table

variable {tbl : Nat → BitVec 32} {g : Tables}

theorem bitStep_eq (c : BitVec 32) : bitStep c = step polynomial c := by
  have hmask : polynomial &&& -(c &&& 1#32) = feedback polynomial (c.getLsbD 0) := by
    rw [BitVec.and_one_eq_setWidth_ofBool_getLsbD]
    cases c.getLsbD 0 <;> decide
  rw [bitStep, hmask, step]

theorem tableEntry_eq (i : Nat) :
    tableEntry i = (step polynomial)^[8] (BitVec.ofNat 32 i) := by
  rw [tableEntry, funext bitStep_eq]

theorem fillTable_get (tbl : Nat → BitVec 32) (n : Nat) {i : Nat} (hi : i < n) :
    fillTable tbl n i = tableEntry i := by
  induction n with
  | zero => omega
  | succ n ih =>
    rw [fillTable, List.range_succ, List.foldl_append, List.foldl_cons, List.foldl_nil]
    by_cases hlast : i = n
    · subst hlast
      rw [Function.update_self]
    · rw [Function.update_of_ne hlast]
      exact ih (by omega)

theorem ready_filled (h : Ready g) :
    (if g.inited then g else crc32cInit g).inited = true ∧
      ∀ i < 256, (if g.inited then g else crc32cInit g).tbl i = tableEntry i := by
  by_cases hinited : g.inited = true
  · rw [if_pos hinited]
    exact ⟨hinited, h hinited⟩
  · rw [if_neg hinited]
    refine ⟨rfl, fun i hi => ?_⟩
    rw [crc32cInit]
    dsimp only
    rw [fillTable_get g.tbl 256 hi]

theorem length_byteBits (b : UInt8) : (byteBits b).length = 8 := by
  rw [byteBits, List.length_map, List.length_range]

theorem pack_byteBits (b : UInt8) : pack (byteBits b) = b.toBitVec.setWidth 32 := by
  refine BitVec.eq_of_getLsbD_eq fun i hi => ?_
  rw [getLsbD_pack, BitVec.getLsbD_setWidth, byteBits, List.getElem?_map]
  by_cases hbyte : i < 8
  · rw [List.getElem?_range hbyte]
    rfl
  · rw [List.getElem?_eq_none (by rw [List.length_range]; omega),
      BitVec.getLsbD_of_ge b.toBitVec i (by omega)]
    rfl

theorem getLsbD_lowByte (c : BitVec 32) (i : Nat) :
    (c &&& 0xFF#32).getLsbD i = (decide (i < 8) && c.getLsbD i) := by
  have hmask : (0xFF#32).getLsbD i = decide (i < 8) := by
    rw [BitVec.getLsbD_ofNat, show 0xFF = 2 ^ 8 - 1 from rfl, Nat.testBit_two_pow_sub_one]
    by_cases hi : i < 8
    · rw [decide_eq_true hi, decide_eq_true (show i < 32 by omega)]
      rfl
    · rw [decide_eq_false hi, Bool.and_false]
  rw [BitVec.getLsbD_and, hmask, Bool.and_comm]

/-- The table takes a byte in as its eight bits. -/
theorem byteStep_eq (htbl : ∀ i < 256, tbl i = tableEntry i) (c : BitVec 32) (b : UInt8) :
    byteStep tbl c b = run polynomial c (byteBits b) := by
  have hlow : ((c ^^^ b.toBitVec.setWidth 32) &&& 0xFF#32).toNat < 256 := by
    rw [BitVec.toNat_and]
    exact Nat.lt_of_le_of_lt Nat.and_le_right (by decide)
  have hshift : (c ^^^ b.toBitVec.setWidth 32) >>> 8 = c >>> 8 := by
    refine BitVec.eq_of_getLsbD_eq fun i hi => ?_
    rw [BitVec.getLsbD_ushiftRight, BitVec.getLsbD_xor, BitVec.getLsbD_setWidth,
      BitVec.getLsbD_of_ge b.toBitVec (8 + i) (by omega), Bool.and_false, Bool.xor_false,
      BitVec.getLsbD_ushiftRight]
  have hsplit := iterate_step_split polynomial 8 _
    (getLsbD_lowByte (c ^^^ b.toBitVec.setWidth 32))
  rw [run_eq_iterate c (byteBits b) (by rw [length_byteBits]; decide), length_byteBits,
    pack_byteBits, hsplit, hshift, byteStep, htbl _ hlow, tableEntry_eq, BitVec.ofNat_toNat,
    BitVec.setWidth_eq]

theorem foldl_byteStep (htbl : ∀ i < 256, tbl i = tableEntry i) (c : BitVec 32)
    (data : List UInt8) :
    data.foldl (byteStep tbl) c = run polynomial c (messageBits data) := by
  induction data generalizing c with
  | nil => rfl
  | cons b data ih =>
    rw [List.foldl_cons, ih, byteStep_eq htbl, messageBits, messageBits, List.flatMap_cons,
      run_append]

end Table

/-! ## Messages -/

section Messages

variable {g : Tables}

theorem messageBits_append (front back : List UInt8) :
    messageBits (front ++ back) = messageBits front ++ messageBits back := List.flatMap_append

theorem length_messageBits (message : List UInt8) :
    (messageBits message).length = 8 * message.length := by
  induction message with
  | nil => rfl
  | cons b message ih =>
    rw [messageBits, List.flatMap_cons, List.length_append, length_byteBits, ← messageBits, ih,
      List.length_cons]
    omega

theorem byteBits_injective : Function.Injective byteBits := by
  intro a b h
  refine UInt8.toBitVec_inj.mp (BitVec.eq_of_getLsbD_eq fun i hi => ?_)
  have hbit := congrArg (fun bits => bits[i]?) h
  simp only [byteBits, List.getElem?_map, List.getElem?_range hi, Option.map_some,
    Option.some.injEq] at hbit
  exact hbit

theorem messageBits_injective : Function.Injective messageBits := by
  intro x y h
  induction x generalizing y with
  | nil =>
    have hlength := congrArg List.length h
    rw [length_messageBits, length_messageBits, List.length_nil] at hlength
    exact (List.length_eq_zero_iff.mp (by omega)).symm
  | cons a x ih =>
    cases y with
    | nil =>
      have hlength := congrArg List.length h
      rw [length_messageBits, length_messageBits, List.length_nil, List.length_cons] at hlength
      omega
    | cons b y =>
      obtain ⟨hbyte, hrest⟩ := List.append_inj h (by rw [length_byteBits, length_byteBits])
      rw [byteBits_injective hbyte, ih hrest]

/-- A call continues the run from the complement of its state. -/
theorem checksumExecute_eq (hready : Ready g) (state : BitVec 32) {data : List UInt8}
    (hdata : data ≠ []) :
    ∃ g', checksumExecute g state data =
        .ok (~~~run polynomial (~~~state) (messageBits data), g') ∧ Ready g' := by
  obtain ⟨hinited, htbl⟩ := ready_filled hready
  rw [checksumExecute, assert_pos (List.length_pos_iff.mpr hdata), ok_bind]
  dsimp only
  rw [foldl_byteStep htbl]
  exact ⟨_, rfl, fun _ => htbl⟩

/-- The complements between two calls cancel. -/
theorem executeAll_eq (hready : Ready g) (state : BitVec 32) {pieces : List (List UInt8)}
    (hpieces : ∀ piece ∈ pieces, piece ≠ []) :
    ∃ g', executeAll g state pieces =
        .ok (~~~run polynomial (~~~state) (messageBits pieces.flatten), g') ∧ Ready g' := by
  induction pieces generalizing g state with
  | nil =>
    refine ⟨g, ?_, hready⟩
    rw [executeAll, List.flatten_nil, messageBits, List.flatMap_nil, run, List.foldl_nil,
      BitVec.not_not]
  | cons piece pieces ih =>
    obtain ⟨hpiece, hrest⟩ := List.forall_mem_cons.mp hpieces
    obtain ⟨g₁, hcall, hready₁⟩ := checksumExecute_eq hready state hpiece
    obtain ⟨g₂, hcalls, hready₂⟩ :=
      ih hready₁ (~~~run polynomial (~~~state) (messageBits piece)) hrest
    refine ⟨g₂, ?_, hready₂⟩
    rw [executeAll, hcall, ok_bind]
    dsimp only
    rw [hcalls, BitVec.not_not, List.flatten_cons, messageBits_append, run_append]

theorem window_ne_nil (before after : List UInt8) {window : List UInt8} (h : 0 < window.length) :
    before ++ window ++ after ≠ [] := by
  refine List.length_pos_iff.mp ?_
  rw [List.length_append, List.length_append]
  omega

end Messages

/-- However a message is cut, the calls compute its code. -/
theorem checksum_pieces {g : Tables} (hready : Ready g) (pieces : List (List UInt8))
    (hpieces : ∀ piece ∈ pieces, piece ≠ []) :
    ∃ g', executeAll g checksumInit pieces = .ok (crc32c pieces.flatten, g') ∧ Ready g' :=
  executeAll_eq hready checksumInit hpieces

theorem checksum_pieces_two :
    ∃ g', executeAll startTables checksumInit [[49, 50, 51], [52, 53, 54, 55, 56, 57]] =
      .ok (crc32c [[49, 50, 51], [52, 53, 54, 55, 56, 57]].flatten, g') ∧ Ready g' :=
  checksum_pieces ready_start [[49, 50, 51], [52, 53, 54, 55, 56, 57]] (by decide)

example : crc32c [49, 50, 51, 52, 53, 54, 55, 56, 57] = 0xE3069283#32 := by decide +kernel

/-- Damage within four bytes changes the checksum. -/
theorem checksum_burst {g g' : Tables} (hready : Ready g) (hready' : Ready g')
    (before after x y : List UInt8) (hlength : x.length = y.length) (hle : x.length ≤ 4)
    (hne : x ≠ y) :
    ∃ s t h h', checksumExecute g checksumInit (before ++ x ++ after) = .ok (s, h) ∧
      checksumExecute g' checksumInit (before ++ y ++ after) = .ok (t, h') ∧ s ≠ t := by
  have hpos : 0 < x.length := by
    refine Nat.pos_of_ne_zero fun hzero => hne ?_
    rw [List.length_eq_zero_iff.mp hzero, List.length_eq_zero_iff.mp (hlength.symm.trans hzero)]
  obtain ⟨h, hcall, -⟩ := checksumExecute_eq hready checksumInit
    (window_ne_nil before after hpos)
  obtain ⟨h', hcall', -⟩ := checksumExecute_eq hready' checksumInit
    (window_ne_nil before after (hlength ▸ hpos))
  refine ⟨_, _, h, h', hcall, hcall', fun heq => ?_⟩
  rw [messageBits_append, messageBits_append, messageBits_append, messageBits_append] at heq
  refine run_burst (by decide) (~~~checksumInit) ?_ ?_ (messageBits_injective.ne hne)
    (BitVec.not_inj.mp heq)
  · rw [length_messageBits, length_messageBits, hlength]
  · rw [length_messageBits]
    omega

/-- Four bytes in the middle of a message are turned round. -/
theorem checksum_burst_reversed : ∃ s t h h',
    checksumExecute startTables checksumInit [49, 50, 51, 52, 53, 54, 55, 56] = .ok (s, h) ∧
    checksumExecute startTables checksumInit [49, 50, 54, 53, 52, 51, 55, 56] = .ok (t, h') ∧
    s ≠ t :=
  checksum_burst ready_start ready_start [49, 50] [55, 56] [51, 52, 53, 54] [54, 53, 52, 51] rfl
    (by decide) (by decide)

end Checksums
