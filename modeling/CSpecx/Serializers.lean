import CSpecx.CellMemory
import CSpecx.Component

/-!
# Serializer and deserializer

A serializer appends chunks to a buffer of fixed capacity, and a deserializer
reads them back from the front. Both compare an unsigned 32-bit sum with the
bound, so the sum of the cursor and a length may wrap around it. The latches
are left out, since one call runs at a time.
-/

namespace Serializers

open CExec CellMemory Component

/-- `data` holds `dcap` bytes. -/
structure Serializer where
  data : Nat → UInt8
  dlen : Nat
  dcap : Nat

/-- `DBG_ASSERT (serializer, s)`. -/
def Serializer.check (s : Serializer) : Outcome Unit := do
  assert (0 < s.dcap)
  assert (s.dlen ≤ s.dcap)

def srlizrCreate (data : Nat → UInt8) (dcap : Nat) : Serializer := ⟨data, 0, dcap⟩

def srlizrWrite (s : Serializer) (src : List UInt8) : Outcome (Bool × Serializer) := do
  s.check
  if s.dcap < u32 (s.dlen + src.length) then .ok (false, s)
  else do
    access (s.dlen + src.length ≤ s.dcap)
    let s := { s with data := store s.data s.dlen src, dlen := u32 (s.dlen + src.length) }
    s.check
    .ok (true, s)

/-- `data` holds `dlen` bytes. -/
structure Deserializer where
  data : Nat → UInt8
  head : Nat
  dlen : Nat

/-- `DBG_ASSERT (deserializer, s)`. -/
def Deserializer.check (d : Deserializer) : Outcome Unit := do
  assert (0 < d.dlen)
  assert (d.head ≤ d.dlen)

def dsrlizrCreate (data : Nat → UInt8) (dlen : Nat) : Deserializer := ⟨data, 0, dlen⟩

/-- The result with the memory at `dest` behind the call. -/
def dsrlizrRead (dest : Nat → UInt8) (len : Nat) (d : Deserializer) :
    Outcome (Bool × (Nat → UInt8) × Deserializer) := do
  d.check
  if d.dlen < u32 (d.head + len) then .ok (false, dest, d)
  else do
    access (d.head + len ≤ d.dlen)
    let dest := store dest 0 (load d.data d.head len)
    let d := { d with head := u32 (d.head + len) }
    d.check
    .ok (true, dest, d)

/-- The bytes written so far. -/
def contents (s : Serializer) : List UInt8 := load s.data 0 s.dlen

/-- Writes whose end has 32 bits. -/
def writing : Interface Serializer (List UInt8) Bool where
  pre s src := s.dlen + src.length < 2 ^ 32
  step := srlizrWrite

/-- Reads whose end has 32 bits; a read replies with the memory at its destination. -/
def reading : Interface Deserializer ((Nat → UInt8) × Nat) (Bool × (Nat → UInt8)) where
  pre d op := d.head + op.2 < 2 ^ 32
  step d op := do
    let (ok, dest, d) ← dsrlizrRead op.1 op.2 d
    .ok ((ok, dest), d)

/-- The chunks that were written. -/
def written (tr : List (List UInt8 × Bool)) : List (List UInt8) :=
  (tr.filter fun entry => entry.2).map fun entry => entry.1

/-- Reads with the lengths of the chunks store the chunks, wherever they go. -/
inductive GivesBack : Deserializer → List (List UInt8) → Deserializer → Prop where
  | nil (d : Deserializer) : GivesBack d [] d
  | cons {d d' d'' : Deserializer} {chunk : List UInt8} {chunks : List (List UInt8)} :
      (∀ dest, dsrlizrRead dest chunk.length d = .ok (true, store dest 0 chunk, d')) →
        GivesBack d' chunks d'' → GivesBack d (chunk :: chunks) d''

/-! ## Writing -/

section Writing

variable {s s' : Serializer} {src : List UInt8} {data : Nat → UInt8} {dcap : Nat}

/-- What the assertions of a serializer ask for. -/
structure Serializer.Sound (s : Serializer) : Prop where
  cap_pos : 0 < s.dcap
  cap_lt : s.dcap < 2 ^ 32
  len_le : s.dlen ≤ s.dcap

theorem Serializer.Sound.check_ok (sound : s.Sound) : s.check = .ok () := by
  rw [Serializer.check, assert_pos sound.cap_pos, ok_bind, assert_pos sound.len_le]

/-- The serializer with one more chunk. -/
def Serializer.append (s : Serializer) (src : List UInt8) : Serializer :=
  { s with data := store s.data s.dlen src, dlen := s.dlen + src.length }

@[simp] theorem dlen_append : (s.append src).dlen = s.dlen + src.length := rfl

@[simp] theorem dcap_append : (s.append src).dcap = s.dcap := rfl

theorem contents_append : contents (s.append src) = contents s ++ src := by
  show load (store s.data s.dlen src) 0 (s.dlen + src.length) = _
  rw [load_add, Nat.zero_add, load_store, load_store_of_disjoint (.inl (by omega))]
  rfl

theorem Serializer.Sound.append (sound : s.Sound) (fits : s.dlen + src.length ≤ s.dcap) :
    (s.append src).Sound := ⟨sound.cap_pos, sound.cap_lt, fits⟩

theorem srlizrWrite_fits (sound : s.Sound) (fits : s.dlen + src.length ≤ s.dcap) :
    srlizrWrite s src = .ok (true, s.append src) := by
  have hcap := sound.cap_lt
  have hsum : u32 (s.dlen + src.length) = s.dlen + src.length := u32_of_lt (by omega)
  have hcheck := (sound.append fits).check_ok
  rw [srlizrWrite, sound.check_ok, ok_bind, hsum, if_neg (by omega), access_pos fits, ok_bind]
  rw [Serializer.append] at hcheck ⊢
  dsimp only
  rw [hcheck, ok_bind]

theorem srlizrWrite_full (sound : s.Sound) (hsum : s.dlen + src.length < 2 ^ 32)
    (full : s.dcap < s.dlen + src.length) : srlizrWrite s src = .ok (false, s) := by
  rw [srlizrWrite, sound.check_ok, ok_bind, u32_of_lt hsum, if_pos full]

/-- A sum that wraps is below the cursor, and the copy leaves the buffer. -/
theorem srlizrWrite_wraps (sound : s.Sound) (hlen : src.length < 2 ^ 32)
    (wraps : 2 ^ 32 ≤ s.dlen + src.length) : srlizrWrite s src = .error .undefined := by
  have hcap := sound.cap_lt
  have hle := sound.len_le
  have hsum : u32 (s.dlen + src.length) ≤ s.dcap := by
    unfold u32
    omega
  have houtside : ¬ s.dlen + src.length ≤ s.dcap := by omega
  rw [srlizrWrite, sound.check_ok, ok_bind, if_neg (by omega), access_neg houtside, error_bind]

theorem srlizrCreate_sound (hpos : 0 < dcap) (hcap : dcap < 2 ^ 32) :
    (srlizrCreate data dcap).Sound := ⟨hpos, hcap, Nat.zero_le dcap⟩

/-- A write appends the chunk if it fits, and changes nothing otherwise. -/
theorem srlizrWrite_cases (sound : s.Sound) (hsum : s.dlen + src.length < 2 ^ 32) {ok : Bool}
    (hrun : srlizrWrite s src = .ok (ok, s')) :
    (s.dlen + src.length ≤ s.dcap ∧ ok = true ∧ s' = s.append src) ∨
      (s.dcap < s.dlen + src.length ∧ ok = false ∧ s' = s) := by
  by_cases fits : s.dlen + src.length ≤ s.dcap
  · rw [srlizrWrite_fits sound fits] at hrun
    obtain ⟨rfl, rfl⟩ := ok_pair_inj hrun
    exact .inl ⟨fits, rfl, rfl⟩
  · have full := Nat.lt_of_not_le fits
    rw [srlizrWrite_full sound hsum full] at hrun
    obtain ⟨rfl, rfl⟩ := ok_pair_inj hrun
    exact .inr ⟨full, rfl, rfl⟩

/-- A run keeps the bounds and has the chunks that it wrote in the buffer. -/
theorem writing_run {tr : List (List UInt8 × Bool)} (sound : s.Sound)
    (run : Trace writing s tr s') :
    s'.Sound ∧ s'.dcap = s.dcap ∧ contents s' = contents s ++ (written tr).flatten := by
  induction run with
  | nil s => exact ⟨sound, rfl, (List.append_nil _).symm⟩
  | cons hsum hrun _ ih =>
    obtain ⟨fits, rfl, rfl⟩ | ⟨-, rfl, rfl⟩ := srlizrWrite_cases sound hsum hrun
    · obtain ⟨sound', hcap, hcontents⟩ := ih (sound.append fits)
      refine ⟨sound', hcap, ?_⟩
      rw [hcontents, contents_append, List.append_assoc]
      rfl
    · exact ih sound

end Writing

/-! ## Reading -/

section Reading

variable {d d' : Deserializer} {dest : Nat → UInt8} {len : Nat} {xs ys : List UInt8}

/-- What the assertions of a deserializer ask for. -/
structure Deserializer.Sound (d : Deserializer) : Prop where
  len_pos : 0 < d.dlen
  len_lt : d.dlen < 2 ^ 32
  head_le : d.head ≤ d.dlen

theorem Deserializer.Sound.check_ok (sound : d.Sound) : d.check = .ok () := by
  rw [Deserializer.check, assert_pos sound.len_pos, ok_bind, assert_pos sound.head_le]

def Deserializer.advance (d : Deserializer) (len : Nat) : Deserializer :=
  { d with head := d.head + len }

theorem Deserializer.Sound.advance (sound : d.Sound) (fits : d.head + len ≤ d.dlen) :
    (d.advance len).Sound := ⟨sound.len_pos, sound.len_lt, fits⟩

theorem dsrlizrRead_fits (sound : d.Sound) (fits : d.head + len ≤ d.dlen) :
    dsrlizrRead dest len d = .ok (true, store dest 0 (load d.data d.head len), d.advance len) := by
  have hlen := sound.len_lt
  have hsum : u32 (d.head + len) = d.head + len := u32_of_lt (by omega)
  have hcheck := (sound.advance fits).check_ok
  rw [dsrlizrRead, sound.check_ok, ok_bind, hsum, if_neg (by omega), access_pos fits, ok_bind]
  rw [Deserializer.advance] at hcheck ⊢
  dsimp only
  rw [hcheck, ok_bind]

theorem dsrlizrRead_short (sound : d.Sound) (hsum : d.head + len < 2 ^ 32)
    (short : d.dlen < d.head + len) : dsrlizrRead dest len d = .ok (false, dest, d) := by
  rw [dsrlizrRead, sound.check_ok, ok_bind, u32_of_lt hsum, if_pos short]

theorem dsrlizrRead_wraps (sound : d.Sound) (hlen : len < 2 ^ 32)
    (wraps : 2 ^ 32 ≤ d.head + len) : dsrlizrRead dest len d = .error .undefined := by
  have hlt := sound.len_lt
  have hle := sound.head_le
  have hsum : u32 (d.head + len) ≤ d.dlen := by
    unfold u32
    omega
  have houtside : ¬ d.head + len ≤ d.dlen := by omega
  rw [dsrlizrRead, sound.check_ok, ok_bind, if_neg (by omega), access_neg houtside, error_bind]

theorem dsrlizrCreate_sound {data : Nat → UInt8} {dlen : Nat} (hpos : 0 < dlen)
    (hlen : dlen < 2 ^ 32) : (dsrlizrCreate data dlen).Sound := ⟨hpos, hlen, Nat.zero_le dlen⟩

theorem reading_keeps : Preserves reading Deserializer.Sound := by
  rintro d ⟨dest, len⟩ ⟨ok, dest'⟩ d' sound hsum hrun
  obtain ⟨⟨ok, dest', d'⟩, hread, hrun⟩ := bind_eq_ok.mp hrun
  obtain ⟨-, rfl⟩ := ok_pair_inj hrun
  dsimp only at hread
  by_cases fits : d.head + len ≤ d.dlen
  · rw [dsrlizrRead_fits sound fits] at hread
    obtain ⟨-, -, rfl⟩ := ok_triple_inj hread
    exact sound.advance fits
  · rw [dsrlizrRead_short sound hsum (Nat.lt_of_not_le fits)] at hread
    obtain ⟨-, -, rfl⟩ := ok_triple_inj hread
    exact sound

/-- The chunks in front of the cursor are read one after the other. -/
theorem givesBack (chunks : List (List UInt8)) (sound : d.Sound)
    (hdata : load d.data d.head chunks.flatten.length = chunks.flatten)
    (fits : d.head + chunks.flatten.length ≤ d.dlen) :
    GivesBack d chunks (d.advance chunks.flatten.length) := by
  induction chunks generalizing d with
  | nil => exact .nil d
  | cons chunk chunks ih =>
    rw [List.flatten_cons, List.length_append] at fits hdata
    rw [load_add] at hdata
    obtain ⟨hfirst, hrest⟩ := List.append_inj hdata length_load
    have hfits : d.head + chunk.length ≤ d.dlen := by omega
    have hend : d.advance (chunk :: chunks).flatten.length =
        (d.advance chunk.length).advance chunks.flatten.length := by
      rw [List.flatten_cons, List.length_append, Deserializer.advance, Deserializer.advance,
        Deserializer.advance]
      dsimp only
      rw [Nat.add_assoc]
    rw [hend]
    refine .cons (fun dest => ?_) (ih (sound.advance hfits) hrest ?_)
    · rw [dsrlizrRead_fits sound hfits, hfirst]
    · show d.head + chunk.length + chunks.flatten.length ≤ d.dlen
      omega

end Reading

/-! ## The round trip -/

section RoundTrip

variable {data bytes : Nat → UInt8} {dcap dlen : Nat} {s : Serializer} {d : Deserializer}
  {tr : List (List UInt8 × Bool)} {dtr : List (((Nat → UInt8) × Nat) × (Bool × (Nat → UInt8)))}

/-- A write succeeds exactly when the chunk fits, and one that fails changes nothing. -/
structure WritesFitting (s : Serializer) (src : List UInt8) : Prop where
  fits : s.dlen + src.length ≤ s.dcap → ∃ s', srlizrWrite s src = .ok (true, s')
  full : s.dcap < s.dlen + src.length → srlizrWrite s src = .ok (false, s)

/-- The bytes there are are the chunks that were written. They are read back, and then every
read of a byte or more fails. -/
theorem serialized_read_back (hpos : 1 ≤ dcap) (hcap : dcap < 2 ^ 32)
    (run : Trace writing (srlizrCreate data dcap) tr s) :
    (∀ src, s.dlen + src.length < 2 ^ 32 → WritesFitting s src) ∧
      s.dlen = (written tr).flatten.length ∧ contents s = (written tr).flatten ∧
      (0 < s.dlen → ∃ d, GivesBack (dsrlizrCreate s.data s.dlen) (written tr) d ∧
        d.head = s.dlen ∧ ∀ dest len, 0 < len → d.head + len < 2 ^ 32 →
          dsrlizrRead dest len d = .ok (false, dest, d)) := by
  obtain ⟨sound, -, hcontents⟩ := writing_run (srlizrCreate_sound hpos hcap) run
  have hflat : load s.data 0 s.dlen = (written tr).flatten := hcontents
  have hlen : (written tr).flatten.length = s.dlen := by rw [← hflat, length_load]
  have hlt := sound.cap_lt
  have hle := sound.len_le
  refine ⟨fun src hsum => ?_, hlen.symm, hcontents, fun hmore => ?_⟩
  · exact ⟨fun fits => ⟨_, srlizrWrite_fits sound fits⟩, srlizrWrite_full sound hsum⟩
  · have created : (dsrlizrCreate s.data s.dlen).Sound := dsrlizrCreate_sound hmore (by omega)
    have hfits : 0 + (written tr).flatten.length ≤ s.dlen := by omega
    have hback := givesBack (written tr) created
      (by rw [hlen]; exact hflat) hfits
    have hhead : ((dsrlizrCreate s.data s.dlen).advance (written tr).flatten.length).head =
        s.dlen := by
      show 0 + (written tr).flatten.length = s.dlen
      omega
    refine ⟨_, hback, hhead, fun dest len hpos hsum => ?_⟩
    refine dsrlizrRead_short (created.advance hfits) hsum ?_
    rw [hhead]
    show s.dlen < s.dlen + len
    omega

/-- A call returns, succeeds exactly when the length is at most what is left, and
moves the cursor forward inside the buffer. -/
def WriteBounded (s : Serializer) (src : List UInt8) : Prop :=
  ∃ ok s', srlizrWrite s src = .ok (ok, s') ∧ (ok = true ↔ src.length ≤ s.dcap - s.dlen) ∧
    s.dlen ≤ s'.dlen ∧ s'.dlen ≤ s.dcap

def ReadBounded (d : Deserializer) (dest : Nat → UInt8) (len : Nat) : Prop :=
  ∃ ok dest' d', dsrlizrRead dest len d = .ok (ok, dest', d') ∧
    (ok = true ↔ len ≤ d.dlen - d.head) ∧ d.head ≤ d'.head ∧ d'.head ≤ d.dlen

theorem writeBounded_iff (sound : s.Sound) {src : List UInt8} (hlen : src.length < 2 ^ 32) :
    WriteBounded s src ↔ s.dlen + src.length < 2 ^ 32 := by
  have hle := sound.len_le
  constructor
  · rintro ⟨ok, s', hrun, -⟩
    by_contra hwraps
    rw [srlizrWrite_wraps sound hlen (Nat.le_of_not_lt hwraps)] at hrun
    cases hrun
  · intro hsum
    by_cases fits : s.dlen + src.length ≤ s.dcap
    · refine ⟨true, _, srlizrWrite_fits sound fits, iff_of_true rfl (by omega), ?_, fits⟩
      exact Nat.le_add_right _ _
    · refine ⟨false, s, srlizrWrite_full sound hsum (Nat.lt_of_not_le fits), ?_, le_refl _, hle⟩
      exact iff_of_false Bool.false_ne_true (by omega)

theorem readBounded_iff (sound : d.Sound) {dest : Nat → UInt8} {len : Nat} (hlen : len < 2 ^ 32) :
    ReadBounded d dest len ↔ d.head + len < 2 ^ 32 := by
  have hle := sound.head_le
  constructor
  · rintro ⟨ok, dest', d', hrun, -⟩
    by_contra hwraps
    rw [dsrlizrRead_wraps sound hlen (Nat.le_of_not_lt hwraps)] at hrun
    cases hrun
  · intro hsum
    by_cases fits : d.head + len ≤ d.dlen
    · refine ⟨true, _, _, dsrlizrRead_fits sound fits, iff_of_true rfl (by omega), ?_, fits⟩
      exact Nat.le_add_right _ _
    · refine ⟨false, dest, d, dsrlizrRead_short sound hsum (Nat.lt_of_not_le fits), ?_,
        le_refl _, hle⟩
      exact iff_of_false Bool.false_ne_true (by omega)

/-- In every run of calls whose sums have 32 bits the cursors stay in their buffers,
and a further call is bounded exactly when its sum has 32 bits. -/
theorem serializer_bounds (hpos : 0 < dcap) (hcap : dcap < 2 ^ 32) (hmore : 0 < dlen)
    (hlen : dlen < 2 ^ 32) (run : Trace writing (srlizrCreate data dcap) tr s)
    (drun : Trace reading (dsrlizrCreate bytes dlen) dtr d) :
    s.dlen ≤ s.dcap ∧ d.head ≤ d.dlen ∧
      (∀ src : List UInt8, src.length < 2 ^ 32 →
        (WriteBounded s src ↔ s.dlen + src.length < 2 ^ 32)) ∧
      ∀ dest len, len < 2 ^ 32 → (ReadBounded d dest len ↔ d.head + len < 2 ^ 32) := by
  obtain ⟨sound, -, -⟩ := writing_run (srlizrCreate_sound hpos hcap) run
  have dsound := reading_keeps.trace (dsrlizrCreate_sound hmore hlen) drun
  exact ⟨sound.len_le, dsound.head_le, fun src h => writeBounded_iff sound h,
    fun dest len h => readBounded_iff dsound h⟩

end RoundTrip

/-! ## Two chunks in four bytes -/

def zeros : Nat → UInt8 := fun _ => 0

/-- The second chunk does not fit. -/
def threeChunks : List (List UInt8 × Bool) := [([1, 2], true), ([3, 4, 5], false), ([6], true)]

def threeWritten : Serializer := ((srlizrCreate zeros 4).append [1, 2]).append [6]

theorem threeChunks_run : Trace writing (srlizrCreate zeros 4) threeChunks threeWritten :=
  .cons (show 0 + 2 < 2 ^ 32 by decide) rfl (.cons (show 2 + 3 < 2 ^ 32 by decide) rfl
    (.cons (show 2 + 1 < 2 ^ 32 by decide) rfl (.nil _)))

theorem three_chunks_read_back :
    ∃ d, GivesBack (dsrlizrCreate threeWritten.data 3) [[1, 2], [6]] d ∧
      dsrlizrRead zeros 1 d = .ok (false, zeros, d) := by
  obtain ⟨d, hback, hhead, hend⟩ :=
    (serialized_read_back (by decide) (by decide) threeChunks_run).2.2.2 (by decide)
  have hhead : d.head = 3 := hhead
  exact ⟨d, hback, hend zeros 1 (by decide) (by rw [hhead]; decide)⟩

theorem oneRead_run :
    Trace reading (dsrlizrCreate zeros 4) [((zeros, 1), (true, store zeros 0 [0]))]
      ((dsrlizrCreate zeros 4).advance 1) :=
  .cons (show 0 + 1 < 2 ^ 32 by decide) rfl (.nil _)

theorem four_bytes_bounded :
    WriteBounded threeWritten [7, 8] ∧
      ReadBounded ((dsrlizrCreate zeros 4).advance 1) zeros 4 := by
  obtain ⟨-, -, hwrite, hread⟩ := serializer_bounds (by decide) (by decide) (by decide) (by decide)
    threeChunks_run oneRead_run
  exact ⟨(hwrite [7, 8] (by decide)).mpr (show 3 + 2 < 2 ^ 32 by decide),
    (hread zeros 4 (by decide)).mpr (show 1 + 4 < 2 ^ 32 by decide)⟩

/-- Behind three bytes a length of 2 ^ 32 - 3 passes the test of the writer, and
behind one a length of 2 ^ 32 - 1 that of the reader. -/
theorem wrapped_lengths_escape :
    (Trace writing (srlizrCreate zeros 4) threeChunks threeWritten ∧
      ∃ src : List UInt8, src.length = 2 ^ 32 - 3 ∧
        srlizrWrite threeWritten src = .error .undefined ∧ ¬ WriteBounded threeWritten src) ∧
    Trace reading (dsrlizrCreate zeros 4) [((zeros, 1), (true, store zeros 0 [0]))]
      ((dsrlizrCreate zeros 4).advance 1) ∧
    dsrlizrRead zeros (2 ^ 32 - 1) ((dsrlizrCreate zeros 4).advance 1) = .error .undefined ∧
      ¬ ReadBounded ((dsrlizrCreate zeros 4).advance 1) zeros (2 ^ 32 - 1) := by
  have sound : threeWritten.Sound := ⟨by decide, by decide, by decide⟩
  have dsound : ((dsrlizrCreate zeros 4).advance 1).Sound := ⟨by decide, by decide, by decide⟩
  have hlength : (List.replicate (2 ^ 32 - 3) (0 : UInt8)).length = 2 ^ 32 - 3 :=
    List.length_replicate
  have hwrite : threeWritten.dlen + (List.replicate (2 ^ 32 - 3) (0 : UInt8)).length = 2 ^ 32 := by
    rw [hlength]
    decide
  have hread : ((dsrlizrCreate zeros 4).advance 1).head + (2 ^ 32 - 1) = 2 ^ 32 := by decide
  refine ⟨⟨threeChunks_run, _, hlength, srlizrWrite_wraps sound ?_ (Nat.le_of_eq hwrite.symm),
    fun bounded => ?_⟩, oneRead_run, dsrlizrRead_wraps dsound (by decide) (Nat.le_of_eq hread.symm),
    fun bounded => ?_⟩
  · rw [hlength]
    decide
  · have hlt := (writeBounded_iff sound (by rw [hlength]; decide)).mp bounded
    rw [hwrite] at hlt
    exact Nat.lt_irrefl _ hlt
  · have hlt := (readBounded_iff dsound (by decide)).mp bounded
    rw [hread] at hlt
    exact Nat.lt_irrefl _ hlt

end Serializers
