import CSpecx.ByteSequence

/-!
# The extendable array

`ext_array.c` on one block of memory that `i_realloc_right` enlarges. Offsets
are unsigned 32-bit values, and every copy is checked against the capacity.
-/

namespace ExtArrays

open CExec CellMemory Strided ByteSequence

/-- `NULL` is `none`. -/
structure ExtArray where
  data : Option (Nat → UInt8)
  len : Nat
  cap : Nat

def extArrayCreate : ExtArray := ⟨none, 0, 0⟩

namespace ExtArray

/-- The source half of a `memcpy` from `r->data + o`. -/
def loadBytes (r : ExtArray) (o n : Nat) : Outcome (List UInt8) :=
  match r.data with
  | none => .error .undefined
  | some m => do
    access (o + n ≤ r.cap)
    .ok (load m o n)

/-- The destination half of a `memcpy` to `r->data + o`. -/
def storeBytes (r : ExtArray) (o : Nat) (bytes : List UInt8) : Outcome ExtArray :=
  match r.data with
  | none => .error .undefined
  | some m => do
    access (o + bytes.length ≤ r.cap)
    .ok { r with data := some (store m o bytes) }

/-- The block after `realloc`: the old contents, then what was there. -/
def moved (r : ExtArray) (grown : Nat → UInt8) : Nat → UInt8 := fun i =>
  match r.data with
  | none => grown i
  | some m => if i < r.cap then m i else grown i

end ExtArray

/-- `grown` is what `i_realloc_right` finds behind the old contents, `none`
when it fails; then the result is `none`. -/
def extArrayReserve (r : ExtArray) (cap : Nat) (grown : Option (Nat → UInt8)) :
    Outcome (Option ExtArray) :=
  if r.cap < cap then do
    assert (r.data.isSome ∨ r.cap = 0)
    assert (0 < u32 (cap * 2))
    .ok (grown.map fun m => { r with data := some (r.moved m), cap := u32 (cap * 2) })
  else .ok (some r)

/-- The copies of `ext_array_insert`, `tlen` bytes behind the insertion point. -/
def spliceSource (r : ExtArray) (ofst tlen : Nat) (src : List UInt8) : Outcome ExtArray :=
  if 0 < tlen then do
    let tail ← r.loadBytes ofst tlen
    let r ← r.storeBytes ofst src
    r.storeBytes (ofst + src.length) tail
  else r.storeBytes ofst src

/-- `none` is the error of an allocation that failed; `tail` says whether the
buffer for the bytes behind `ofst` is granted. -/
def extArrayInsert (r : ExtArray) (ofst : Nat) (src : List UInt8)
    (grown : Option (Nat → UInt8)) (tail : Bool) : Outcome (Option Nat × ExtArray) := do
  assert (ofst ≤ r.len)
  match ← extArrayReserve r (u32 (r.len + src.length)) grown with
  | none => .ok (none, r)
  | some r => do
    let tlen := r.len - ofst
    if 0 < tlen ∧ tail = false then .ok (none, r)
    else do
      let r ← spliceSource r ofst tlen src
      .ok (some src.length, { r with len := u32 (r.len + src.length) })

def readLoop (r : ExtArray) (str : Stride) (size : Nat) :
    Nat → Nat → Nat → List UInt8 → Outcome (Nat × List UInt8)
  | 0, _, _, _ => .error .fuel
  | n + 1, bidx, total, dest =>
    if str.nelems ≤ total then .ok (total, dest)
    else if r.len < u32 (bidx + size) then .ok (total, dest)
    else do
      let bytes ← r.loadBytes bidx size
      readLoop r str size n (u32 (bidx + str.stride * size)) (u32 (total + 1)) (dest ++ bytes)

/-- The count with the bytes written through `dest`. -/
def extArrayRead (r : ExtArray) (str : Stride) (size : Nat) : Outcome (Nat × List UInt8) :=
  readLoop r str size (str.nelems + 1) (u32 (str.start * size)) 0 []

/-- `done` is how far `src` has advanced. -/
def writeLoop (str : Stride) (size : Nat) (src : Nat → UInt8) :
    Nat → ExtArray → Nat → Nat → Nat → Outcome (Nat × ExtArray)
  | 0, _, _, _, _ => .error .fuel
  | n + 1, r, bidx, total, done =>
    if str.nelems ≤ total then .ok (total, r)
    else if r.len < u32 (bidx + size) then .ok (total, r)
    else do
      let r ← r.storeBytes bidx (load src done size)
      writeLoop str size src n r (u32 (bidx + str.stride * size)) (u32 (total + 1)) (done + size)

def extArrayWrite (r : ExtArray) (str : Stride) (size : Nat) (src : Nat → UInt8) :
    Outcome (Nat × ExtArray) :=
  writeLoop str size src (str.nelems + 1) r (u32 (str.start * size)) 0 0

/-- The locals of `ext_array_remove`. -/
structure Sweep where
  wpos : Nat
  rpos : Nat
  nextRemove : Nat
  total : Nat
  bytes : List UInt8

/-- `memmove` of one element down. -/
def moveDown (r : ExtArray) (wpos rpos size : Nat) : Outcome ExtArray :=
  if wpos ≠ rpos then do
    let bytes ← r.loadBytes (u32 (rpos * size)) size
    r.storeBytes (u32 (wpos * size)) bytes
  else .ok r

/-- The copy to `dest` when it is not `NULL`. -/
def copyOut (r : ExtArray) (dest : Bool) (o size : Nat) : Outcome (List UInt8) :=
  if dest then r.loadBytes o size else .ok []

def removeLoop (str : Stride) (size : Nat) (dest : Bool) :
    Nat → ExtArray → Sweep → Outcome (ExtArray × Sweep)
  | 0, _, _ => .error .fuel
  | n + 1, r, s =>
    if u32 (s.rpos * size) < r.len then
      if s.total < str.nelems ∧ s.rpos = s.nextRemove then do
        let bytes ← copyOut r dest (u32 (s.rpos * size)) size
        removeLoop str size dest n r
          { s with
            rpos := u32 (s.rpos + 1)
            nextRemove := u32 (s.nextRemove + str.stride)
            total := u32 (s.total + 1)
            bytes := s.bytes ++ bytes }
      else do
        let r ← moveDown r s.wpos s.rpos size
        removeLoop str size dest n r
          { s with wpos := u32 (s.wpos + 1), rpos := u32 (s.rpos + 1) }
    else .ok (r, s)

def extArrayRemove (r : ExtArray) (str : Stride) (size : Nat) (dest : Bool) :
    Outcome (Nat × List UInt8 × ExtArray) := do
  let (r, s) ← removeLoop str size dest (r.len + 1) r ⟨0, 0, u32 str.start, 0, []⟩
  .ok (s.total, s.bytes, { r with len := u32 (s.wpos * size) })

def extArrayGetLen (r : ExtArray) : Nat := r.len

def cells (r : ExtArray) : Nat → UInt8 := r.data.getD fun _ => 0

/-- `data[0 .. len)`. -/
def contents (r : ExtArray) : List UInt8 := load (cells r) 0 r.len

def step (r : ExtArray) : Op → Outcome (Reply × ExtArray)
  | .insert ofst src grown => do
    let (_, r) ← extArrayInsert r ofst src (some grown) true
    .ok (.inserted, r)
  | .read str size => do
    let (n, bytes) ← extArrayRead r str size
    .ok (.count n bytes, r)
  | .write str size src => do
    let (n, r) ← extArrayWrite r str size src
    .ok (.count n [], r)
  | .remove str size dest => do
    let (n, bytes, r) ← extArrayRemove r str size dest
    .ok (.count n bytes, r)
  | .getlen => .ok (.length (extArrayGetLen r), r)

/-! ## Refinement of the byte sequence -/

structure Represents (r : ExtArray) (xs : List UInt8) : Prop where
  contents_eq : contents r = xs
  allocated : r.data.isSome ∨ r.cap = 0
  len_le : r.len ≤ r.cap
  small : r.len < 2 ^ 31

/-- The data lie inside the memory, and their length fits 32 bits. -/
structure Sound (r : ExtArray) : Prop where
  allocated : r.data.isSome ∨ r.cap = 0
  len_le : r.len ≤ r.cap
  len_lt : r.len < 2 ^ 32

section Copies

variable {r : ExtArray} {o n : Nat} {bytes : List UInt8}

theorem loadBytes_ok (hdata : r.data.isSome) (inside : o + n ≤ r.cap) :
    r.loadBytes o n = .ok (load (cells r) o n) := by
  obtain ⟨m, hm⟩ := Option.isSome_iff_exists.mp hdata
  simp only [ExtArray.loadBytes, cells, hm, access_pos inside, ok_bind, Option.getD_some]

theorem storeBytes_ok (hdata : r.data.isSome) (inside : o + bytes.length ≤ r.cap) :
    r.storeBytes o bytes = .ok { r with data := some (store (cells r) o bytes) } := by
  obtain ⟨m, hm⟩ := Option.isSome_iff_exists.mp hdata
  simp only [ExtArray.storeBytes, cells, hm, access_pos inside, ok_bind, Option.getD_some]

theorem storeBytes_eq_ok {r' : ExtArray} (hrun : r.storeBytes o bytes = .ok r') :
    o + bytes.length ≤ r.cap ∧ r'.data.isSome ∧ r'.len = r.len ∧ r'.cap = r.cap := by
  unfold ExtArray.storeBytes at hrun
  split at hrun
  · cases hrun
  · obtain ⟨_, hfits, hrun⟩ := bind_eq_ok.mp hrun
    obtain rfl := Except.ok.inj hrun
    exact ⟨access_eq_ok_iff.mp hfits, rfl, rfl, rfl⟩

theorem loadBytes_length (hrun : r.loadBytes o n = .ok bytes) :
    bytes.length = n := by
  unfold ExtArray.loadBytes at hrun
  split at hrun
  · cases hrun
  · obtain ⟨_, -, hrun⟩ := bind_eq_ok.mp hrun
    obtain rfl := Except.ok.inj hrun
    exact length_load

end Copies

section Operations

variable {r : ExtArray} {xs : List UInt8} {str : Stride} {size : Nat}

theorem Represents.length (rep : Represents r xs) : xs.length = r.len := by
  rw [← rep.contents_eq, contents, length_load]

theorem Represents.sound (rep : Represents r xs) : Sound r :=
  ⟨rep.allocated, rep.len_le, lt_trans rep.small (by decide)⟩

theorem length_contents : (contents r).length = r.len := length_load

/-- An array that holds a byte has memory. -/
theorem Sound.data (sound : Sound r) (h : 0 < r.len) : r.data.isSome := by
  have := sound.len_le
  exact sound.allocated.resolve_right (by omega)

theorem extArrayCreate_represents : Represents extArrayCreate [] :=
  ⟨rfl, .inr rfl, le_refl 0, by decide⟩

/-- Room for the bytes to come, the bytes that are there kept. -/
theorem extArrayReserve_spec (rep : Represents r xs) (cap : Nat) (grown : Nat → UInt8)
    (hcap : 0 < cap) (hsmall : cap < 2 ^ 31) :
    ∃ r', extArrayReserve r cap (some grown) = .ok (some r') ∧ Represents r' xs ∧
      r'.data.isSome ∧ r'.len = r.len ∧ cap ≤ r'.cap := by
  by_cases hgrow : r.cap < cap
  · have hdouble : u32 (cap * 2) = cap * 2 := u32_of_lt (by omega)
    refine ⟨{ r with data := some (r.moved grown), cap := cap * 2 }, ?_, ?_, rfl, rfl, ?_⟩
    · have hpos : 0 < cap * 2 := by omega
      simp only [extArrayReserve, if_pos hgrow, hdouble, assert_pos rep.allocated,
        assert_pos hpos, ok_bind, Option.map_some]
    · have hle := rep.len_le
      refine ⟨?_, .inl rfl, ?_, rep.small⟩
      · have hkeep : load (r.moved grown) 0 r.len = load (cells r) 0 r.len := by
          apply load_congr
          intro i _ hi
          obtain ⟨m, hm⟩ := Option.isSome_iff_exists.mp (rep.sound.data (by omega))
          have hlt : i < r.cap := by omega
          simp only [ExtArray.moved, cells, hm, if_pos hlt, Option.getD_some]
        exact hkeep.trans rep.contents_eq
      · show r.len ≤ cap * 2
        omega
    · show cap ≤ cap * 2
      omega
  · have hdata : r.data.isSome := rep.allocated.resolve_right (by omega)
    exact ⟨r, by simp only [extArrayReserve, if_neg hgrow], rep, hdata, rfl, by omega⟩

/-- The new bytes stand between the old ones. -/
theorem spliceSource_spec (hdata : r.data.isSome) {ofst : Nat} {src : List UInt8}
    (hofst : ofst ≤ r.len) (room : r.len + src.length ≤ r.cap) :
    ∃ m, spliceSource r ofst (r.len - ofst) src = .ok { r with data := some m } ∧
      load m 0 (r.len + src.length) =
        load (cells r) 0 ofst ++ src ++ load (cells r) ofst (r.len - ofst) := by
  have hload : load (store (cells r) ofst (src ++ load (cells r) ofst (r.len - ofst))) 0
      (r.len + src.length) = load (cells r) 0 ofst ++ src ++
        load (cells r) ofst (r.len - ofst) := by
    have hlen : r.len + src.length = ofst + (src ++ load (cells r) ofst (r.len - ofst)).length := by
      simp only [List.length_append, length_load]
      omega
    rw [hlen, load_add, Nat.zero_add, load_store, load_store_of_disjoint (.inl (by omega)),
      List.append_assoc]
  refine ⟨_, ?_, hload⟩
  have hstore := storeBytes_ok (o := ofst) hdata (show ofst + src.length ≤ r.cap by omega)
  by_cases htail : 0 < r.len - ofst
  · have hsave := loadBytes_ok hdata (show ofst + (r.len - ofst) ≤ r.cap by omega)
    rw [spliceSource, if_pos htail, hsave, ok_bind, hstore, ok_bind, ← store_append]
    exact storeBytes_ok rfl (by simp only [length_load]; omega)
  · have hnone : r.len - ofst = 0 := by omega
    rw [spliceSource, if_neg htail, hstore, hnone, load_zero, List.append_nil]

theorem extArrayInsert_spec (rep : Represents r xs) {ofst : Nat} {src : List UInt8}
    (grown : Nat → UInt8) (hofst : ofst ≤ xs.length) (hsrc : src ≠ [])
    (hsmall : xs.length + src.length < 2 ^ 31) :
    ∃ r', extArrayInsert r ofst src (some grown) true = .ok (some src.length, r') ∧
      Represents r' (xs.take ofst ++ src ++ xs.drop ofst) := by
  rw [rep.length] at hofst hsmall
  have hpos : 0 < src.length := List.length_pos_iff.mpr hsrc
  have hsum : u32 (r.len + src.length) = r.len + src.length := u32_of_lt (by omega)
  obtain ⟨r₁, hres, rep₁, hdata, hlen, hcap⟩ :=
    extArrayReserve_spec rep (r.len + src.length) grown (by omega) hsmall
  have hxs : load (cells r₁) 0 r₁.len = xs := rep₁.contents_eq
  have htake : xs.take ofst = load (cells r₁) 0 ofst := by
    rw [← hxs, take_load, Nat.min_eq_left (by omega)]
  have hdrop : xs.drop ofst = load (cells r₁) ofst (r₁.len - ofst) := by
    rw [← hxs, drop_load, Nat.zero_add]
  rw [← hlen] at hofst hsmall hsum hcap hres
  obtain ⟨m, hm, hload⟩ := spliceSource_spec hdata hofst hcap
  refine ⟨{ r₁ with data := some m, len := r₁.len + src.length }, ?_, ?_, .inl rfl, hcap, hsmall⟩
  · have hgrant : ¬ (0 < r₁.len - ofst ∧ true = false) := by simp
    simp only [extArrayInsert, ← hlen, assert_pos hofst, ok_bind, hsum, hres, if_neg hgrant, hm]
  · rw [htake, hdrop]
    exact hload

/-- The next element ends behind the data in 32 bits, too. -/
def Stops (str : Stride) (size len : Nat) : Prop :=
  str.nelems ≤ (str.selection size).count len ∨
    len < u32 ((str.selection size).pos ((str.selection size).count len) + size)

theorem stops_of_bounded (range : Bounded str size) (len : Nat) : Stops str size len := by
  obtain ⟨-, -, outside⟩ := Selection.count_whole (str.selection size) len
  by_cases hall : str.nelems ≤ (str.selection size).count len
  · exact .inl hall
  · have hlt := Nat.lt_of_not_le hall
    have hend := outside hlt
    right
    rwa [u32_of_lt (range.end_le hlt)]

/-- The cursors of an element that fits. -/
theorem Sound.cursor (sound : Sound r) (hsize : 0 < size) (hstep : 0 < str.stride) {k : Nat}
    (hk : k < (str.selection size).count r.len) :
    k < str.nelems ∧ (str.selection size).pos k + size ≤ r.len ∧
      u32 ((str.selection size).pos k) = (str.selection size).pos k ∧
      u32 ((str.selection size).pos k + size) = (str.selection size).pos k + size ∧
      u32 ((str.selection size).pos k + str.stride * size) =
        u32 ((str.selection size).pos (k + 1)) ∧
      u32 (k + 1) = k + 1 := by
  obtain ⟨hlt, hfits⟩ := Selection.lt_count_iff.mp hk
  have hfits' : (str.selection size).pos k + size ≤ r.len := hfits
  have hsmall := sound.len_lt
  have hle := le_pos hsize hstep k
  have hsucc : (str.selection size).pos (k + 1) =
      (str.selection size).pos k + str.stride * size := Selection.pos_succ k
  exact ⟨hlt, hfits', u32_of_lt (by omega), u32_of_lt (by omega), by rw [hsucc],
    u32_of_lt (by omega)⟩

/-- The bytes copied so far are the selected ones before the next element. -/
theorem readLoop_spec (sound : Sound r) (hsize : 0 < size) (hstep : 0 < str.stride)
    (stops : Stops str size r.len) {n k : Nat} {dest : List UInt8}
    (hk : k ≤ (str.selection size).count r.len) (enough : str.nelems - k < n)
    (hdest : dest = select (str.selection size).Picked 0
      (load (cells r) 0 (min ((str.selection size).pos k) r.len))) :
    readLoop r str size n (u32 ((str.selection size).pos k)) k dest =
      .ok (elements str size (contents r),
        selected (str.first (elements str size (contents r))) size (contents r)) := by
  have hcount : elements str size (contents r) = (str.selection size).count r.len := by
    rw [elements, length_contents]
  rw [hcount]
  induction n generalizing k dest with
  | zero => omega
  | succ n ih =>
    obtain ⟨hle, -, -⟩ := Selection.count_whole (str.selection size) r.len
    by_cases hlast : k = (str.selection size).count r.len
    · have hbytes : dest =
          selected (str.first ((str.selection size).count r.len)) size (contents r) := by
        have hbefore : select (str.selection size).Picked 0
            (load (cells r) 0 (min ((str.selection size).pos k) r.len)) =
          select ((str.first k).selection size).Picked 0
            (load (cells r) 0 (min ((str.selection size).pos k) r.len)) :=
          select_congr fun p _ hp => by
            rw [length_load] at hp
            rw [picked_before_iff hstep (hlast ▸ hle)]
            exact (and_iff_left (by omega)).symm
        have hbehind : select ((str.first k).selection size).Picked 0 (load (cells r) 0 r.len) =
            select ((str.first k).selection size).Picked 0
              (load (cells r) 0 (min ((str.selection size).pos k) r.len)) :=
          select_load_none (Nat.min_le_right _ _) fun p hp hlt hpick => by
            have := ((picked_before_iff hstep (hlast ▸ hle)).mp hpick).2
            omega
        rw [hdest, hbefore, ← hbehind, ← hlast]
        rfl
      rw [readLoop, hbytes, hlast]
      rcases stops with hall | hend
      · exact if_pos hall
      · rw [u32_add, if_pos hend]
        exact ite_self _
    · obtain ⟨hlt, hfits, hstart, hend, hnext, htotal⟩ :=
        sound.cursor (k := k) hsize hstep (by omega)
      have hbytes := loadBytes_ok (sound.data (by omega))
        (show (str.selection size).pos k + size ≤ r.cap by have := sound.len_le; omega)
      rw [readLoop, if_neg (Nat.not_le_of_lt hlt), hstart, hend, if_neg (Nat.not_lt_of_le hfits),
        hbytes, ok_bind, hnext, htotal]
      refine ih (by omega) (by omega) ?_
      have hpos : min ((str.selection size).pos k) r.len = (str.selection size).pos k :=
        Nat.min_eq_left (by omega)
      rw [hdest, hpos]
      exact (select_element hstep hlt hfits).symm

/-- The elements that lie inside the data are read. -/
theorem extArrayRead_first (sound : Sound r) (hsize : 0 < size) (hstep : 0 < str.stride)
    (stops : Stops str size r.len) :
    extArrayRead r str size = .ok (elements str size (contents r),
      selected (str.first (elements str size (contents r))) size (contents r)) := by
  have hzero : str.start * size = (str.selection size).pos 0 := by simp [Selection.pos]
  have hfirst : select (str.selection size).Picked 0
      (load (cells r) 0 (min ((str.selection size).pos 0) r.len)) = [] := by
    refine select_none fun p _ hp => ?_
    rw [length_load, Nat.zero_add] at hp
    exact Selection.not_picked (k := 0) (fun j hj => by omega) (.inl (by omega))
  rw [extArrayRead, hzero]
  exact readLoop_spec sound hsize hstep stops (Nat.zero_le _) (by omega) hfirst.symm

theorem extArrayRead_spec (rep : Represents r xs) (range : InRange str size r.len) :
    extArrayRead r str size = .ok (elements str size xs, selected str size xs) := by
  have divides : size ∣ (contents r).length := by
    rw [length_contents]
    exact range.divides
  rw [extArrayRead_first rep.sound range.size_pos range.stride_pos
    (stops_of_bounded range.toBounded r.len), selected_first_whole range.stride_pos divides,
    rep.contents_eq]

/-- The elements before element `k` are overwritten, all other cells kept. -/
structure Overwriting (r : ExtArray) (str : Stride) (size : Nat) (src : Nat → UInt8) (k : Nat)
    (q : ExtArray) : Prop where
  allocated : q.data.isSome ∨ q.cap = 0
  len_eq : q.len = r.len
  cap_eq : q.cap = r.cap
  cells_eq : ∀ p < r.len, cells q p =
    if (str.selection size).Picked p ∧ p < (str.selection size).pos k then
      src ((str.selection size).rank p) else cells r p

theorem Overwriting.sound {src : Nat → UInt8} {k : Nat} {q : ExtArray}
    (written : Overwriting r str size src k q) (sound : Sound r) : Sound q := by
  refine ⟨written.allocated, ?_, written.len_eq ▸ sound.len_lt⟩
  rw [written.len_eq, written.cap_eq]
  exact sound.len_le

theorem Overwriting.represents {src : Nat → UInt8} {k : Nat} {q : ExtArray}
    (written : Overwriting r str size src k q) (rep : Represents r xs) :
    Represents q (contents q) := by
  have sound := written.sound rep.sound
  exact ⟨rfl, sound.allocated, sound.len_le, written.len_eq ▸ rep.small⟩

theorem Overwriting.contents_eq {src : Nat → UInt8} {k : Nat} {q : ExtArray}
    (written : Overwriting r str size src k q) (hstep : 0 < str.stride) (hk : k ≤ str.nelems) :
    contents q = overwritten (str.first k) size src (contents r) := by
  rw [contents, written.len_eq, overwritten, contents]
  apply overlay_load
  intro p hp
  rw [written.cells_eq p hp]
  exact if_congr (picked_before_iff hstep hk).symm rfl rfl

theorem Overwriting.next {src : Nat → UInt8} {k : Nat} {q : ExtArray}
    (written : Overwriting r str size src k q) (hstep : 0 < str.stride) (hk : k < str.nelems) :
    Overwriting r str size src (k + 1)
      { q with
        data := some
          (store (cells q) ((str.selection size).pos k) (load src (k * size) size)) } := by
  refine ⟨.inl rfl, written.len_eq, written.cap_eq, fun p hp => ?_⟩
  obtain ⟨o, ho⟩ : ∃ o, o = (str.selection size).pos k := ⟨_, rfl⟩
  have hnext : o + size ≤ (str.selection size).pos (k + 1) :=
    ho ▸ Selection.end_le_pos hstep (Nat.lt_succ_self k)
  show store (cells q) ((str.selection size).pos k) (load src (k * size) size) p = _
  rw [← ho]
  by_cases hin : o ≤ p ∧ p < o + size
  · obtain ⟨j, rfl⟩ := Nat.exists_eq_add_of_le hin.1
    have hj : j < size := by omega
    have hrank : (str.selection size).rank (o + j) = k * size + j :=
      ho ▸ Selection.rank_pos_add hstep hj
    have hpick : (str.selection size).Picked (o + j) := ⟨k, hk, ho ▸ hin.1, ho ▸ hin.2⟩
    rw [store_inside (by simpa using hj), getElem_load, if_pos ⟨hpick, by omega⟩, hrank]
  · rw [store_outside (by rw [length_load]; omega), written.cells_eq p hp, ← ho]
    by_cases hpick : (str.selection size).Picked p
    · have hiff : p < o ↔ p < (str.selection size).pos (k + 1) := by
        refine ⟨fun h => by omega, fun h => Nat.lt_of_not_le fun hle => ?_⟩
        have hgap : (str.selection size).pos k + size ≤ p := by omega
        exact Selection.not_picked_gap hgap h hpick
      simp only [hpick, hiff]
    · rw [if_neg fun h => hpick h.1, if_neg fun h => hpick h.1]

/-- The loop writes the elements that lie inside the data, and no other byte. -/
theorem writeLoop_spec (sound : Sound r) (hsize : 0 < size) (hstep : 0 < str.stride)
    (stops : Stops str size r.len) {n k : Nat} {src : Nat → UInt8} {q : ExtArray}
    (hk : k ≤ (str.selection size).count r.len) (enough : str.nelems - k < n)
    (written : Overwriting r str size src k q) :
    ∃ q', writeLoop str size src n q (u32 ((str.selection size).pos k)) k (k * size) =
        .ok ((str.selection size).count r.len, q') ∧
      Overwriting r str size src ((str.selection size).count r.len) q' := by
  induction n generalizing k q with
  | zero => omega
  | succ n ih =>
    by_cases hlast : k = (str.selection size).count r.len
    · refine ⟨q, ?_, hlast ▸ written⟩
      rw [writeLoop, hlast]
      rcases stops with hall | hend
      · exact if_pos hall
      · rw [u32_add, written.len_eq, if_pos hend]
        exact ite_self _
    · obtain ⟨hlt, hfits, hstart, hend, hnext, htotal⟩ :=
        sound.cursor (k := k) hsize hstep (by omega)
      have hroom : (str.selection size).pos k + (load src (k * size) size).length ≤ q.cap := by
        have := sound.len_le
        rw [length_load, written.cap_eq]
        omega
      have hdata : q.data.isSome := written.allocated.resolve_right fun h => by
        rw [h, length_load] at hroom
        omega
      have written' := written.next hstep hlt
      rw [writeLoop, if_neg (Nat.not_le_of_lt hlt), hstart, hend, written.len_eq,
        if_neg (Nat.not_lt_of_le hfits), storeBytes_ok hdata hroom, ok_bind, hnext, htotal,
        ← Nat.succ_mul]
      exact ih (by omega) (by omega) written'

theorem extArrayWrite_stops (sound : Sound r) (hsize : 0 < size) (hstep : 0 < str.stride)
    (stops : Stops str size r.len) (src : Nat → UInt8) :
    ∃ r', extArrayWrite r str size src = .ok ((str.selection size).count r.len, r') ∧
      Overwriting r str size src ((str.selection size).count r.len) r' := by
  have written : Overwriting r str size src 0 r := by
    refine ⟨sound.allocated, rfl, rfl, fun p _ => (if_neg ?_).symm⟩
    rintro ⟨hpick, hbefore⟩
    exact Selection.not_picked (k := 0) (fun j hj => by omega) (.inl hbefore) hpick
  have hzero : str.start * size = (str.selection size).pos 0 := by simp [Selection.pos]
  rw [extArrayWrite, hzero]
  simpa only [Nat.zero_mul] using
    writeLoop_spec sound hsize hstep stops (Nat.zero_le _) (by omega) written

theorem extArrayWrite_run (rep : Represents r xs) (range : Bounded str size)
    (src : Nat → UInt8) :
    ∃ r', extArrayWrite r str size src = .ok (elements str size xs, r') ∧
      Overwriting r str size src (elements str size xs) r' := by
  rw [elements, rep.length]
  exact extArrayWrite_stops rep.sound range.size_pos range.stride_pos
    (stops_of_bounded range r.len) src

theorem extArrayWrite_spec (rep : Represents r xs) (range : InRange str size r.len)
    (src : Nat → UInt8) :
    ∃ r', extArrayWrite r str size src = .ok (elements str size xs, r') ∧
      Represents r' (overwritten str size src xs) := by
  obtain ⟨r', hrun, written⟩ := extArrayWrite_run rep range.toBounded src
  have rep' := written.represents rep
  have divides : size ∣ xs.length := by
    rw [rep.length]
    exact range.divides
  have hcontents := written.contents_eq range.stride_pos
    (Selection.count_whole (str.selection size) xs.length).1
  rw [rep.contents_eq, overwritten_first_whole range.stride_pos divides] at hcontents
  rw [hcontents] at rep'
  exact ⟨r', hrun, rep'⟩

/-- What the sweep of `ext_array_remove` has done before element `rpos`. -/
structure Sweeping (r : ExtArray) (str : Stride) (size : Nat) (dest : Bool) (s : Sweep)
    (q : ExtArray) : Prop where
  allocated : q.data.isSome ∨ q.cap = 0
  len_eq : q.len = r.len
  cap_eq : q.cap = r.cap
  rpos_le : s.rpos * size ≤ r.len
  wpos_le : s.wpos ≤ s.rpos
  total_le : s.total ≤ str.nelems
  next_eq : s.nextRemove = str.start + s.total * str.stride
  behind : ∀ j < s.total, (str.selection size).pos j + size ≤ s.rpos * size
  ahead : s.total < str.nelems → s.rpos ≤ s.nextRemove
  bytes_eq : s.bytes =
    if dest then select (str.selection size).Picked 0 (load (cells r) 0 (s.rpos * size)) else []
  kept : load (cells q) 0 (s.wpos * size) =
    select (fun p => ¬ (str.selection size).Picked p) 0 (load (cells r) 0 (s.rpos * size))
  rest : ∀ p, s.rpos * size ≤ p → cells q p = cells r p

/-- An element that is removed. -/
theorem Sweeping.take {s : Sweep} {dest : Bool} {q : ExtArray}
    (sweep : Sweeping r str size dest s q) (hk : s.total < str.nelems)
    (hnext : s.rpos = s.nextRemove) (hstep : 0 < str.stride)
    (inside : (s.rpos + 1) * size ≤ r.len) :
    Sweeping r str size dest
      { s with
        rpos := s.rpos + 1
        nextRemove := s.nextRemove + str.stride
        total := s.total + 1
        bytes := s.bytes ++ if dest then load (cells q) (s.rpos * size) size else [] } q := by
  have hpos : (str.selection size).pos s.total = s.rpos * size := by
    rw [hnext, sweep.next_eq]
    rfl
  have hsucc : (s.rpos + 1) * size = s.rpos * size + size := Nat.succ_mul _ _
  have hle : s.rpos * size ≤ (s.rpos + 1) * size := by omega
  have hpick : ∀ p, s.rpos * size ≤ p → p < (s.rpos + 1) * size →
      (str.selection size).Picked p := fun p hp hlt =>
    Selection.Picked.intro hk (hpos ▸ hp) (by rw [hpos]; show p < s.rpos * size + size; omega)
  have hcells : load (cells q) (s.rpos * size) size = load (cells r) (s.rpos * size) size :=
    load_congr fun p hp _ => sweep.rest p hp
  refine ⟨sweep.allocated, sweep.len_eq, sweep.cap_eq, inside, Nat.le_succ_of_le sweep.wpos_le,
    hk, ?_, ?_, ?_, ?_, ?_, fun p hp => sweep.rest p (le_trans hle hp)⟩
  · show s.nextRemove + str.stride = str.start + (s.total + 1) * str.stride
    rw [sweep.next_eq, Nat.succ_mul, Nat.add_assoc]
  · intro j hj
    have hmono := Selection.pos_mono (s := str.selection size) (Nat.le_of_lt_succ hj)
    show (str.selection size).pos j + size ≤ (s.rpos + 1) * size
    omega
  · intro _
    show s.rpos + 1 ≤ s.nextRemove + str.stride
    omega
  · show s.bytes ++ _ = _
    cases dest with
    | false => simpa using sweep.bytes_eq
    | true =>
      have hbytes : s.bytes = select (str.selection size).Picked 0
        (load (cells r) 0 (s.rpos * size)) := by simpa using sweep.bytes_eq
      have hmore := select_load_all (m := cells r) hle hpick
      rw [hsucc, Nat.add_sub_cancel_left] at hmore
      simp only [if_true, hbytes, hcells, hsucc, hmore]
  · rw [sweep.kept]
    exact (select_load_none hle fun p hp hlt hnot => hnot (hpick p hp hlt)).symm

/-- One element moved down behind those kept before. -/
theorem moveDown_spec {q : ExtArray} {wpos rpos : Nat} (hw : wpos ≤ rpos) (hsize : 0 < size)
    (hdata : q.data.isSome ∨ q.cap = 0) (inside : (rpos + 1) * size ≤ q.cap)
    (hsmall : rpos * size < 2 ^ 32) :
    ∃ q', moveDown q wpos rpos size = .ok q' ∧ (q'.data.isSome ∨ q'.cap = 0) ∧
      q'.len = q.len ∧ q'.cap = q.cap ∧
      load (cells q') 0 ((wpos + 1) * size) =
        load (cells q) 0 (wpos * size) ++ load (cells q) (rpos * size) size ∧
      ∀ p, (rpos + 1) * size ≤ p → cells q' p = cells q p := by
  have hsucc : ∀ n, (n + 1) * size = n * size + size := fun n => Nat.succ_mul n size
  have hmul : wpos * size ≤ rpos * size := Nat.mul_le_mul_right size hw
  by_cases heq : wpos = rpos
  · refine ⟨q, if_neg (not_not.mpr heq), hdata, rfl, rfl, ?_, fun _ _ => rfl⟩
    rw [hsucc, load_add, Nat.zero_add, heq]
  rw [hsucc] at inside
  have hsome : q.data.isSome := hdata.resolve_right (by omega)
  have hread := loadBytes_ok hsome inside
  have hwrite := storeBytes_ok hsome
    (show wpos * size + (load (cells q) (rpos * size) size).length ≤ q.cap by
      rw [length_load]; omega)
  refine ⟨{ q with
      data := some (store (cells q) (wpos * size) (load (cells q) (rpos * size) size)) },
    ?_, .inl rfl, rfl, rfl, ?_, fun p hp => ?_⟩
  · rw [moveDown, if_pos heq, u32_of_lt (by omega), u32_of_lt (by omega), hread, ok_bind, hwrite]
  · show load (store (cells q) (wpos * size) (load (cells q) (rpos * size) size)) 0 _ = _
    rw [hsucc, load_add, Nat.zero_add, load_store_of_length length_load,
      load_store_of_disjoint (.inl (by omega))]
  · show store (cells q) (wpos * size) (load (cells q) (rpos * size) size) p = _
    rw [hsucc] at hp
    exact store_outside (.inr (by rw [length_load]; omega))

/-- An element that stays. -/
theorem Sweeping.keep {s : Sweep} {dest : Bool} {q : ExtArray}
    (sweep : Sweeping r str size dest s q)
    (hnot : ¬ (s.total < str.nelems ∧ s.rpos = s.nextRemove)) (hsize : 0 < size)
    (inside : (s.rpos + 1) * size ≤ r.len) (hcap : r.len ≤ r.cap) (hsmall : r.len < 2 ^ 32) :
    ∃ q', moveDown q s.wpos s.rpos size = .ok q' ∧
      Sweeping r str size dest { s with wpos := s.wpos + 1, rpos := s.rpos + 1 } q' := by
  have hsucc : (s.rpos + 1) * size = s.rpos * size + size := Nat.succ_mul _ _
  have hle : s.rpos * size ≤ (s.rpos + 1) * size := by omega
  obtain ⟨q', hmove, hdata, hlen, hcap', hload, hrest⟩ :=
    moveDown_spec sweep.wpos_le hsize sweep.allocated
      (by rw [sweep.cap_eq]; omega) (by omega)
  have hbefore : str.nelems ≤ s.total ∨ s.rpos + 1 ≤ str.start + s.total * str.stride := by
    by_cases hall : str.nelems ≤ s.total
    · exact .inl hall
    · have hahead := sweep.ahead (by omega)
      have hne : s.rpos ≠ s.nextRemove := fun h => hnot ⟨by omega, h⟩
      rw [← sweep.next_eq]
      exact .inr (by omega)
  have hkeep : ∀ p, s.rpos * size ≤ p → p < (s.rpos + 1) * size →
      ¬ (str.selection size).Picked p := fun p hp hlt => by
    refine Selection.not_picked (k := s.total) (fun j hj => le_trans (sweep.behind j hj) hp) ?_
    refine hbefore.symm.imp_left fun h => lt_of_lt_of_le hlt ?_
    exact Nat.mul_le_mul_right size h
  refine ⟨q', hmove, hdata, hlen.trans sweep.len_eq, hcap'.trans sweep.cap_eq, inside,
    Nat.succ_le_succ sweep.wpos_le, sweep.total_le, sweep.next_eq,
    fun j hj => le_trans (sweep.behind j hj) hle, fun hk => ?_, ?_, ?_, fun p hp => ?_⟩
  · rw [sweep.next_eq]
    exact hbefore.resolve_left (by have : s.total < str.nelems := hk; omega)
  · rw [sweep.bytes_eq, select_load_none hle hkeep]
  · have hcells : load (cells q) (s.rpos * size) size = load (cells r) (s.rpos * size) size :=
      load_congr fun p hp _ => sweep.rest p hp
    have hmore := select_load_all (m := cells r) hle hkeep
    rw [hsucc, Nat.add_sub_cancel_left] at hmore
    rw [hload, sweep.kept, hcells, hsucc, hmore]
  · exact (hrest p hp).trans (sweep.rest p (le_trans hle hp))

/-- The index behind the last element counted is not met again, when it wraps around:
either it lies behind the data or the sweep has passed it. -/
def Passes (str : Stride) (size len : Nat) : Prop :=
  str.nelems ≤ (str.selection size).count len ∨
    len ≤ u32 (str.start + (str.selection size).count len * str.stride) * size ∨
    ∃ k, (str.selection size).count len = k + 1 ∧
      u32 (str.start + (str.selection size).count len * str.stride) ≤ str.start + k * str.stride

theorem passes_of_inRange {len : Nat} (range : InRange str size len) : Passes str size len := by
  obtain ⟨hle, -, outside⟩ := Selection.count_whole (str.selection size) len
  by_cases hall : str.nelems ≤ (str.selection size).count len
  · exact .inl hall
  · have hend : len < (str.selection size).pos ((str.selection size).count len) + size :=
      outside (Nat.lt_of_not_le hall)
    right
    left
    rw [u32_of_lt (range.index_lt hle)]
    refine Nat.le_of_not_lt fun hlt => ?_
    have hfits : (str.selection size).pos ((str.selection size).count len) + size ≤ len :=
      pos_whole range.divides hlt
    omega

/-- The locals of the loop, where the next index is kept in 32 bits. -/
def Sweep.narrowed (s : Sweep) : Sweep := { s with nextRemove := u32 s.nextRemove }

theorem Sweeping.total_le_count {s : Sweep} {dest : Bool} {q : ExtArray}
    (sweep : Sweeping r str size dest s q) : s.total ≤ (str.selection size).count r.len := by
  obtain ⟨-, -, outside⟩ := Selection.count_whole (str.selection size) r.len
  refine Nat.le_of_not_lt fun hlt => ?_
  have hend := outside (lt_of_lt_of_le hlt sweep.total_le)
  have hfits := le_trans (sweep.behind _ hlt) sweep.rpos_le
  exact Nat.not_le_of_lt hend hfits

/-- Inside the data the narrowed index is met exactly where the index itself is. -/
theorem Sweeping.meets_iff {s : Sweep} {dest : Bool} {q : ExtArray}
    (sweep : Sweeping r str size dest s q) (sound : Sound r) (hsize : 0 < size)
    (divides : size ∣ r.len) (passes : Passes str size r.len) (hmore : s.rpos * size < r.len)
    (hlt : s.total < str.nelems) : s.rpos = u32 s.nextRemove ↔ s.rpos = s.nextRemove := by
  have hsmall := sound.len_lt
  have hle := sweep.total_le_count
  by_cases hlast : s.total = (str.selection size).count r.len
  · have hnext : s.nextRemove = str.start + (str.selection size).count r.len * str.stride :=
      hlast ▸ sweep.next_eq
    have hbehind : r.len ≤ s.nextRemove * size := by
      obtain ⟨-, -, outside⟩ := Selection.count_whole (str.selection size) r.len
      have hend : r.len < (str.selection size).pos ((str.selection size).count r.len) + size :=
        outside (hlast ▸ hlt)
      rw [hnext]
      refine Nat.le_of_not_lt fun hinside => ?_
      have hfits : (str.selection size).pos ((str.selection size).count r.len) + size ≤ r.len :=
        pos_whole divides hinside
      omega
    have hne : s.rpos ≠ s.nextRemove := fun h => by
      rw [h] at hmore
      omega
    refine iff_of_false (fun hmeets => ?_) hne
    rw [hnext] at hmeets
    rcases passes with hall | hfar | ⟨k, hk, hpassed⟩
    · omega
    · rw [← hmeets] at hfar
      omega
    · have hbefore := sweep.behind k (by omega)
      have hmul : (str.start + k * str.stride + 1) * size ≤ s.rpos * size := by
        rw [Nat.succ_mul]
        exact hbefore
      have := Nat.le_of_mul_le_mul_right hmul hsize
      omega
  · have hfits : s.nextRemove * size + size ≤ r.len := by
      rw [sweep.next_eq]
      exact (Selection.lt_count_iff.mp (Nat.lt_of_le_of_ne hle hlast)).2
    have hindex : s.nextRemove ≤ s.nextRemove * size := Nat.le_mul_of_pos_right _ hsize
    rw [u32_of_lt (by omega)]

/-- Each round takes one element, so `len` rounds reach the end. -/
theorem removeLoop_spec (sound : Sound r) (hsize : 0 < size) (hstep : 0 < str.stride)
    (divides : size ∣ r.len) (passes : Passes str size r.len) {n : Nat}
    {s : Sweep} {dest : Bool} {q : ExtArray} (sweep : Sweeping r str size dest s q)
    (enough : r.len - s.rpos * size < n) :
    ∃ q' s', removeLoop str size dest n q s.narrowed = .ok (q', s'.narrowed) ∧
      Sweeping r str size dest s' q' ∧ s'.rpos * size = r.len := by
  induction n generalizing s q with
  | zero => omega
  | succ n ih =>
    have hsmall := sound.len_lt
    have hcap := sound.len_le
    have hle := sweep.rpos_le
    have hpos : u32 (s.narrowed.rpos * size) = s.rpos * size := u32_of_lt (by
      show s.rpos * size < 2 ^ 32
      omega)
    by_cases hmore : s.rpos * size < r.len
    · have hsucc : (s.rpos + 1) * size = s.rpos * size + size := Nat.succ_mul _ _
      have inside : (s.rpos + 1) * size ≤ r.len := by
        obtain ⟨d, hd⟩ := divides
        rw [hd, Nat.mul_comm] at hmore ⊢
        exact Nat.mul_le_mul_left size (Nat.lt_of_mul_lt_mul_left hmore)
      have hr : s.rpos + 1 ≤ (s.rpos + 1) * size := Nat.le_mul_of_pos_right _ hsize
      have hrpos : u32 (s.narrowed.rpos + 1) = s.rpos + 1 := u32_of_lt (by
        show s.rpos + 1 < 2 ^ 32
        omega)
      have hw := sweep.wpos_le
      have hmeets := sweep.meets_iff sound hsize divides passes hmore
      rw [removeLoop, hpos, sweep.len_eq, if_pos hmore]
      by_cases htake : s.total < str.nelems ∧ s.rpos = s.nextRemove
      · have htake' : s.narrowed.total < str.nelems ∧ s.narrowed.rpos = s.narrowed.nextRemove :=
          ⟨htake.1, (hmeets htake.1).mpr htake.2⟩
        have hdata : q.data.isSome :=
          sweep.allocated.resolve_right (by rw [sweep.cap_eq]; omega)
        have hcopy : copyOut q dest (s.rpos * size) size =
            .ok (if dest then load (cells q) (s.rpos * size) size else []) := by
          cases dest with
          | false => rfl
          | true => exact loadBytes_ok hdata (by rw [sweep.cap_eq]; omega)
        have sweep' := sweep.take htake.1 htake.2 hstep inside
        have htotal : u32 (s.narrowed.total + 1) = s.total + 1 := u32_of_lt (by
          have hstride : s.total ≤ s.total * str.stride := Nat.le_mul_of_pos_right _ hstep
          have hnext := sweep.next_eq
          show s.total + 1 < 2 ^ 32
          omega)
        have hnext : u32 (s.narrowed.nextRemove + str.stride) = u32 (s.nextRemove + str.stride) :=
          u32_add
        rw [if_pos htake', hcopy, ok_bind, hrpos, hnext, htotal]
        exact ih sweep' (by show r.len - (s.rpos + 1) * size < n; omega)
      · have htake' : ¬ (s.narrowed.total < str.nelems ∧ s.narrowed.rpos = s.narrowed.nextRemove) :=
          fun h => htake ⟨h.1, (hmeets h.1).mp h.2⟩
        have hwpos : u32 (s.narrowed.wpos + 1) = s.wpos + 1 := u32_of_lt (by
          show s.wpos + 1 < 2 ^ 32
          omega)
        obtain ⟨q', hmove, sweep'⟩ := sweep.keep htake hsize inside hcap hsmall
        have hmove' : moveDown q s.narrowed.wpos s.narrowed.rpos size = .ok q' := hmove
        rw [if_neg htake', hmove', ok_bind, hwpos, hrpos]
        exact ih sweep' (by show r.len - (s.rpos + 1) * size < n; omega)
    · refine ⟨q, s, ?_, sweep, by omega⟩
      rw [removeLoop, hpos, sweep.len_eq, if_neg hmore]

/-- The selected elements are taken out, and the others keep their order. -/
theorem extArrayRemove_passes (sound : Sound r) (hsize : 0 < size) (hstep : 0 < str.stride)
    (divides : size ∣ r.len) (passes : Passes str size r.len) (dest : Bool) :
    ∃ r', extArrayRemove r str size dest = .ok (elements str size (contents r),
        if dest then selected str size (contents r) else [], r') ∧
      contents r' = remaining str size (contents r) ∧ Sound r' ∧ r'.len ≤ r.len ∧
      r'.cap = r.cap := by
  have sweep : Sweeping r str size dest ⟨0, 0, str.start, 0, []⟩ r := by
    constructor
    case allocated => exact sound.allocated
    case behind => exact fun j hj => absurd hj (Nat.not_lt_zero j)
    case ahead => exact fun _ => Nat.zero_le _
    case rest => exact fun _ _ => rfl
    all_goals simp
  obtain ⟨q, s, hloop, sweep', hend⟩ := removeLoop_spec sound hsize hstep divides passes sweep
    (show r.len - 0 * size < r.len + 1 by omega)
  have hcount : s.total = elements str size (contents r) := by
    rw [elements, length_contents]
    refine (Selection.count_eq sweep'.total_le (hend ▸ sweep'.behind) fun hk => ?_).symm
    have hle : s.rpos * size ≤ (str.selection size).pos s.total :=
      Nat.mul_le_mul_right size (sweep'.next_eq ▸ sweep'.ahead hk)
    show r.len < _ + size
    omega
  have hbytes : s.bytes = if dest then selected str size (contents r) else [] := by
    rw [sweep'.bytes_eq, hend, selected, contents]
  have hw : s.wpos * size ≤ r.len := hend ▸ Nat.mul_le_mul_right size sweep'.wpos_le
  have hsmall := sound.len_lt
  have hcap := sound.len_le
  have hlen : u32 (s.narrowed.wpos * size) = s.wpos * size := u32_of_lt (by
    show s.wpos * size < 2 ^ 32
    omega)
  refine ⟨{ q with len := s.wpos * size }, ?_, ?_, ⟨sweep'.allocated, ?_, ?_⟩, hw, sweep'.cap_eq⟩
  · have hloop' : removeLoop str size dest (r.len + 1) r ⟨0, 0, u32 str.start, 0, []⟩ =
        .ok (q, s.narrowed) := hloop
    rw [extArrayRemove, hloop', ok_bind]
    dsimp only
    rw [hlen, ← hcount, ← hbytes]
    rfl
  · have hkept := sweep'.kept
    rw [hend] at hkept
    rw [remaining, contents]
    exact hkept
  · show s.wpos * size ≤ q.cap
    rw [sweep'.cap_eq]
    omega
  · show s.wpos * size < 2 ^ 32
    omega

theorem extArrayRemove_spec (rep : Represents r xs) (range : InRange str size r.len)
    (dest : Bool) :
    ∃ r', extArrayRemove r str size dest =
        .ok (elements str size xs, if dest then selected str size xs else [], r') ∧
      Represents r' (remaining str size xs) := by
  obtain ⟨r', hrun, hcontents, sound, hlen, -⟩ := extArrayRemove_passes rep.sound range.size_pos
    range.stride_pos range.divides (passes_of_inRange range) dest
  rw [rep.contents_eq] at hrun hcontents
  exact ⟨r', hrun, hcontents, sound.allocated, sound.len_le, lt_of_le_of_lt hlen rep.small⟩

/-- Every permitted operation returns what the byte sequence answers. -/
theorem step_refines (rep : Represents r xs) {op : Op} (permitted : Permitted r.len op) :
    ∃ r', step r op = .ok ((apply xs op).1, r') ∧ Represents r' (apply xs op).2 := by
  cases op with
  | insert ofst src grown =>
    obtain ⟨hofst, hsrc, hsmall⟩ := permitted
    rw [← rep.length] at hofst hsmall
    obtain ⟨r', hrun, rep'⟩ := extArrayInsert_spec rep grown hofst hsrc hsmall
    exact ⟨r', by rw [step, hrun]; rfl, rep'⟩
  | read str size =>
    exact ⟨r, by rw [step, extArrayRead_spec rep permitted]; rfl, rep⟩
  | write str size src =>
    obtain ⟨r', hrun, rep'⟩ := extArrayWrite_spec rep permitted src
    exact ⟨r', by rw [step, hrun]; rfl, rep'⟩
  | remove str size dest =>
    obtain ⟨r', hrun, rep'⟩ := extArrayRemove_spec rep permitted dest
    exact ⟨r', by rw [step, hrun]; rfl, rep'⟩
  | getlen =>
    exact ⟨r, by rw [step, extArrayGetLen, ← rep.length]; rfl, rep⟩

end Operations

end ExtArrays
