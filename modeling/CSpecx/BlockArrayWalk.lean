import CSpecx.BlockArrayHeap

/-!
# Strided reads and writes of a block array

The loops carry a countdown to the end of the current run instead of a
position. `Phase` ties the countdown to the position, so each run the loop
takes is wholly selected or wholly skipped, and what an operation does is
stated on runs.
-/

namespace BlockArrays

open CExec CellMemory LinkedChain Strided ByteSequence

variable {A : BlockAllocator} {r r' : BlockArray A} {p q cur bidx n pos total len : Nat}
  {ps before after : List Nat} {str : Stride} {size : Nat} {s : StrideState}

/-! ## Phases -/

/-- The countdown `s` with `total` elements passed, at position `pos`. -/
structure Phase (str : Stride) (size : Nat) (s : StrideState) (total pos : Nat) : Prop where
  next_pos : 0 < s.next
  total_le : total ≤ str.nelems
  behind : ∀ j < total, (str.selection size).pos j + size ≤ pos
  next_le : s.active = true → s.next ≤ size
  reach : pos + s.next = (str.selection size).pos total + if s.active then size else 0

/-- The bytes of selected elements that have passed. -/
def passed (size : Nat) (s : StrideState) (total : Nat) : Nat :=
  total * size + if s.active then size - s.next else 0

/-- No cursor of a walk over `len` bytes wraps around into them: not where the seek
begins, not in the gap behind the first element, and not in the count. -/
structure Unwrapped (str : Stride) (size len : Nat) : Prop where
  size_pos : 0 < size
  stride_pos : 0 < str.stride
  start : str.start * size < 2 ^ 32 ∨ len ≤ u32 (str.start * size)
  jump : 1 < str.nelems → str.start * size + size ≤ len →
    (str.stride - 1) * size < 2 ^ 32 ∨
      len ≤ str.start * size + size + u32 ((str.stride - 1) * size)
  counted : (str.selection size).count len < 2 ^ 32

theorem unwrapped_of_bounded (range : Bounded str size) (len : Nat) :
    Unwrapped str size len := by
  have hbound := range.bound
  have hstart : str.start * size ≤ (str.start + str.nelems * str.stride) * size :=
    Nat.mul_le_mul_right size (Nat.le_add_right _ _)
  have hgap : (str.stride - 1) * size ≤ (str.start + str.nelems * str.stride) * size := by
    refine Nat.mul_le_mul_right size ?_
    have := Nat.le_mul_of_pos_left str.stride range.nelems_pos
    omega
  exact ⟨range.size_pos, range.stride_pos, .inl (by omega), fun _ _ => .inl (by omega),
    lt_of_le_of_lt (Selection.count_whole (str.selection size) len).1 range.nelems_lt⟩

theorem skip_eq (hstep : 0 < str.stride) : skip str size = u32 ((str.stride - 1) * size) := by
  have hwrap : (str.stride + (2 ^ 64 - 1)) * size =
      (str.stride - 1) * size + 2 ^ 32 * (2 ^ 32 * size) := by
    rw [show str.stride + (2 ^ 64 - 1) = (str.stride - 1) + 2 ^ 32 * 2 ^ 32 by omega, Nat.add_mul,
      Nat.mul_assoc]
  rw [skip, hwrap, u32, Nat.add_mul_mod_self_left, u32]

/-- No element is left before the end, and the gap reaches it. -/
structure Leaving (str : Stride) (size len : Nat) (s : StrideState) (total pos : Nat) : Prop where
  beyond : len ≤ (str.selection size).pos total
  reach : len ≤ pos + s.next
  idle : s.active = true → s.next = size ∧ len ≤ pos

/-- The countdown of a walk over `len` bytes, in which a gap may pass the end. -/
structure Course (str : Stride) (size len : Nat) (s : StrideState) (total pos : Nat) : Prop where
  total_le : total ≤ str.nelems
  behind : ∀ j < total, (str.selection size).pos j + size ≤ pos
  ahead : total < str.nelems → Phase str size s total pos ∨ Leaving str size len s total pos

theorem Phase.course (phase : Phase str size s total pos) (len : Nat) :
    Course str size len s total pos :=
  ⟨phase.total_le, phase.behind, fun _ => .inl phase⟩

theorem phase_start (hsize : 0 < size) (str : Stride) :
    Phase str size ⟨size, true⟩ 0 ((str.selection size).pos 0) :=
  ⟨hsize, Nat.zero_le _, fun j hj => absurd hj (Nat.not_lt_zero j), fun _ => le_refl size, rfl⟩

/-- Behind an element the next one or the end of the data is awaited. -/
theorem elementDone_course (unwrapped : Unwrapped str size len) {k : Nat} (hk : k < str.nelems)
    (hfits : (str.selection size).pos k + size ≤ len) :
    Course str size len (elementDone str size) (k + 1) ((str.selection size).pos k + size) := by
  have hstep := unwrapped.stride_pos
  have hsize := unwrapped.size_pos
  have behind : ∀ j < k + 1, (str.selection size).pos j + size ≤
      (str.selection size).pos k + size :=
    fun j hj => Nat.add_le_add_right (Selection.pos_mono (Nat.le_of_lt_succ hj)) size
  have hsucc : (str.selection size).pos (k + 1) =
      (str.selection size).pos k + str.stride * size := Selection.pos_succ k
  refine ⟨hk, behind, fun hnext => ?_⟩
  by_cases hone : str.stride = 1
  · left
    rw [elementDone, if_pos hone]
    refine ⟨hsize, hk, behind, fun _ => le_refl size, ?_⟩
    rw [hsucc, hone, Nat.one_mul]
    rfl
  · have hmul : str.stride * size = size + (str.stride - 1) * size := by
      obtain ⟨d, hd⟩ : ∃ d, str.stride = d + 1 := ⟨str.stride - 1, by omega⟩
      rw [hd, Nat.succ_mul, Nat.add_sub_cancel, Nat.add_comm]
    have hfirst : str.start * size ≤ (str.selection size).pos k :=
      Nat.mul_le_mul_right size (Nat.le_add_right _ _)
    have hgap := u32_le ((str.stride - 1) * size)
    rw [elementDone, if_neg hone, skip_eq hstep]
    rcases unwrapped.jump (by omega) (by omega) with hexact | hfar
    · left
      have hpos : 0 < (str.stride - 1) * size := Nat.mul_pos (by omega) hsize
      rw [u32_of_lt hexact]
      refine ⟨hpos, hk, behind, fun h => absurd h Bool.false_ne_true, ?_⟩
      rw [hsucc, hmul]
      exact Nat.add_assoc _ _ _
    · right
      refine ⟨by omega, ?_, fun h => absurd h Bool.false_ne_true⟩
      show len ≤ (str.selection size).pos k + size + u32 ((str.stride - 1) * size)
      omega

/-- An element inside the data is counted. -/
theorem Unwrapped.count_succ (unwrapped : Unwrapped str size len) {k : Nat} (hk : k < str.nelems)
    (hfits : (str.selection size).pos k + size ≤ len) : u32 (k + 1) = k + 1 := by
  have hlt : k < (str.selection size).count len := Selection.lt_count_iff.mpr ⟨hk, hfits⟩
  have := unwrapped.counted
  exact u32_of_lt (by omega)

theorem Phase.consume (phase : Phase str size s total pos) (unwrapped : Unwrapped str size len)
    (hlt : total < str.nelems) (hn : n ≤ s.next) (hlen : pos + n ≤ len) :
    Course str size len (consume str size s total n).1 (consume str size s total n).2
      (pos + n) := by
  obtain ⟨next, active⟩ := s
  have hnext : 0 < next := phase.next_pos
  have hreach : pos + next = (str.selection size).pos total + if active then size else 0 :=
    phase.reach
  have hbehind : ∀ j < total, (str.selection size).pos j + size ≤ pos + n := fun j hj =>
    le_trans (phase.behind j hj) (Nat.le_add_right pos n)
  by_cases hrest : next - n = 0
  · obtain rfl : n = next := by
      have : n ≤ next := hn
      omega
    cases active with
    | false =>
      rw [BlockArrays.consume, if_pos hrest]
      refine Phase.course ⟨unwrapped.size_pos, phase.total_le, hbehind,
        fun _ => le_refl size, ?_⟩ len
      simp at hreach ⊢
      omega
    | true =>
      have hend : pos + n = (str.selection size).pos total + size := by simpa using hreach
      rw [hend] at hlen ⊢
      rw [BlockArrays.consume, if_pos hrest, if_pos rfl, unwrapped.count_succ hlt hlen]
      exact elementDone_course unwrapped hlt hlen
  · rw [BlockArrays.consume, if_neg hrest]
    refine Phase.course ⟨Nat.pos_of_ne_zero hrest, phase.total_le, hbehind, fun h => ?_, ?_⟩ len
    · have hle : next ≤ size := phase.next_le h
      show next - n ≤ size
      omega
    · show pos + n + (next - n) = _
      rw [← hreach]
      omega

/-- What is left of the gap still reaches the end. -/
theorem Leaving.consume (leaving : Leaving str size len s total pos) (hsize : 0 < size)
    (hn : n ≤ s.next) (hlen : pos + n ≤ len) :
    Leaving str size len (consume str size s total n).1 (consume str size s total n).2 (pos + n) ∧
      (BlockArrays.consume str size s total n).2 = total := by
  obtain ⟨next, active⟩ := s
  have hn' : n ≤ next := hn
  have hreach : len ≤ pos + next := leaving.reach
  have hbeyond := leaving.beyond
  cases active with
  | false =>
    by_cases hrest : next - n = 0
    · rw [BlockArrays.consume, if_pos hrest]
      exact ⟨⟨hbeyond, by show len ≤ pos + n + size; omega, fun _ => ⟨rfl, by omega⟩⟩, rfl⟩
    · rw [BlockArrays.consume, if_neg hrest]
      refine ⟨⟨hbeyond, ?_, fun h => absurd h Bool.false_ne_true⟩, rfl⟩
      show len ≤ pos + n + (next - n)
      omega
  | true =>
    obtain ⟨hsame, hend⟩ := leaving.idle rfl
    have hsame' : next = size := hsame
    have hrest : ¬ next - n = 0 := by omega
    rw [BlockArrays.consume, if_neg hrest]
    refine ⟨⟨hbeyond, ?_, fun _ => ⟨?_, by omega⟩⟩, rfl⟩
    · show len ≤ pos + n + (next - n)
      omega
    · show next - n = size
      omega

theorem Course.consume (course : Course str size len s total pos)
    (unwrapped : Unwrapped str size len) (hlt : total < str.nelems) (hn : n ≤ s.next)
    (hlen : pos + n ≤ len) :
    Course str size len (consume str size s total n).1 (consume str size s total n).2
      (pos + n) := by
  rcases course.ahead hlt with phase | leaving
  · exact phase.consume unwrapped hlt hn hlen
  · obtain ⟨leaving', htotal⟩ := leaving.consume unwrapped.size_pos hn hlen
    rw [htotal] at leaving' ⊢
    exact ⟨course.total_le, fun j hj => le_trans (course.behind j hj) (Nat.le_add_right pos n),
      fun _ => .inr leaving'⟩

theorem Phase.passed_consume (phase : Phase str size s total pos)
    (unwrapped : Unwrapped str size len) (hlt : total < str.nelems) (hn : n ≤ s.next)
    (hlen : pos + n ≤ len) :
    passed size (BlockArrays.consume str size s total n).1
        (BlockArrays.consume str size s total n).2 =
      passed size s total + if s.active then n else 0 := by
  obtain ⟨next, active⟩ := s
  have hn' : n ≤ next := hn
  by_cases hrest : next - n = 0
  · obtain rfl : n = next := by omega
    cases active with
    | false => simp [BlockArrays.consume, passed]
    | true =>
      have hle : n ≤ size := phase.next_le rfl
      have hend : pos + n = (str.selection size).pos total + size := by simpa using phase.reach
      have hdone : (if (elementDone str size).active then size - (elementDone str size).next
          else 0) = 0 := by
        unfold elementDone
        split <;> simp
      rw [BlockArrays.consume, if_pos hrest, if_pos rfl, unwrapped.count_succ hlt (hend ▸ hlen),
        passed, passed, hdone]
      simp only [if_true, Nat.succ_mul]
      omega
  · rw [BlockArrays.consume, if_neg hrest]
    cases active with
    | false => rfl
    | true =>
      have hle : next ≤ size := phase.next_le rfl
      simp only [passed, if_true]
      omega

theorem Course.passed_consume (course : Course str size len s total pos)
    (unwrapped : Unwrapped str size len) (hlt : total < str.nelems) (hn : n ≤ s.next)
    (hlen : pos + n ≤ len) :
    passed size (BlockArrays.consume str size s total n).1
        (BlockArrays.consume str size s total n).2 =
      passed size s total + if s.active then n else 0 := by
  rcases course.ahead hlt with phase | leaving
  · exact phase.passed_consume unwrapped hlt hn hlen
  · have hsize := unwrapped.size_pos
    obtain ⟨next, active⟩ := s
    have hn' : n ≤ next := hn
    cases active with
    | false =>
      by_cases hrest : next - n = 0
      · rw [BlockArrays.consume, if_pos hrest]
        simp [passed]
      · rw [BlockArrays.consume, if_neg hrest]
        rfl
    | true =>
      obtain ⟨hsame, hend⟩ := leaving.idle rfl
      have hsame' : next = size := hsame
      have hrest : ¬ next - n = 0 := by omega
      rw [BlockArrays.consume, if_neg hrest]
      simp only [passed, if_true]
      omega

/-- A run of an element is selected. -/
theorem Phase.run_picked (phase : Phase str size s total pos) (hactive : s.active = true)
    (hlt : total < str.nelems) (hn : n ≤ s.next) {q : Nat} (hq : pos ≤ q) (hq' : q < pos + n) :
    (str.selection size).Picked q := by
  have hreach := phase.reach
  have hle := phase.next_le hactive
  rw [hactive, if_pos rfl] at hreach
  exact Selection.Picked.intro hlt (by omega) (by show q < _ + size; omega)

/-- A run between elements is not. -/
theorem Course.run_skipped (course : Course str size len s total pos) (hlt : total < str.nelems)
    (hactive : s.active = false) (hn : n ≤ s.next) (hlen : pos + n ≤ len) {q : Nat} (hq : pos ≤ q)
    (hq' : q < pos + n) : ¬ (str.selection size).Picked q := by
  refine Selection.not_picked (fun j hj => le_trans (course.behind j hj) hq) (.inl ?_)
  rcases course.ahead hlt with phase | leaving
  · have hreach := phase.reach
    rw [hactive] at hreach
    simp at hreach
    omega
  · have := leaving.beyond
    omega

/-- What a run contributes to the selected bytes and to the others. -/
theorem Course.select_run (course : Course str size len s total pos) (hlt : total < str.nelems)
    (hn : n ≤ s.next) (hlen : pos + n ≤ len) (run : List UInt8) (hrun : run.length ≤ n) :
    select (str.selection size).Picked pos run = (if s.active then run else []) ∧
      select (fun q => ¬ (str.selection size).Picked q) pos run =
        (if s.active then [] else run) := by
  cases hactive : s.active with
  | false =>
    have hnone : ∀ q, pos ≤ q → q < pos + run.length → ¬ (str.selection size).Picked q :=
      fun q hq hq' => course.run_skipped hlt hactive hn hlen hq (by omega)
    exact ⟨select_none hnone, select_all hnone⟩
  | true =>
    have hall : ∀ q, pos ≤ q → q < pos + run.length → (str.selection size).Picked q := by
      intro q hq hq'
      rcases course.ahead hlt with phase | leaving
      · exact phase.run_picked hactive hlt hn hq (by omega)
      · have := (leaving.idle hactive).2
        omega
    exact ⟨select_all hall, select_none fun q hq hq' hnot => hnot (hall q hq hq')⟩

theorem Course.finished (course : Course str size len s total pos) (hall : str.nelems ≤ total)
    {q : Nat} (hq : pos ≤ q) : ¬ (str.selection size).Picked q :=
  Selection.not_picked (fun j hj => le_trans (course.behind j hj) hq) (.inr hall)

/-- Where the loops end, the count is the number of elements passed. -/
theorem Course.count_eq (course : Course str size len s total pos) (hsize : 0 < size)
    (hpos : pos ≤ len) (stop : str.nelems ≤ total ∨ pos = len) :
    (str.selection size).count len = total := by
  refine Selection.count_eq course.total_le (fun j hj => le_trans (course.behind j hj) hpos) ?_
  intro hlt
  have hend : pos = len := stop.resolve_left (Nat.not_le_of_lt hlt)
  show len < (str.selection size).pos total + size
  rcases course.ahead hlt with phase | leaving
  · have hnext := phase.next_pos
    have hreach := phase.reach
    split at hreach <;> omega
  · have := leaving.beyond
    omega

/-- A countdown runs out only at the end. -/
theorem Course.progress (course : Course str size len s total pos) (hlt : total < str.nelems)
    (hpos : pos < len) : 0 < s.next := by
  rcases course.ahead hlt with phase | leaving
  · exact phase.next_pos
  · have := leaving.reach
    omega

/-- The part of the selected element `total` that has passed. -/
theorem Phase.position (phase : Phase str size s total pos) (hactive : s.active = true) :
    pos = (str.selection size).pos total + (size - s.next) ∧
      passed size s total = total * size + (size - s.next) := by
  have hreach := phase.reach
  have hle := phase.next_le hactive
  rw [hactive, if_pos rfl] at hreach
  rw [passed, hactive, if_pos rfl]
  omega

/-! ## Runs over the blocks -/

theorem length_flat (h : r'.len = r.len) : (flat r' ps).length = (flat r ps).length := by
  induction ps with
  | nil => rfl
  | cons p ps ih =>
    simp only [flat_cons, List.length_append, length_bytes, h, ih]

theorem seek_spec (bidx : Nat) (inv : Invariant r (before ++ after)) (enough : after.length < n) :
    ((flat r after).length ≤ bidx ∧ seek r n after.head? bidx = .ok none) ∨
      ∃ mid cur rest o, after = mid ++ cur :: rest ∧
        seek r n after.head? bidx = .ok (some (cur, o)) ∧ o < r.len cur ∧
        (flat r mid).length + o = bidx := by
  induction n generalizing before after bidx with
  | zero => omega
  | succ n ih =>
    cases after with
    | nil => exact .inl ⟨Nat.zero_le _, rfl⟩
    | cons cur after =>
      have hcur : cur ∈ before ++ cur :: after := by simp
      have hlen : (r.blocks cur).len = r.len cur := rfl
      have hnext : (r.blocks cur).next = after.head? := inv.chain.links.2
      by_cases hskip : r.len cur ≤ bidx
      · have inv' : Invariant r ((before ++ [cur]) ++ after) := by simpa using inv
        have hrun : seek r (n + 1) (some cur) bidx = seek r n after.head? (bidx - r.len cur) := by
          simp only [seek, inv.block hcur, ok_bind, hlen, if_pos hskip, hnext]
        rcases ih (bidx - r.len cur) inv' (Nat.lt_of_succ_lt_succ enough) with
          ⟨hend, hnone⟩ | ⟨mid, c, rest, o, hsplit, hsome, ho, hsum⟩
        · refine .inl ⟨?_, hrun.trans hnone⟩
          rw [flat_cons, List.length_append, length_bytes]
          omega
        · refine .inr ⟨cur :: mid, c, rest, o, by rw [hsplit]; rfl, hrun.trans hsome, ho, ?_⟩
          rw [flat_cons, List.length_append, length_bytes]
          omega
      · refine .inr ⟨[], cur, after, bidx, rfl, ?_, Nat.lt_of_not_le hskip, by simp⟩
        simp only [List.head?_cons, seek, inv.block hcur, ok_bind, hlen, if_neg hskip]

section Walk

variable {α : Type} {copy : BlockArray A → Nat → Nat → Nat → α → Outcome (BlockArray A × α)}
  {I : Nat → Nat → BlockArray A → α → Prop} {a : α} {d : Nat}

/-- What `copy` does to a run of a selected element, and what skipping a run
leaves true: `I` speaks of the position and of the selected bytes before it. -/
structure Copying (str : Stride) (size len : Nat) (ps : List Nat)
    (copy : BlockArray A → Nat → Nat → Nat → α → Outcome (BlockArray A × α))
    (I : Nat → Nat → BlockArray A → α → Prop) : Prop where
  copies : ∀ {r : BlockArray A} {a : α} {before after : List Nat} {cur bidx n k j : Nat},
    Invariant r ps → ps = before ++ cur :: after → bidx + n ≤ r.len cur → k < str.nelems →
    (flat r before).length + bidx = (str.selection size).pos k + j → j + n ≤ size →
    I ((str.selection size).pos k + j) (k * size + j) r a →
    ∃ r' a', copy r cur bidx n a = .ok (r', a') ∧ Invariant r' ps ∧ r'.len = r.len ∧
      I ((str.selection size).pos k + j + n) (k * size + j + n) r' a'
  skips : ∀ {r : BlockArray A} {a : α} {pos pos' d : Nat}, pos ≤ pos' → pos' ≤ len →
    (∀ q, pos ≤ q → q < pos' → ¬ (str.selection size).Picked q) → I pos d r a → I pos' d r a

/-- A copy of no bytes. -/
def Idles (ps : List Nat) (copy : BlockArray A → Nat → Nat → Nat → α → Outcome (BlockArray A × α))
    (I : Nat → Nat → BlockArray A → α → Prop) : Prop :=
  ∀ (r : BlockArray A) (a : α) (cur bidx pos d : Nat), Invariant r ps → cur ∈ ps →
    bidx ≤ r.len cur → I pos d r a →
    ∃ r' a', copy r cur bidx 0 a = .ok (r', a') ∧ Invariant r' ps ∧ r'.len = r.len ∧ I pos d r' a'

/-- One run, wherever the block or the element ends. -/
theorem Copying.run (copying : Copying str size len ps copy I) (idles : Idles ps copy I)
    (unwrapped : Unwrapped str size len) (inv : Invariant r ps) (hps : ps = before ++ cur :: after)
    (course : Course str size len s total pos) (hpos : (flat r before).length + bidx = pos)
    (hlt : total < str.nelems) (hn : n ≤ s.next) (hblock : bidx + n ≤ r.len cur)
    (hlen : pos + n ≤ len) (hI : I pos (passed size s total) r a) :
    ∃ r' a', copyRun copy r s cur bidx n a = .ok (r', a') ∧ Invariant r' ps ∧ r'.len = r.len ∧
      I (pos + n) (passed size (consume str size s total n).1
        (consume str size s total n).2) r' a' := by
  rw [course.passed_consume unwrapped hlt hn hlen]
  cases hactive : s.active with
  | false =>
    refine ⟨r, a, by simp [copyRun, hactive], inv, rfl, ?_⟩
    exact copying.skips (Nat.le_add_right _ _) hlen
      (fun q hq hq' => course.run_skipped hlt hactive hn hlen hq hq') hI
  | true =>
    rcases course.ahead hlt with phase | leaving
    · obtain ⟨hplace, hpassed⟩ := phase.position hactive
      have hle := phase.next_le hactive
      rw [hplace, hpassed] at hI
      obtain ⟨r', a', hrun, inv', hlen', hI'⟩ :=
        copying.copies inv hps hblock hlt (hpos.trans hplace) (by omega) hI
      refine ⟨r', a', by simp [copyRun, hactive, hrun], inv', hlen', ?_⟩
      rw [hplace, hpassed]
      simpa using hI'
    · have hend := (leaving.idle hactive).2
      obtain rfl : n = 0 := by omega
      obtain ⟨r', a', hrun, inv', hlen', hI'⟩ :=
        idles r a cur bidx pos _ inv (show cur ∈ ps by simp [hps]) hblock hI
      exact ⟨r', a', by simp [copyRun, hactive, hrun], inv', hlen', by simpa using hI'⟩

/-- The loop stops behind the last element or the last block. -/
theorem walk_spec (copying : Copying str size len ps copy I) (idles : Idles ps copy I)
    (unwrapped : Unwrapped str size len) (inv : Invariant r ps) (hps : ps = before ++ cur :: after)
    (hlen : (flat r ps).length = len) (hbidx : bidx ≤ r.len cur)
    (course : Course str size len s total ((flat r before).length + bidx))
    (enough : (after.map fun p => r.len p + 1).sum + (r.len cur - bidx) < n)
    (hI : I ((flat r before).length + bidx) (passed size s total) r a) :
    ∃ r' a' d, walk copy str size n r cur bidx s total a =
        .ok ((str.selection size).count len, r', a') ∧
      Invariant r' ps ∧ I len d r' a' := by
  induction n generalizing r before cur after bidx s total a with
  | zero => omega
  | succ n ih =>
    have hcur : cur ∈ ps := by simp [hps]
    have htotal : (flat r before).length + r.len cur + (flat r after).length = len := by
      rw [← hlen, hps, flat_append, flat_cons]
      simp only [List.length_append, length_bytes]
      omega
    by_cases hall : str.nelems ≤ total
    · refine ⟨r, a, _, ?_, inv, copying.skips ?_ (le_refl len)
        (fun q hq _ => course.finished hall hq) hI⟩
      · rw [walk, if_pos hall, course.count_eq unwrapped.size_pos (by omega) (.inl hall)]
      · omega
    obtain ⟨k, hk⟩ : ∃ k, k = min s.next (r.len cur - bidx) := ⟨_, rfl⟩
    have hlt : total < str.nelems := Nat.lt_of_not_le hall
    obtain ⟨r', a', hrun, inv', hlens, hI'⟩ :=
      copying.run idles unwrapped inv hps course rfl hlt (n := k) (by omega) (by omega)
        (by omega) hI
    have course' := course.consume unwrapped hlt (n := k) (by omega) (by omega)
    obtain ⟨⟨s', t'⟩, hstate⟩ : ∃ st, consume str size s total k = st := ⟨_, rfl⟩
    rw [hstate] at hI' course'
    have hfield : (r.blocks cur).len = r.len cur := rfl
    have hnext : (r.blocks cur).next = after.head? := by
      have hchain := inv.chain
      rw [hps] at hchain
      exact hchain.links.2
    have hflat : (flat r' before).length = (flat r before).length := length_flat hlens
    have hlen' : (flat r' ps).length = len := (length_flat hlens).trans hlen
    have hpos : (flat r before).length + bidx + k = (flat r' before).length + (bidx + k) := by
      omega
    by_cases hend : bidx + k = r.len cur
    · cases after with
      | nil =>
        have hstep : walk copy str size (n + 1) r cur bidx s total a = .ok (t', r', a') := by
          simp only [walk, if_neg hall, inv.block hcur, ok_bind, hfield, ← hk, hrun, hstate, hnext,
            if_pos hend, List.head?_nil]
        have hall' : (flat r before).length + bidx + k = len := by
          rw [flat_nil, List.length_nil] at htotal
          omega
        refine ⟨r', a', _, ?_, inv', hall' ▸ hI'⟩
        rw [hstep, course'.count_eq unwrapped.size_pos (le_of_eq hall') (.inr hall')]
      | cons q rest =>
        have hstep : walk copy str size (n + 1) r cur bidx s total a =
            walk copy str size n r' q 0 s' t' a' := by
          simp only [walk, if_neg hall, inv.block hcur, ok_bind, hfield, ← hk, hrun, hstate, hnext,
            if_pos hend, List.head?_cons]
        rw [hstep]
        have hps' : ps = (before ++ [cur]) ++ q :: rest := by simp [hps]
        have hstart : (flat r before).length + bidx + k =
            (flat r' (before ++ [cur])).length + 0 := by
          rw [flat_append, List.length_append, flat_cons, flat_nil, List.append_nil, length_bytes,
            hlens]
          omega
        rw [hstart] at course' hI'
        refine ih inv' hps' hlen' (Nat.zero_le _) course' ?_ hI'
        rw [List.map_cons, List.sum_cons] at enough
        rw [hlens]
        omega
    · have hstep : walk copy str size (n + 1) r cur bidx s total a =
          walk copy str size n r' cur (bidx + k) s' t' a' := by
        simp only [walk, if_neg hall, inv.block hcur, ok_bind, hfield, ← hk, hrun, hstate,
          if_neg hend]
      rw [hstep]
      rw [hpos] at course' hI'
      have hnextpos := course.progress hlt (by omega)
      refine ih inv' hps hlen' ?_ course' ?_ hI'
      · rw [hlens]
        omega
      · rw [hlens]
        omega

/-- Behind the end nothing is sought: no element lies inside. -/
theorem Unwrapped.none_inside (unwrapped : Unwrapped str size len)
    (hend : len ≤ u32 (str.start * size)) :
    (str.selection size).count len = 0 ∧ ∀ q < len, ¬ (str.selection size).Picked q := by
  have hstart : str.start * size = (str.selection size).pos 0 := by simp [Selection.pos]
  have hle := u32_le (str.start * size)
  have hsize := unwrapped.size_pos
  constructor
  · refine Selection.count_eq (Nat.zero_le _) (fun j hj => absurd hj (Nat.not_lt_zero j))
      fun _ => ?_
    show len < _ + size
    omega
  · exact fun q hq => Selection.not_picked (k := 0) (fun j hj => absurd hj (Nat.not_lt_zero j))
      (.inl (by omega))

/-- Where the seek finds a byte, it is the first of the selection. -/
theorem Unwrapped.start_eq (unwrapped : Unwrapped str size len)
    (hinside : u32 (str.start * size) < len) :
    u32 (str.start * size) = (str.selection size).pos 0 := by
  have hstart : str.start * size = (str.selection size).pos 0 := by simp [Selection.pos]
  rcases unwrapped.start with hexact | hfar
  · rw [u32_of_lt hexact, hstart]
  · omega

/-- From the head: what is selected has passed when the call returns. -/
theorem seekWalk_spec (copying : Copying str size len ps copy I) (idles : Idles ps copy I)
    (unwrapped : Unwrapped str size len) (inv : Invariant r ps) (hlen : (flat r ps).length = len)
    (hI : I 0 0 r a) :
    ∃ r' a' d, seekWalk copy str size r a = .ok ((str.selection size).count len, r', a') ∧
      Invariant r' ps ∧ I len d r' a' := by
  have inv₀ : Invariant r ([] ++ ps) := inv
  have hseek := seek_spec (u32 (str.start * size)) inv₀ inv.length_lt_fuel
  rw [hlen, ← inv.chain.head_eq] at hseek
  rcases hseek with ⟨hend, hnone⟩ | ⟨before, cur, after, o, hps, hsome, ho, hsum⟩
  · obtain ⟨hcount, hfar⟩ := unwrapped.none_inside hend
    refine ⟨r, a, 0, ?_, inv,
      copying.skips (Nat.zero_le _) (le_refl len) (fun q _ hq => hfar q hq) hI⟩
    simp only [seekWalk, hnone, ok_bind, hcount]
  · have hinside : (flat r before).length + o < len := by
      rw [← hlen, hps, flat_append, flat_cons]
      simp only [List.length_append, length_bytes]
      omega
    have hstart := unwrapped.start_eq (hsum ▸ hinside)
    have hfirst : ∀ q, 0 ≤ q → q < (str.selection size).pos 0 → ¬ (str.selection size).Picked q :=
      fun q _ hq =>
        Selection.not_picked (k := 0) (fun j hj => absurd hj (Nat.not_lt_zero j)) (.inl hq)
    have course := (phase_start unwrapped.size_pos str).course len
    have hI₀ : I ((str.selection size).pos 0) (passed size ⟨size, true⟩ 0) r a := by
      have hzero : passed size ⟨size, true⟩ 0 = 0 := by simp [passed]
      rw [hzero]
      exact copying.skips (Nat.zero_le _) (by omega) hfirst hI
    rw [← hstart, ← hsum] at course hI₀
    have enough : (after.map fun p => r.len p + 1).sum + (r.len cur - o) < r.fuel := by
      have hfuel := inv.fuel_bound
      rw [hps, List.map_append, List.sum_append, List.map_cons, List.sum_cons] at hfuel
      omega
    obtain ⟨r', a', d, hrun, inv', hI'⟩ :=
      walk_spec copying idles unwrapped inv hps hlen (le_of_lt ho) course enough hI₀
    refine ⟨r', a', d, ?_, inv', hI'⟩
    simp only [seekWalk, hsome, ok_bind, hrun]

end Walk

/-! ## Read and write -/

/-- A run inside a block, in the byte sequence. -/
theorem run_eq (hps : ps = before ++ cur :: after) (hn : bidx + n ≤ r.len cur) :
    ((flat r ps).drop ((flat r before).length + bidx)).take n = load (r.data cur) bidx n := by
  have hle : bidx ≤ (bytes r cur).length := by
    rw [length_bytes]
    omega
  rw [hps, flat_append, flat_cons, List.drop_length_add_append,
    List.drop_append_of_le_length hle, bytes, drop_load, Nat.zero_add,
    List.take_append_of_le_length (by rw [length_load]; omega), take_load,
    Nat.min_eq_left (by omega)]

/-- Overwriting a run of a block overwrites it in the byte sequence. -/
theorem flat_store (inv : Invariant r ps) (hps : ps = before ++ cur :: after)
    {ys : List UInt8} (hn : bidx + ys.length ≤ r.len cur) :
    flat (r.setData cur (store (r.data cur) bidx ys)) ps =
      (flat r ps).take ((flat r before).length + bidx) ++ ys ++
        (flat r ps).drop ((flat r before).length + bidx + ys.length) := by
  obtain ⟨r', hr'⟩ : ∃ r', r' = r.setData cur (store (r.data cur) bidx ys) := ⟨_, rfl⟩
  obtain ⟨hnotb, hnota⟩ := (hps ▸ inv : Invariant r (before ++ cur :: after)).apart
  have hothers : ∀ q ≠ cur, bytes r' q = bytes r q := fun q hq => by
    rw [hr']
    exact bytes_congr (by simp [hq]) (by simp)
  have hbytes : bytes r' cur = (bytes r cur).take bidx ++ ys ++
      (bytes r cur).drop (bidx + ys.length) := by
    have hsplit : r.len cur = bidx + ys.length + (r.len cur - (bidx + ys.length)) := by omega
    have hdata : r'.data cur = store (r.data cur) bidx ys := by rw [hr']; simp
    have hlen : r'.len cur = r.len cur := by rw [hr']; simp
    have hafter := load_store_of_disjoint (m := r.data cur) (o := bidx + ys.length)
      (n := r.len cur - (bidx + ys.length)) (Or.inr (le_refl (bidx + ys.length)))
    rw [bytes, bytes, take_load, drop_load, hdata, hlen, Nat.min_eq_left (by omega), Nat.zero_add]
    conv_lhs => rw [hsplit]
    rw [load_add, load_add, Nat.zero_add, Nat.zero_add, load_store, hafter,
      load_store_of_disjoint (.inl (by omega))]
  have hbefore : flat r' before = flat r before := flat_away hnotb hothers
  have hafter : flat r' after = flat r after := flat_away hnota hothers
  have hle : bidx ≤ (bytes r cur).length := by rw [length_bytes]; omega
  have hle' : bidx + ys.length ≤ (bytes r cur).length := by rwa [length_bytes]
  rw [← hr', hps, flat_append, flat_cons, flat_append, flat_cons, hbefore, hafter, hbytes,
    Nat.add_assoc, List.take_length_add_append, List.drop_length_add_append,
    List.take_append_of_le_length hle, List.drop_append_of_le_length hle']
  simp only [List.append_assoc]

theorem read_copying (str : Stride) (size : Nat) (r₀ : BlockArray A) (ps : List Nat) :
    Copying str size (flat r₀ ps).length ps copyOut fun pos _ r dest =>
      r = r₀ ∧ dest = select (str.selection size).Picked 0 ((flat r₀ ps).take pos) := by
  refine ⟨fun {r dest before after cur bidx n k j} inv hps hblock hk hpos hj hI => ?_,
    fun {r dest pos pos' d} hle hlen hnone hI => ?_⟩
  · obtain ⟨rfl, hdest⟩ := hI
    have hcur : cur ∈ ps := by simp [hps]
    have hcap := inv.len_le cur hcur
    have hread := inv.loadBytes hcur (show bidx + n ≤ r.capPerNode by omega)
    refine ⟨r, dest ++ load (r.data cur) bidx n, ?_, inv, rfl, rfl, ?_⟩
    · simp only [copyOut, hread, ok_bind]
    · have hrun := run_eq hps hblock
      rw [hpos] at hrun
      have hlen : ((flat r ps).take ((str.selection size).pos k + j)).length =
          (str.selection size).pos k + j := by
        rw [List.length_take, Nat.min_eq_left]
        rw [← hpos, hps, flat_append, flat_cons]
        simp only [List.length_append, length_bytes]
        omega
      have hall : select (str.selection size).Picked ((str.selection size).pos k + j)
          (load (r.data cur) bidx n) = load (r.data cur) bidx n := by
        refine select_all fun q hq hq' => ?_
        rw [length_load] at hq'
        exact Selection.Picked.intro hk (by omega) (by show q < _ + size; omega)
      rw [List.take_add, select_append, hlen, hrun, Nat.zero_add, hall, hdest]
  · obtain ⟨rfl, hdest⟩ := hI
    obtain ⟨n, rfl⟩ := Nat.exists_eq_add_of_le hle
    have hnone' : select (str.selection size).Picked (0 + ((flat r ps).take pos).length)
        (((flat r ps).drop pos).take n) = [] := by
      refine select_none fun q hq hq' => ?_
      simp only [List.length_take, List.length_drop] at hq hq'
      exact hnone q (by omega) (by omega)
    exact ⟨rfl, by rw [List.take_add, select_append, hnone', List.append_nil, hdest]⟩

theorem read_idles (str : Stride) (size : Nat) (r₀ : BlockArray A) (ps : List Nat) :
    Idles ps copyOut fun pos _ r dest =>
      r = r₀ ∧ dest = select (str.selection size).Picked 0 ((flat r₀ ps).take pos) := by
  intro r dest cur bidx pos d inv hcur hbidx hI
  have hread := inv.loadBytes hcur (le_trans hbidx (inv.len_le cur hcur) : bidx + 0 ≤ r.capPerNode)
  refine ⟨r, dest, ?_, inv, rfl, hI⟩
  simp only [copyOut, hread, ok_bind, load_zero, List.append_nil]

theorem blockArrayRead_unwrapped {xs : List UInt8} (rep : Represents r xs)
    (unwrapped : Unwrapped str size xs.length) :
    blockArrayRead r str size = .ok (elements str size xs, selected str size xs) := by
  obtain ⟨ps, inv, rfl, -⟩ := rep
  obtain ⟨r', dest, d, hrun, -, -, hdest⟩ := seekWalk_spec (a := []) (read_copying str size r ps)
    (read_idles str size r ps) unwrapped inv rfl ⟨rfl, rfl⟩
  rw [List.take_length] at hdest
  simp only [blockArrayRead, hrun, ok_bind, hdest]
  rfl

/-- The byte sequence with the selected bytes before `pos` overwritten. -/
def partly (str : Stride) (size : Nat) (src : Nat → UInt8) (xs : List UInt8) (pos : Nat) :
    List UInt8 := overwritten str size src (xs.take pos) ++ xs.drop pos

theorem partly_skip {src : Nat → UInt8} {xs : List UInt8} {pos' : Nat} (hle : pos ≤ pos')
    (hlen : pos' ≤ xs.length)
    (hnone : ∀ q, pos ≤ q → q < pos' → ¬ (str.selection size).Picked q) :
    partly str size src xs pos' = partly str size src xs pos := by
  obtain ⟨n, rfl⟩ := Nat.exists_eq_add_of_le hle
  have hskip : overlay (str.selection size).Picked (fun p => src ((str.selection size).rank p))
      (0 + (xs.take pos).length) ((xs.drop pos).take n) = (xs.drop pos).take n := by
    refine overlay_none fun q hq hq' => ?_
    simp only [List.length_take, List.length_drop] at hq hq'
    exact hnone q (by omega) (by omega)
  rw [partly, partly, overwritten, overwritten, List.take_add, overlay_append, hskip,
    List.append_assoc, ← List.drop_drop, List.take_append_drop]

theorem partly_run {src : Nat → UInt8} {xs : List UInt8} {k j : Nat} (hstep : 0 < str.stride)
    (hk : k < str.nelems) (hj : j + n ≤ size)
    (hlen : (str.selection size).pos k + j + n ≤ xs.length) :
    partly str size src xs ((str.selection size).pos k + j + n) =
      (partly str size src xs ((str.selection size).pos k + j)).take
          ((str.selection size).pos k + j) ++ load src (k * size + j) n ++
        (partly str size src xs ((str.selection size).pos k + j)).drop
          ((str.selection size).pos k + j + n) := by
  obtain ⟨o, ho⟩ : ∃ o, o = (str.selection size).pos k + j := ⟨_, rfl⟩
  rw [← ho] at hlen ⊢
  have htaken : (xs.take o).length = o := by
    rw [List.length_take, Nat.min_eq_left (by omega)]
  have hover : (overwritten str size src (xs.take o)).length = o := by
    rw [overwritten, length_overlay, htaken]
  have hchunk : ((xs.drop o).take n).length = n := by
    rw [List.length_take, List.length_drop, Nat.min_eq_left (by omega)]
  have hrun : overlay (str.selection size).Picked (fun p => src ((str.selection size).rank p))
      (0 + (xs.take o).length) ((xs.drop o).take n) = load src (k * size + j) n := by
    rw [htaken, Nat.zero_add, overlay_all, hchunk]
    · refine load_eq fun i hi => ?_
      rw [ho, Nat.add_assoc, Selection.rank_pos_add hstep (show j + i < size by omega),
        Nat.add_assoc]
    · intro q hq hq'
      rw [hchunk] at hq'
      exact Selection.Picked.intro hk (by omega) (by show q < _ + size; omega)
  have hafter : (partly str size src xs o).drop (o + n) = xs.drop (o + n) := by
    rw [partly, ← List.drop_drop, List.drop_left' hover, List.drop_drop]
  have hbefore : (partly str size src xs o).take o = overwritten str size src (xs.take o) := by
    rw [partly, List.take_left' hover]
  rw [hafter, hbefore, partly, overwritten, List.take_add, overlay_append, hrun]
  rfl

theorem write_copying (hstep : 0 < str.stride) (src : Nat → UInt8) (xs : List UInt8)
    (ps : List Nat) :
    Copying (A := A) str size xs.length ps (copyIn src) fun pos d r done =>
      done = d ∧ r.tlen = 0 ∧ flat r ps = partly str size src xs pos := by
  refine ⟨fun {r done before after cur bidx n k j} inv hps hblock hk hpos hj hI => ?_,
    fun {r done pos pos' d} hle hlen hnone hI =>
      ⟨hI.1, hI.2.1, hI.2.2.trans (partly_skip hle hlen hnone).symm⟩⟩
  obtain ⟨rfl, htlen, hflat⟩ := hI
  have hcur : cur ∈ ps := by simp [hps]
  have hcap := inv.len_le cur hcur
  obtain ⟨ys, hys⟩ : ∃ ys, ys = load src (k * size + j) n := ⟨_, rfl⟩
  have hn : ys.length = n := by rw [hys, length_load]
  have hstore := inv.storeBytes hcur (show bidx + ys.length ≤ r.capPerNode by omega)
  refine ⟨r.setData cur (store (r.data cur) bidx ys), k * size + j + n, ?_, inv.setData _,
    by simp, rfl, htlen, ?_⟩
  · rw [copyIn, ← hys, hstore, ok_bind]
  · have hlength : (partly str size src xs ((str.selection size).pos k + j)).length =
        xs.length := by
      rw [partly, List.length_append, overwritten, length_overlay, ← List.length_append,
        List.take_append_drop]
    have hinside : (str.selection size).pos k + j + n ≤ xs.length := by
      rw [← hpos, ← hlength, ← hflat, hps, flat_append, flat_cons]
      simp only [List.length_append, length_bytes]
      omega
    rw [flat_store inv hps (by omega), hpos, hflat, hn, hys]
    exact (partly_run hstep hk hj hinside).symm

theorem write_idles (str : Stride) (size : Nat) (src : Nat → UInt8) (xs : List UInt8)
    (ps : List Nat) :
    Idles (A := A) ps (copyIn src) fun pos d r done =>
      done = d ∧ r.tlen = 0 ∧ flat r ps = partly str size src xs pos := by
  rintro r done cur bidx pos d inv hcur hbidx ⟨hdone, htlen, hflat⟩
  have hcap := inv.len_le cur hcur
  obtain ⟨before, after, hps⟩ := List.append_of_mem hcur
  have hstore : r.storeBytes cur bidx [] = .ok (r.setData cur (store (r.data cur) bidx [])) :=
    inv.storeBytes hcur (show bidx + 0 ≤ r.capPerNode by omega)
  have hsame : flat (r.setData cur (store (r.data cur) bidx [])) ps = flat r ps := by
    rw [flat_store inv hps hbidx, List.append_nil, List.length_nil, Nat.add_zero,
      List.take_append_drop]
  refine ⟨r.setData cur (store (r.data cur) bidx []), done, ?_, inv.setData _,
    by simp, hdone, htlen, hsame.trans hflat⟩
  rw [copyIn, load_zero, hstore, ok_bind, Nat.add_zero]

theorem blockArrayWrite_unwrapped {xs : List UInt8} (rep : Represents r xs)
    (unwrapped : Unwrapped str size xs.length) (src : Nat → UInt8) :
    ∃ r', blockArrayWrite r str size src = .ok (elements str size xs, r') ∧
      Represents r' (overwritten str size src xs) := by
  obtain ⟨ps, inv, hflat, htlen⟩ := rep
  have hstart : flat r ps = partly str size src xs 0 := hflat
  obtain ⟨r', done, d, hrun, inv', -, htlen', hflat'⟩ :=
    seekWalk_spec (a := 0) (write_copying unwrapped.stride_pos src xs ps)
      (write_idles str size src xs ps) unwrapped inv (by rw [hflat]) ⟨rfl, htlen, hstart⟩
  refine ⟨r', ?_, ps, inv', ?_, htlen'⟩
  · simp only [blockArrayWrite, hrun, ok_bind]
    rfl
  · rw [hflat', partly, List.take_length, List.drop_length, List.append_nil]

theorem blockArrayWrite_spec {xs : List UInt8} (rep : Represents r xs) (range : Bounded str size)
    (src : Nat → UInt8) :
    ∃ r', blockArrayWrite r str size src = .ok (elements str size xs, r') ∧
      Represents r' (overwritten str size src xs) :=
  blockArrayWrite_unwrapped rep (unwrapped_of_bounded range xs.length) src

/-! ## Walking the blocks -/

theorem walkBlocks_spec (inv : Invariant r (before ++ after)) (enough : after.length < n) :
    walkBlocks r n after.head? = .ok after := by
  induction n generalizing before after with
  | zero => omega
  | succ n ih =>
    cases after with
    | nil => rfl
    | cons cur after =>
      have hnext : (r.blocks cur).next = after.head? := inv.chain.links.2
      have inv' : Invariant r ((before ++ [cur]) ++ after) := by simpa using inv
      simp only [List.head?_cons, walkBlocks, inv.block (show cur ∈ before ++ cur :: after by simp),
        ok_bind, hnext, ih inv' (Nat.lt_of_succ_lt_succ enough)]

theorem getlenLoop_spec (inv : Invariant r (before ++ after)) (enough : after.length < n) :
    getlenLoop r n after.head? len = .ok (len + (flat r after).length) := by
  induction n generalizing before after len with
  | zero => omega
  | succ n ih =>
    cases after with
    | nil => rfl
    | cons cur after =>
      have hnext : (r.blocks cur).next = after.head? := inv.chain.links.2
      have hfield : (r.blocks cur).len = r.len cur := rfl
      have inv' : Invariant r ((before ++ [cur]) ++ after) := by simpa using inv
      simp only [List.head?_cons, getlenLoop, inv.block (show cur ∈ before ++ cur :: after by simp),
        ok_bind, hnext, ih inv' (Nat.lt_of_succ_lt_succ enough), flat_cons, List.length_append,
        length_bytes, hfield, Nat.add_assoc]

theorem contents_spec {xs : List UInt8} (rep : Represents r xs) : contents r = .ok xs := by
  obtain ⟨ps, inv, rfl, -⟩ := rep
  have inv₀ : Invariant r ([] ++ ps) := inv
  simp only [contents, inv.chain.head_eq, walkBlocks_spec inv₀ inv.length_lt_fuel, ok_bind]

theorem blockArrayGetlen_spec {xs : List UInt8} (rep : Represents r xs) :
    blockArrayGetlen r = .ok xs.length := by
  obtain ⟨ps, inv, rfl, -⟩ := rep
  have inv₀ : Invariant r ([] ++ ps) := inv
  rw [blockArrayGetlen, inv.chain.head_eq, getlenLoop_spec inv₀ inv.length_lt_fuel, Nat.zero_add]

end BlockArrays
