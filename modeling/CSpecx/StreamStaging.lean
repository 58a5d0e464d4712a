import CSpecx.StreamCopies

/-!
# The staging buffer

What `stream_read` asks of its two streams, next to its result. A pull stores
from the start of the buffer, and a push reads elements from an offset on. The
streams are any two whose calls return no more than they were asked for.
-/

namespace StreamStaging

open CExec Errors CellMemory Streams StreamCopies

/-- `pull` and `push` are calls with the bytes they may touch; `filled` says how many
bytes the last pull stored, and `pulled` is its answer. -/
inductive Event where
  | pull (asked : Nat)
  | pulled (got : Int) (filled : Nat)
  | push (first bytes filled : Nat)
  deriving DecidableEq, Repr

/-- A pull asks for what the buffer holds, and a push reads from what was stored in it. -/
def Event.Inside : Event → Prop
  | .pull asked => asked ≤ stageSize
  | .pulled _ _ => True
  | .push first bytes filled => first + bytes ≤ filled ∧ first + bytes ≤ stageSize

/-- A pull stores the elements that it returns. -/
def Event.Served (size : Nat) : Event → Prop
  | .pulled got filled => got.toNat * size ≤ filled
  | _ => True

variable {σ τ : Type}

abbrev Pull (σ : Type) :=
  σ → Nat → Nat → Nat → ErrorObject → Outcome (Int × List UInt8 × σ × ErrorObject)

abbrev Push (τ : Type) := τ → List UInt8 → Nat → Nat → ErrorObject → Outcome (Int × τ × ErrorObject)

/-- A pull fills at most `size * n` bytes and returns at most `n`. -/
def PullBounded (pull : Pull σ) : Prop :=
  ∀ s room size n e r bytes s' e', pull s room size n e = .ok (r, bytes, s', e') →
    bytes.length ≤ size * n ∧ r ≤ n

def PushBounded (push : Push τ) : Prop :=
  ∀ s src size n e r s' e', push s src size n e = .ok (r, s', e') → r ≤ n

/-- The inner loop with its events. -/
def tracedPushLoop (push : Push τ) (buf : Nat → UInt8) (size got filled : Nat) :
    Nat → Nat → τ → ErrorObject → Outcome (Pushed × τ × ErrorObject) × List Event
  | 0, _, _, _ => (.error .fuel, [])
  | fuel + 1, pushed, dest, e =>
    if pushed < got then
      let o := u32 (pushed * size)
      let event := Event.push o (size * (got - pushed)) filled
      match push dest (load buf o (stageSize - o)) size (got - pushed) e with
      | .error fault => (.error fault, [event])
      | .ok (w, dest, e) =>
        if w < 0 then (.ok (.failed w, dest, e), [event])
        else if w = 0 then (.ok (.count pushed, dest, e), [event])
        else
          let rest := tracedPushLoop push buf size got filled fuel (u32 (pushed + w.toNat)) dest e
          (rest.1, event :: rest.2)
    else (.ok (.count pushed, dest, e), [])

/-- The outer loop with its events. -/
def tracedCopyLoop (pull : Pull σ) (push : Push τ) (size batchMax : Nat) :
    Nat → Nat → Nat → (Nat → UInt8) → Ends σ τ → Outcome (Int × Ends σ τ) × List Event
  | 0, _, _, _, _ => (.error .fuel, [])
  | fuel + 1, total, remaining, buf, s =>
    if 0 < remaining then
      let batch := if remaining < batchMax then remaining else batchMax
      let event := Event.pull (size * batch)
      match pull s.src stageSize size batch s.e with
      | .error fault => (.error fault, [event])
      | .ok (got, bytes, src, e) =>
        let events := [event, .pulled got bytes.length]
        if got < 0 then (.ok (got, ⟨src, s.dest, e⟩), events)
        else if got = 0 then (.ok (asI32 total, ⟨src, s.dest, e⟩), events)
        else
          let buf := store buf 0 bytes
          let inner := tracedPushLoop push buf size got.toNat bytes.length
            (got.toNat + 1) 0 s.dest e
          match inner.1 with
          | .error fault => (.error fault, events ++ inner.2)
          | .ok (.failed code, dest, e) => (.ok (code, ⟨src, dest, e⟩), events ++ inner.2)
          | .ok (.count pushed, dest, e) =>
            if pushed < got.toNat then
              (.ok (asI32 (u32 (total + pushed)), ⟨src, dest, e⟩), events ++ inner.2)
            else
              let rest := tracedCopyLoop pull push size batchMax fuel (u32 (total + pushed))
                (sub32 remaining pushed) buf ⟨src, dest, e⟩
              (rest.1, events ++ inner.2 ++ rest.2)
    else (.ok (asI32 total, s), [])

/-- `stream_read` with its events, for streams that have the two functions. -/
def tracedRead (pull : Pull σ) (push : Push τ) (buf : Nat → UInt8) (size n : Nat) (s : Ends σ τ) :
    Outcome (Int × Ends σ τ) × List Event :=
  tracedCopyLoop pull push size (batchMax size) (n + 1) 0 n buf s

section Results

variable {pull : Pull σ} {push : Push τ} {size : Nat}

theorem tracedPushLoop_fst (buf : Nat → UInt8) (got filled fuel : Nat) (pushed : Nat) (dest : τ)
    (e : ErrorObject) : (tracedPushLoop push buf size got filled fuel pushed dest e).1 =
      pushLoop push buf size got fuel pushed dest e := by
  induction fuel generalizing pushed dest e with
  | zero => rfl
  | succ fuel ih =>
    rw [tracedPushLoop, pushLoop]
    by_cases hmore : pushed < got
    · rw [if_pos hmore, if_pos hmore]
      dsimp only
      cases push dest (load buf (u32 (pushed * size)) (stageSize - u32 (pushed * size))) size
        (got - pushed) e with
      | error fault => rfl
      | ok answer =>
        obtain ⟨w, dest', e'⟩ := answer
        rw [ok_bind]
        dsimp only
        split_ifs
        · rfl
        · rfl
        · exact ih _ _ _
    · rw [if_neg hmore, if_neg hmore]

theorem tracedCopyLoop_fst (k fuel total remaining : Nat) (buf : Nat → UInt8) (s : Ends σ τ) :
    (tracedCopyLoop pull push size k fuel total remaining buf s).1 =
      copyLoop pull push size k fuel total remaining buf s := by
  induction fuel generalizing total remaining buf s with
  | zero => rfl
  | succ fuel ih =>
    rw [tracedCopyLoop, copyLoop]
    by_cases hmore : 0 < remaining
    · rw [if_pos hmore, if_pos hmore]
      dsimp only
      generalize (if remaining < k then remaining else k) = batch
      cases pull s.src stageSize size batch s.e with
      | error fault => rfl
      | ok answer =>
        obtain ⟨got, bytes, src, e⟩ := answer
        rw [ok_bind]
        dsimp only
        split_ifs
        · rfl
        · rfl
        · rw [← tracedPushLoop_fst (store buf 0 bytes) got.toNat bytes.length]
          cases (tracedPushLoop push (store buf 0 bytes) size got.toNat bytes.length
              (got.toNat + 1) 0 s.dest e).1 with
          | error fault => rfl
          | ok out =>
            obtain ⟨out, dest, e'⟩ := out
            rw [ok_bind]
            cases out with
            | failed code => rfl
            | count pushed =>
              dsimp only
              split_ifs
              · rfl
              · exact ih _ _ _ _
    · rw [if_neg hmore, if_neg hmore]

/-- The events are those of a call of `stream_read`. -/
theorem tracedRead_fst {destOps : StreamOps τ} {srcOps : StreamOps σ}
    (hpush : destOps.push = some push) (hpull : srcOps.pull = some pull) (hsize : 0 < size)
    (buf : Nat → UInt8) (n : Nat) (s : Ends σ τ) :
    streamRead destOps srcOps buf size n s = (tracedRead pull push buf size n s).1 := by
  rw [streamRead, hpush, hpull, access_pos hsize, tracedRead, tracedCopyLoop_fst]
  rfl

end Results

section Events

variable {pull : Pull σ} {push : Push τ} {size got : Nat}

theorem push_inside_iff {pushed : Nat} (filled : Nat) (hlt : pushed < got)
    (hgot : got * size ≤ stageSize) :
    (Event.push (u32 (pushed * size)) (size * (got - pushed)) filled).Inside ↔
      got * size ≤ filled := by
  have hstage : stageSize = 4096 := rfl
  have hle : pushed * size ≤ got * size := Nat.mul_le_mul_right size (Nat.le_of_lt hlt)
  have hrest : size * (got - pushed) = got * size - pushed * size := by
    rw [Nat.mul_comm, Nat.sub_mul]
  have hoffset : u32 (pushed * size) = pushed * size := u32_of_lt (by omega)
  rw [Event.Inside, hoffset, hrest, Nat.add_sub_cancel' hle]
  exact and_iff_left hgot

/-- The first push reads every element of the batch, and the later ones no more. -/
theorem pushEvents_inside (filled : Nat) (buf : Nat → UInt8) (bounded : PushBounded push)
    (hsize : 0 < size) (hgot : got * size ≤ stageSize) (fuel pushed : Nat)
    (hle : pushed ≤ got) (dest : τ) (e : ErrorObject) :
    (∀ event ∈ (tracedPushLoop push buf size got filled fuel pushed dest e).2, event.Inside) ↔
      (0 < fuel → pushed < got → got * size ≤ filled) := by
  have hstage : stageSize = 4096 := rfl
  have hsmall : got ≤ got * size := Nat.le_mul_of_pos_right _ hsize
  induction fuel generalizing pushed dest e with
  | zero => simp [tracedPushLoop]
  | succ fuel ih =>
    rw [tracedPushLoop]
    by_cases hmore : pushed < got
    · have hfirst := push_inside_iff filled hmore hgot
      rw [if_pos hmore]
      dsimp only
      cases hpush : push dest (load buf (u32 (pushed * size)) (stageSize - u32 (pushed * size)))
        size (got - pushed) e with
      | error fault => simp [hfirst, hmore]
      | ok answer =>
        obtain ⟨w, dest', e'⟩ := answer
        dsimp only
        split_ifs with hneg hzero
        · simp [hfirst, hmore]
        · simp [hfirst, hmore]
        · have hw := bounded _ _ _ _ _ _ _ _ hpush
          have hnext : u32 (pushed + w.toNat) = pushed + w.toNat := u32_of_lt (by omega)
          have hlater := ih (pushed + w.toNat) (by omega) dest' e'
          rw [hnext]
          refine (List.forall_mem_cons.trans (and_congr hfirst hlater)).trans ?_
          exact ⟨fun h _ _ => h.1, fun h => ⟨h (Nat.succ_pos _) hmore, fun _ _ =>
            h (Nat.succ_pos _) hmore⟩⟩
    · rw [if_neg hmore]
      simp [hmore]

/-- Pushes say nothing about what a pull stored. -/
theorem pushEvents_served (push : Push τ) (size got filled : Nat) (buf : Nat → UInt8)
    (fuel pushed : Nat) (dest : τ) (e : ErrorObject) :
    ∀ event ∈ (tracedPushLoop push buf size got filled fuel pushed dest e).2,
      event.Served size := by
  induction fuel generalizing pushed dest e with
  | zero => simp [tracedPushLoop]
  | succ fuel ih =>
    rw [tracedPushLoop]
    split_ifs
    · dsimp only
      split
      · simp [Event.Served]
      · split_ifs
        · simp [Event.Served]
        · simp [Event.Served]
        · exact List.forall_mem_cons.mpr ⟨trivial, ih _ _ _⟩
    · simp

/-- The events of one round before its pushes. -/
theorem pull_inside {batch : Nat} (got : Int) (filled : Nat) (hle : size * batch ≤ stageSize) :
    ∀ event ∈ [Event.pull (size * batch), .pulled got filled], event.Inside := by
  simp [Event.Inside, hle]

theorem pull_served_iff (asked : Nat) (got : Int) (filled : Nat) :
    (∀ event ∈ [Event.pull asked, .pulled got filled], event.Served size) ↔
      got.toNat * size ≤ filled := by
  simp [Event.Served]

/-- A round is its pull and its pushes. -/
theorem round_iff {asked : Nat} {got : Int} {filled : Nat} {pushes : List Event}
    (hinside : ∀ event ∈ [Event.pull asked, .pulled got filled], event.Inside)
    (hserved : (∀ event ∈ [Event.pull asked, .pulled got filled], event.Served size) ↔
      got.toNat * size ≤ filled)
    (hpushes : (∀ event ∈ pushes, event.Inside) ↔ got.toNat * size ≤ filled)
    (hquiet : ∀ event ∈ pushes, event.Served size) :
    (∀ event ∈ [Event.pull asked, .pulled got filled] ++ pushes, event.Inside) ↔
      ∀ event ∈ [Event.pull asked, .pulled got filled] ++ pushes, event.Served size := by
  constructor
  · intro h
    obtain ⟨-, hall⟩ := List.forall_mem_append.mp h
    exact List.forall_mem_append.mpr ⟨hserved.mpr (hpushes.mp hall), hquiet⟩
  · intro h
    obtain ⟨hpull, -⟩ := List.forall_mem_append.mp h
    exact List.forall_mem_append.mpr ⟨hinside, hpushes.mpr (hserved.mp hpull)⟩

/-- Where an element fits in the buffer, only a pull that stores less than it returns lets
a push leave what was filled. -/
theorem copyEvents_inside (hpull : PullBounded pull) (hpush : PushBounded push) (hsize : 0 < size)
    (hle : size ≤ stageSize) (fuel total remaining : Nat) (buf : Nat → UInt8) (s : Ends σ τ) :
    (∀ event ∈ (tracedCopyLoop pull push size (batchMax size) fuel total remaining buf s).2,
      event.Inside) ↔
    ∀ event ∈ (tracedCopyLoop pull push size (batchMax size) fuel total remaining buf s).2,
      event.Served size := by
  obtain ⟨hstage, -⟩ := batchMax_mul_le hsize hle
  induction fuel generalizing total remaining buf s with
  | zero => simp [tracedCopyLoop]
  | succ fuel ih =>
    rw [tracedCopyLoop]
    by_cases hmore : 0 < remaining
    · obtain ⟨batch, hbatch⟩ : ∃ batch, (if remaining < batchMax size then remaining
          else batchMax size) = batch := ⟨_, rfl⟩
      have hasked : size * batch ≤ stageSize := by
        have hbound : batch ≤ batchMax size := by
          rw [← hbatch]
          split <;> omega
        exact le_trans (by rw [Nat.mul_comm]; exact Nat.mul_le_mul_right size hbound) hstage
      rw [if_pos hmore]
      dsimp only
      rw [hbatch]
      cases hanswer : pull s.src stageSize size batch s.e with
      | error fault => simp [Event.Inside, Event.Served, hasked]
      | ok answer =>
        obtain ⟨got, bytes, src, e⟩ := answer
        obtain ⟨hfilled, hgot⟩ := hpull _ _ _ _ _ _ _ _ _ hanswer
        have hinside := pull_inside got bytes.length hasked
        have hserved : _ ↔ got.toNat * size ≤ bytes.length :=
          pull_served_iff (size * batch) got bytes.length
        dsimp only
        split_ifs with hneg hzero
        · have hnone : got.toNat = 0 := by omega
          rw [hserved, hnone, Nat.zero_mul]
          exact iff_of_true hinside (Nat.zero_le _)
        · subst hzero
          rw [hserved, Int.toNat_zero, Nat.zero_mul]
          exact iff_of_true hinside (Nat.zero_le _)
        · have hbytes : got.toNat * size ≤ stageSize := by
            refine le_trans ?_ hasked
            rw [Nat.mul_comm size]
            exact Nat.mul_le_mul_right size (by omega)
          have hpushes := (pushEvents_inside bytes.length (store buf 0 bytes) hpush hsize hbytes
            (got.toNat + 1) 0 (Nat.zero_le _) s.dest e).trans
            ⟨fun h => h (Nat.succ_pos _) (by omega), fun h _ _ => h⟩
          have hquiet := pushEvents_served push size got.toNat bytes.length (store buf 0 bytes)
            (got.toNat + 1) 0 s.dest e
          generalize tracedPushLoop push (store buf 0 bytes) size got.toNat bytes.length
            (got.toNat + 1) 0 s.dest e = inner at hpushes hquiet ⊢
          obtain ⟨out, events⟩ := inner
          have hround := round_iff hinside hserved hpushes hquiet
          dsimp only
          split
          · exact hround
          · exact hround
          · split_ifs
            · exact hround
            · exact (List.forall_mem_append.trans (and_congr hround (ih _ _ _ _))).trans
                List.forall_mem_append.symm
    · rw [if_neg hmore]
      simp

/-- The first pull of an element that is larger than the buffer. -/
theorem tracedRead_large {n : Nat} (hlarge : stageSize < size) (hn : 0 < n) (buf : Nat → UInt8)
    (s : Ends σ τ) : Event.pull size ∈ (tracedRead pull push buf size n s).2 := by
  have hbatch : (if n < batchMax size then n else batchMax size) = 1 := by
    rw [batchMax, if_pos (Nat.div_eq_of_lt hlarge), if_neg (by omega)]
  rw [tracedRead, tracedCopyLoop, if_pos hn]
  dsimp only
  rw [hbatch, Nat.mul_one]
  split
  · exact List.mem_cons_self
  · split_ifs
    · exact List.mem_cons_self
    · exact List.mem_cons_self
    · split
      · exact List.mem_cons_self
      · exact List.mem_cons_self
      · split_ifs
        · exact List.mem_cons_self
        · exact List.mem_cons_self

end Events

section Bounds

variable {pull : Pull σ} {push : Push τ} {size : Nat}

/-- The bound of the inner loop is enough, and no more is pushed than was pulled. -/
theorem pushLoop_returns (size : Nat) (bounded : PushBounded push)
    (hanswers : ∀ s src size n e, push s src size n e ≠ .error .fuel) (buf : Nat → UInt8)
    {got : Nat} (hgot : got < 2 ^ 32) (fuel pushed : Nat) (hle : pushed ≤ got)
    (hfuel : got < pushed + fuel) (dest : τ) (e : ErrorObject) :
    pushLoop push buf size got fuel pushed dest e ≠ .error .fuel ∧
      ∀ k dest' e', pushLoop push buf size got fuel pushed dest e = .ok (.count k, dest', e') →
        k ≤ got := by
  induction fuel generalizing pushed dest e with
  | zero => omega
  | succ fuel ih =>
    rw [pushLoop]
    by_cases hmore : pushed < got
    · rw [if_pos hmore]
      dsimp only
      cases hpush : push dest (load buf (u32 (pushed * size)) (stageSize - u32 (pushed * size)))
        size (got - pushed) e with
      | error fault =>
        rw [error_bind]
        exact ⟨fun h => hanswers _ _ _ _ _ (by rw [hpush, Except.error.inj h]), by simp⟩
      | ok answer =>
        obtain ⟨w, dest', e'⟩ := answer
        rw [ok_bind]
        dsimp only
        have hw := bounded _ _ _ _ _ _ _ _ hpush
        split_ifs with hneg hzero
        · simp
        · simp only [ne_eq, reduceCtorEq, not_false_eq_true, true_and]
          intro k _ _ heq
          obtain ⟨hk, -⟩ := ok_pair_inj heq
          cases hk
          exact hle
        · rw [show u32 (pushed + w.toNat) = pushed + w.toNat from u32_of_lt (by omega)]
          exact ih (pushed + w.toNat) (by omega) (by omega) dest' e'
    · rw [if_neg hmore]
      simp only [ne_eq, reduceCtorEq, not_false_eq_true, true_and]
      intro k _ _ heq
      obtain ⟨hk, -⟩ := ok_pair_inj heq
      cases hk
      exact hle

/-- The bound of the outer loop is enough for streams that return. -/
theorem copyLoop_returns (hpull : PullBounded pull) (hpush : PushBounded push)
    (hpulls : ∀ s room size n e, pull s room size n e ≠ .error .fuel)
    (hpushes : ∀ s src size n e, push s src size n e ≠ .error .fuel)
    (k fuel total remaining : Nat) (hlt : remaining < 2 ^ 32) (hfuel : remaining < fuel)
    (buf : Nat → UInt8) (s : Ends σ τ) :
    copyLoop pull push size k fuel total remaining buf s ≠ .error .fuel := by
  induction fuel generalizing total remaining buf s with
  | zero => omega
  | succ fuel ih =>
    rw [copyLoop]
    by_cases hmore : 0 < remaining
    · obtain ⟨batch, hbatch⟩ : ∃ batch, (if remaining < k then remaining else k) = batch :=
        ⟨_, rfl⟩
      have hle : batch ≤ remaining := by
        rw [← hbatch]
        split <;> omega
      rw [if_pos hmore]
      dsimp only
      rw [hbatch]
      cases hanswer : pull s.src stageSize size batch s.e with
      | error fault =>
        rw [error_bind]
        exact fun h => hpulls _ _ _ _ _ (by rw [hanswer, Except.error.inj h])
      | ok answer =>
        obtain ⟨got, bytes, src, e⟩ := answer
        obtain ⟨-, hgot⟩ := hpull _ _ _ _ _ _ _ _ _ hanswer
        rw [ok_bind]
        dsimp only
        split_ifs with hneg hzero
        · simp
        · simp
        · obtain ⟨hreturns, hcount⟩ := pushLoop_returns size hpush hpushes
            (store buf 0 bytes) (show got.toNat < 2 ^ 32 by omega) (got.toNat + 1) 0
            (Nat.zero_le _) (by omega) s.dest e
          cases hinner : pushLoop push (store buf 0 bytes) size got.toNat (got.toNat + 1) 0
            s.dest e with
          | error fault =>
            rw [error_bind]
            exact fun h => hreturns (by rw [hinner, Except.error.inj h])
          | ok out =>
            obtain ⟨out, dest, e'⟩ := out
            rw [ok_bind]
            cases out with
            | failed code => simp
            | count pushed =>
              dsimp only
              have hpushed := hcount pushed dest e' hinner
              split_ifs with hshort
              · simp
              · rw [sub32_of_le (by omega) hlt]
                exact ih _ _ (by omega) (by omega) _ _
    · rw [if_neg hmore]
      simp

end Bounds

/-! ## The streams of the library -/

def streamSinkPush : Push Unit := fun s _ _ n e => .ok (asI32 n, s, e)

def streamSinkOps : StreamOps Unit := ⟨none, some streamSinkPush⟩

theorem streamSinkPush_bounded : PushBounded streamSinkPush := by
  intro s src size n e r s' e' hpush
  obtain ⟨rfl, -, -⟩ := ok_triple_inj hpush
  exact asI32_le n

theorem streamIbufPull_bounded : PullBounded streamIbufPull := by
  intro s room size n e r bytes s' e' hpull
  have hnext : nextBytes s.size s.pos size n ≤ size * n :=
    le_trans (Nat.min_le_right _ _) (u32_le _)
  rw [streamIbufPull] at hpull
  generalize nextBytes s.size s.pos size n = next at hpull hnext
  by_cases hzero : next = 0
  · rw [if_pos hzero] at hpull
    cases hpull
    exact ⟨Nat.zero_le _, Int.natCast_nonneg n⟩
  · rw [if_neg hzero] at hpull
    obtain ⟨_, -, hpull⟩ := bind_eq_ok.mp hpull
    obtain ⟨_, -, hpull⟩ := bind_eq_ok.mp hpull
    obtain ⟨k, hcount, hpull⟩ := bind_eq_ok.mp hpull
    obtain ⟨_, -, hcount⟩ := bind_eq_ok.mp hcount
    obtain ⟨hr, hbytes, -⟩ := ok_triple_inj hpull
    rw [← hr, ← hbytes, ← Except.ok.inj hcount]
    refine ⟨by rw [length_load]; exact hnext, le_trans (asI32_le _) ?_⟩
    exact_mod_cast Nat.div_le_of_le_mul hnext

/-! ## The bounds of the buffer -/

section Buffer

variable {pull : Pull σ} {push : Push τ} {destOps : StreamOps τ} {srcOps : StreamOps σ}
  {size : Nat}

theorem staging_buffer_iff (hdest : destOps.push = some push) (hsrc : srcOps.pull = some pull)
    (hpull : PullBounded pull) (hpush : PushBounded push) (hsize : 0 < size) (n : Nat)
    (buf : Nat → UInt8) (s : Ends σ τ) :
    streamRead destOps srcOps buf size n s = (tracedRead pull push buf size n s).1 ∧
    ((∀ event ∈ (tracedRead pull push buf size n s).2, event.Inside) ↔
      (n = 0 ∨ size ≤ stageSize) ∧
        ∀ event ∈ (tracedRead pull push buf size n s).2, event.Served size) := by
  refine ⟨tracedRead_fst hdest hsrc hsize buf n s, ?_⟩
  by_cases hle : size ≤ stageSize
  · exact (copyEvents_inside hpull hpush hsize hle _ _ _ _ _).trans
      ⟨fun h => ⟨.inr hle, h⟩, fun h => h.2⟩
  · by_cases hn : n = 0
    · subst hn
      simp [tracedRead, tracedCopyLoop]
    · refine iff_of_false (fun h => hle ?_) (fun h => h.1.elim hn hle)
      exact h _ (tracedRead_large (by omega) (by omega) buf s)

/-- With streams that return, the bounds of both loops are enough. -/
theorem streamRead_returns (hdest : destOps.push = some push) (hsrc : srcOps.pull = some pull)
    (hpull : PullBounded pull) (hpush : PushBounded push) (hsize : 0 < size)
    (hpulls : ∀ s room size n e, pull s room size n e ≠ .error .fuel)
    (hpushes : ∀ s src size n e, push s src size n e ≠ .error .fuel) {n : Nat} (hn : n < 2 ^ 32)
    (buf : Nat → UInt8) (s : Ends σ τ) :
    streamRead destOps srcOps buf size n s ≠ .error .fuel := by
  rw [streamRead, hdest, hsrc, access_pos hsize]
  exact copyLoop_returns hpull hpush hpulls hpushes _ _ _ _ hn (Nat.lt_succ_self n) buf s

end Buffer

/-- A source of `size` zero bytes. -/
def zeros (size : Nat) : Ends IBuf Unit := ⟨streamIbufInit (fun _ => 0) size, (), errorCreate⟩

theorem staging_buffer_small :
    streamRead streamSinkOps streamIbufOps (fun _ => 0) 2 3 (zeros 5) =
        (tracedRead streamIbufPull streamSinkPush (fun _ => 0) 2 3 (zeros 5)).1 ∧
    ((∀ event ∈ (tracedRead streamIbufPull streamSinkPush (fun _ => 0) 2 3 (zeros 5)).2,
        event.Inside) ↔
      (3 = 0 ∨ 2 ≤ stageSize) ∧
        ∀ event ∈ (tracedRead streamIbufPull streamSinkPush (fun _ => 0) 2 3 (zeros 5)).2,
          event.Served 2) :=
  staging_buffer_iff rfl rfl streamIbufPull_bounded streamSinkPush_bounded (by decide) 3
    (fun _ => 0) (zeros 5)

/-- One element of 5000 bytes is asked for in one piece. -/
theorem staging_buffer_overrun :
    PullBounded streamIbufPull ∧ PushBounded streamSinkPush ∧
    Event.pull 5000 ∈
      (tracedRead streamIbufPull streamSinkPush (fun _ => 0) 5000 1 (zeros 5000)).2 ∧
    ¬ ∀ event ∈ (tracedRead streamIbufPull streamSinkPush (fun _ => 0) 5000 1 (zeros 5000)).2,
      event.Inside := by
  have hlarge : Event.pull 5000 ∈
      (tracedRead streamIbufPull streamSinkPush (fun _ => 0) 5000 1 (zeros 5000)).2 :=
    tracedRead_large (by decide) (by decide) _ _
  have hout : ¬ 5000 ≤ stageSize := by decide
  exact ⟨streamIbufPull_bounded, streamSinkPush_bounded, hlarge, fun h => hout (h _ hlarge)⟩

end StreamStaging
