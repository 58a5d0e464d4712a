import CSpecx.Streams

/-!
# Copying between streams

`stream_read` pulls batches of elements into a buffer of 4096 bytes and pushes
them out again. What a push does not take is not handed back to the source.
-/

namespace StreamCopies

open CExec Errors CellMemory Streams

/-- `sizeof (buf)`. -/
def stageSize : Nat := 4096

variable {σ τ : Type}

/-- The two streams and the error object. -/
structure Ends (σ τ : Type) where
  src : σ
  dest : τ
  e : ErrorObject

/-- How the inner loop ends: with the return of a code, or behind `pushed` elements. -/
inductive Pushed where
  | failed (code : Int)
  | count (pushed : Nat)

/-- The inner loop. -/
def pushLoop (push : τ → List UInt8 → Nat → Nat → ErrorObject → Outcome (Int × τ × ErrorObject))
    (buf : Nat → UInt8) (size got : Nat) :
    Nat → Nat → τ → ErrorObject → Outcome (Pushed × τ × ErrorObject)
  | 0, _, _, _ => .error .fuel
  | fuel + 1, pushed, dest, e =>
    if pushed < got then do
      let o := u32 (pushed * size)
      let (w, dest, e) ← push dest (load buf o (stageSize - o)) size (got - pushed) e
      if w < 0 then .ok (.failed w, dest, e)
      else if w = 0 then .ok (.count pushed, dest, e)
      else pushLoop push buf size got fuel (u32 (pushed + w.toNat)) dest e
    else .ok (.count pushed, dest, e)

/-- The outer loop; the streams have these functions. -/
def copyLoop (pull : σ → Nat → Nat → Nat → ErrorObject →
      Outcome (Int × List UInt8 × σ × ErrorObject))
    (push : τ → List UInt8 → Nat → Nat → ErrorObject → Outcome (Int × τ × ErrorObject))
    (size batchMax : Nat) :
    Nat → Nat → Nat → (Nat → UInt8) → Ends σ τ → Outcome (Int × Ends σ τ)
  | 0, _, _, _, _ => .error .fuel
  | fuel + 1, total, remaining, buf, s =>
    if 0 < remaining then do
      let batch := if remaining < batchMax then remaining else batchMax
      let (got, bytes, src, e) ← pull s.src stageSize size batch s.e
      if got < 0 then .ok (got, ⟨src, s.dest, e⟩)
      else if got = 0 then .ok (asI32 total, ⟨src, s.dest, e⟩)
      else do
        let buf := store buf 0 bytes
        let (out, dest, e) ← pushLoop push buf size got.toNat (got.toNat + 1) 0 s.dest e
        match out with
        | .failed code => .ok (code, ⟨src, dest, e⟩)
        | .count pushed =>
          if pushed < got.toNat then .ok (asI32 (u32 (total + pushed)), ⟨src, dest, e⟩)
          else
            copyLoop pull push size batchMax fuel (u32 (total + pushed)) (sub32 remaining pushed)
              buf ⟨src, dest, e⟩
    else .ok (asI32 total, s)

/-- `sizeof (buf) / size`, and one when that is zero. -/
def batchMax (size : Nat) : Nat := if stageSize / size = 0 then 1 else stageSize / size

/-- `buf` is what the staging buffer holds before the first pull. -/
def streamRead (destOps : StreamOps τ) (srcOps : StreamOps σ) (buf : Nat → UInt8) (size n : Nat)
    (s : Ends σ τ) : Outcome (Int × Ends σ τ) := do
  let push ← nonNull destOps.push
  let pull ← nonNull srcOps.pull
  access (0 < size)
  copyLoop pull push size (batchMax size) (n + 1) 0 n buf s

/-! ## From one buffer to another -/

/-- A whole number of elements is left in the source and in the destination. -/
structure Aligned (size : Nat) (s : Ends IBuf OBuf) : Prop where
  src_le : s.src.pos ≤ s.src.size
  src_lt : s.src.size < 2 ^ 32
  dest_le : s.dest.pos ≤ s.dest.cap
  dest_lt : s.dest.cap < 2 ^ 32
  src_dvd : size ∣ s.src.size - s.src.pos
  dest_dvd : size ∣ s.dest.cap - s.dest.pos

/-- The elements left in the source. -/
def available (size : Nat) (s : Ends IBuf OBuf) : Nat := (s.src.size - s.src.pos) / size

/-- The elements that the destination has room for. -/
def vacant (size : Nat) (s : Ends IBuf OBuf) : Nat := (s.dest.cap - s.dest.pos) / size

section Steps

variable {size n : Nat} {s : Ends IBuf OBuf} {e : ErrorObject}

theorem batchMax_mul_le (hsize : 0 < size) (hle : size ≤ stageSize) :
    batchMax size * size ≤ stageSize ∧ 0 < batchMax size := by
  have hpos : 0 < stageSize / size := Nat.div_pos hle hsize
  rw [batchMax, if_neg (by omega)]
  exact ⟨Nat.div_mul_le_self _ _, hpos⟩

/-- A pull takes `min n` of the elements that are left. -/
theorem pull_whole {src : IBuf} (hpos : src.pos ≤ src.size) (hlt : src.size < 2 ^ 32)
    (hsize : 0 < size) (hdvd : size ∣ src.size - src.pos) (hn : n * size ≤ stageSize) :
    ∃ got src', got = min n ((src.size - src.pos) / size) ∧
      streamIbufPull src stageSize size n e =
        .ok (got, load src.buf src.pos (got * size), src', e) ∧
      src'.pos = src.pos + got * size ∧ src'.buf = src.buf ∧ src'.size = src.size := by
  obtain ⟨d, hd⟩ := hdvd
  have hdiv : (src.size - src.pos) / size = d := by rw [hd, Nat.mul_div_cancel_left _ hsize]
  have hnext : min (src.size - src.pos) (size * n) = size * min n d := by
    rw [hd, Nat.min_comm, Nat.mul_min_mul_left]
  have hstage : stageSize = 4096 := rfl
  have hcomm := Nat.mul_comm n size
  obtain ⟨src', hpull, hmoved, hbuf, hsame⟩ := streamIbufPull_eq (e := e) hpos hlt
    (show size * n < 2 ^ 32 by omega) (show size * n ≤ stageSize by omega) hnext.symm
  have hgot : min n d ≤ n := Nat.min_le_left n d
  have hle : min n d ≤ size * min n d := Nat.le_mul_of_pos_left _ hsize
  have hcount : size * min n d / size = min n d := Nat.mul_div_cancel_left _ hsize
  have hmul : size * min n d ≤ size * n := Nat.mul_le_mul_left size hgot
  rw [hcount, asI32_of_lt (by omega), Nat.mul_comm size] at hpull
  rw [Nat.mul_comm size] at hmoved
  exact ⟨min n d, src', by rw [hdiv], hpull, hmoved, hbuf, hsame⟩

/-- A push stores as many of the elements as there is room for. -/
theorem push_whole {dest : OBuf} (src : List UInt8) (hpos : dest.pos ≤ dest.cap)
    (hlt : dest.cap < 2 ^ 32) (hsize : 0 < size) (hdvd : size ∣ dest.cap - dest.pos)
    (hn : n * size ≤ stageSize) (hsrc : n * size ≤ src.length) :
    ∃ put dest', put = min n ((dest.cap - dest.pos) / size) ∧
      streamObufPush dest src size n e = .ok (put, dest', e) ∧
      dest'.pos = dest.pos + put * size ∧
      dest'.buf = store dest.buf dest.pos (src.take (put * size)) ∧ dest'.cap = dest.cap := by
  obtain ⟨d, hd⟩ := hdvd
  have hdiv : (dest.cap - dest.pos) / size = d := by rw [hd, Nat.mul_div_cancel_left _ hsize]
  have hnext : min (dest.cap - dest.pos) (size * n) = size * min n d := by
    rw [hd, Nat.min_comm, Nat.mul_min_mul_left]
  have hstage : stageSize = 4096 := rfl
  have hcomm := Nat.mul_comm n size
  obtain ⟨dest', hpush, hmoved, hbuf, hsame⟩ := streamObufPush_eq (e := e) hpos hlt
    (show size * n < 2 ^ 32 by omega) (show size * n ≤ src.length by omega) hnext.symm
  have hle : min n d ≤ size * min n d := Nat.le_mul_of_pos_left _ hsize
  have hcount : size * min n d / size = min n d := Nat.mul_div_cancel_left _ hsize
  have hmul : size * min n d ≤ size * n := Nat.mul_le_mul_left size (Nat.min_le_left n d)
  rw [hcount, asI32_of_lt (by omega)] at hpush
  rw [Nat.mul_comm size] at hmoved hbuf
  exact ⟨min n d, dest', by rw [hdiv], hpush, hmoved, hbuf, hsame⟩

/-- The inner loop stores what there is room for, and stops at the first push that
takes nothing. -/
theorem pushLoop_spec {dest : OBuf} (buf : Nat → UInt8) {got : Nat}
    (hpos : dest.pos ≤ dest.cap) (hlt : dest.cap < 2 ^ 32) (hsize : 0 < size)
    (hdvd : size ∣ dest.cap - dest.pos) (hmore : 0 < got) (hgot : got * size ≤ stageSize) :
    ∃ put dest', put = min got ((dest.cap - dest.pos) / size) ∧
      pushLoop streamObufPush buf size got (got + 1) 0 dest e = .ok (.count put, dest', e) ∧
      dest'.pos = dest.pos + put * size ∧
      dest'.buf = store dest.buf dest.pos (load buf 0 (put * size)) ∧ dest'.cap = dest.cap := by
  have hstage : stageSize = 4096 := rfl
  have hlast : got ≤ got * size := Nat.le_mul_of_pos_right _ hsize
  have hfirst : u32 (0 * size) = 0 := by
    rw [Nat.zero_mul]
    rfl
  obtain ⟨put, dest₁, hput, hpush, hmoved, hbuf, hcap⟩ := push_whole (n := got) (e := e)
    (load buf 0 (stageSize - 0)) hpos hlt hsize hdvd hgot (by rw [length_load]; omega)
  have hle : put ≤ got := by omega
  have hmul : put * size ≤ got * size := Nat.mul_le_mul_right size hle
  rw [take_load, Nat.min_eq_left (by omega)] at hbuf
  have hneg : ¬ (put : Int) < 0 := by omega
  refine ⟨put, ?_⟩
  rw [pushLoop, if_pos hmore, hfirst]
  dsimp only
  rw [Nat.sub_zero got, hpush, ok_bind]
  dsimp only
  rw [if_neg hneg]
  by_cases hzero : put = 0
  · rw [if_pos (by omega)]
    exact ⟨dest₁, hput, by rw [hzero], hmoved, hbuf, hcap⟩
  · obtain ⟨fuel, rfl⟩ : ∃ fuel, got = fuel + 1 := ⟨got - 1, by omega⟩
    have hnext : u32 (0 + (put : Int).toNat) = put := by
      rw [Int.toNat_natCast, Nat.zero_add, u32_of_lt (by omega)]
    rw [if_neg (by omega), hnext, pushLoop]
    by_cases hall : put < fuel + 1
    · -- The destination is full, and the second push returns zero.
      obtain ⟨d, hd⟩ := hdvd
      have hroom : put = d := by
        rw [hd, Nat.mul_div_cancel_left _ hsize] at hput
        omega
      have hfull : dest₁.cap - dest₁.pos = 0 := by
        rw [hcap, hmoved, hroom, Nat.mul_comm]
        omega
      have hoffset : u32 (put * size) = put * size := u32_of_lt (by omega)
      have hrest : (fuel + 1 - put) * size = (fuel + 1) * size - put * size := Nat.sub_mul _ _ _
      have hinside : dest₁.pos ≤ dest₁.cap := by
        rw [hcap, hmoved, hroom, Nat.mul_comm]
        omega
      obtain ⟨none, dest₂, hnone, hpush₂, hmoved₂, hbuf₂, hcap₂⟩ := push_whole
        (n := fuel + 1 - put) (e := e) (load buf (put * size) (stageSize - put * size))
        hinside (by rw [hcap]; exact hlt) hsize (by rw [hfull]; exact Nat.dvd_zero size)
        (by omega) (by rw [length_load]; omega)
      have hnone : none = 0 := by
        rw [hfull, Nat.zero_div] at hnone
        omega
      rw [hnone, Nat.zero_mul] at hmoved₂ hbuf₂
      rw [List.take_zero, store_nil] at hbuf₂
      rw [hnone] at hpush₂
      rw [if_pos hall, hoffset]
      dsimp only
      rw [hpush₂, ok_bind]
      exact ⟨dest₂, hput, rfl, hmoved₂.trans hmoved, hbuf₂.trans hbuf, hcap₂.trans hcap⟩
    · rw [if_neg hall]
      exact ⟨dest₁, hput, rfl, hmoved, hbuf, hcap⟩

end Steps

/-- The first `m` elements have gone from the source to the destination. -/
structure Copied (size m : Nat) (s s' : Ends IBuf OBuf) : Prop where
  src_buf : s'.src.buf = s.src.buf
  src_size : s'.src.size = s.src.size
  dest_cap : s'.dest.cap = s.dest.cap
  dest_pos : s'.dest.pos = s.dest.pos + m * size
  dest_buf : s'.dest.buf = store s.dest.buf s.dest.pos (load s.src.buf s.src.pos (m * size))
  e_eq : s'.e = s.e

theorem Copied.none {size : Nat} {s s' : Ends IBuf OBuf} (src_buf : s'.src.buf = s.src.buf)
    (src_size : s'.src.size = s.src.size) (dest_eq : s'.dest = s.dest) (e_eq : s'.e = s.e) :
    Copied size 0 s s' := by
  refine ⟨src_buf, src_size, by rw [dest_eq], by rw [dest_eq, Nat.zero_mul, Nat.add_zero], ?_, e_eq⟩
  rw [dest_eq, Nat.zero_mul, load_zero, store_nil]

theorem Copied.trans {size m k : Nat} {s s₁ s' : Ends IBuf OBuf} (first : Copied size m s s₁)
    (rest : Copied size k s₁ s') (hsrc : s₁.src.pos = s.src.pos + m * size) :
    Copied size (m + k) s s' := by
  refine ⟨rest.src_buf.trans first.src_buf, rest.src_size.trans first.src_size,
    rest.dest_cap.trans first.dest_cap, ?_, ?_, rest.e_eq.trans first.e_eq⟩
  · rw [rest.dest_pos, first.dest_pos, Nat.add_mul, Nat.add_assoc]
  · rw [rest.dest_buf, first.dest_buf, first.dest_pos, first.src_buf, hsrc,
      store_append_of_length length_load, ← load_add, ← Nat.add_mul]

section Loop

variable {size : Nat} {s : Ends IBuf OBuf}

/-- What is left behind the first elements. -/
theorem Aligned.after {put : Nat} (aligned : Aligned size s) (hsize : 0 < size)
    {s' : Ends IBuf OBuf}
    (copied : Copied size put s s') (hsrc : s'.src.pos = s.src.pos + put * size)
    (havailable : put ≤ available size s) (hvacant : put ≤ vacant size s) :
    Aligned size s' ∧ available size s' = available size s - put ∧
      vacant size s' = vacant size s - put := by
  have hleft : put * size ≤ s.src.size - s.src.pos := (Nat.le_div_iff_mul_le hsize).mp havailable
  have hroom : put * size ≤ s.dest.cap - s.dest.pos := (Nat.le_div_iff_mul_le hsize).mp hvacant
  have hsrc_le := aligned.src_le
  have hdest_le := aligned.dest_le
  have hsrc_left : s'.src.size - s'.src.pos = s.src.size - s.src.pos - put * size := by
    rw [copied.src_size, hsrc]
    omega
  have hdest_left : s'.dest.cap - s'.dest.pos = s.dest.cap - s.dest.pos - put * size := by
    rw [copied.dest_cap, copied.dest_pos]
    omega
  refine ⟨⟨?_, ?_, ?_, ?_, ?_, ?_⟩, ?_, ?_⟩
  · rw [copied.src_size, hsrc]
    omega
  · rw [copied.src_size]
    exact aligned.src_lt
  · rw [copied.dest_cap, copied.dest_pos]
    omega
  · rw [copied.dest_cap]
    exact aligned.dest_lt
  · rw [hsrc_left]
    exact Nat.dvd_sub aligned.src_dvd (Nat.dvd_mul_left size put)
  · rw [hdest_left]
    exact Nat.dvd_sub aligned.dest_dvd (Nat.dvd_mul_left size put)
  · rw [available, hsrc_left, Nat.mul_comm, Nat.sub_mul_div, available]
  · rw [vacant, hdest_left, Nat.mul_comm, Nat.sub_mul_div, vacant]

/-- A batch that was pulled is stored as far as there is room. -/
theorem pushLoop_batch (hsize : 0 < size) (aligned : Aligned size s) {got : Nat} {src' : IBuf}
    (buf : Nat → UInt8) (hmore : 0 < got) (hgot : got * size ≤ stageSize)
    (hbuf : src'.buf = s.src.buf) (hsame : src'.size = s.src.size) :
    ∃ put dest', put = min got (vacant size s) ∧
      pushLoop streamObufPush (store buf 0 (load s.src.buf s.src.pos (got * size))) size got
        (got + 1) 0 s.dest s.e = .ok (.count put, dest', s.e) ∧
      Copied size put s ⟨src', dest', s.e⟩ := by
  obtain ⟨put, dest', hput, hpush, hdest, hdbuf, hdcap⟩ := pushLoop_spec (e := s.e)
    (store buf 0 (load s.src.buf s.src.pos (got * size))) aligned.dest_le
    aligned.dest_lt hsize aligned.dest_dvd hmore hgot
  have hle : put ≤ got := by omega
  have hstaged : load (store buf 0 (load s.src.buf s.src.pos (got * size))) 0 (put * size) =
      load s.src.buf s.src.pos (put * size) := by
    have hself : load (store buf 0 (load s.src.buf s.src.pos (got * size))) 0 (got * size) =
        load s.src.buf s.src.pos (got * size) := load_store_of_length length_load
    have hshort : min (put * size) (got * size) = put * size :=
      Nat.min_eq_left (Nat.mul_le_mul_right size hle)
    have htake := congrArg (List.take (put * size)) hself
    rwa [take_load, take_load, hshort] at htake
  rw [hstaged] at hdbuf
  exact ⟨put, dest', hput, hpush, hbuf, hsame, hdcap, hdest, hdbuf, rfl⟩

theorem min_rest {a b k : Nat} (ha : k ≤ a) (hb : k ≤ b) :
    min a b = k + min (a - k) (b - k) := by omega

theorem min_split {a b c k : Nat} (ha : k ≤ a) (hb : k ≤ b) (hc : k ≤ c) :
    min a (min b c) = k + min (a - k) (min (b - k) (c - k)) := by omega

/-- The loop copies what the source has and the destination takes. When the destination
is full first, a batch has been pulled that is not copied. -/
theorem copyLoop_spec (hsize : 0 < size) (hle : size ≤ stageSize) (fuel total remaining : Nat)
    (buf : Nat → UInt8) (aligned : Aligned size s) (enough : remaining < fuel)
    (hsmall : total + remaining < 2 ^ 32) :
    ∃ s', copyLoop streamIbufPull streamObufPush size (batchMax size) fuel total remaining buf s =
        .ok (asI32 (total + min remaining (min (available size s) (vacant size s)) : Nat), s') ∧
      Copied size (min remaining (min (available size s) (vacant size s))) s s' ∧
      (min remaining (available size s) ≤ vacant size s →
        s'.src.pos = s.src.pos + min remaining (available size s) * size) ∧
      (vacant size s < min remaining (available size s) →
        s.src.pos + vacant size s * size < s'.src.pos) := by
  induction fuel generalizing total remaining buf s with
  | zero => omega
  | succ fuel ih =>
    obtain ⟨hstage, hbatch⟩ := batchMax_mul_le hsize hle
    rw [copyLoop]
    by_cases hrem : 0 < remaining
    · have hmin : (if remaining < batchMax size then remaining else batchMax size) =
          min remaining (batchMax size) := by
        split <;> omega
      have hasked : min remaining (batchMax size) * size ≤ stageSize :=
        le_trans (Nat.mul_le_mul_right size (Nat.min_le_right _ _)) hstage
      obtain ⟨got, src', hgot, hpull, hmoved, hbuf, hsame⟩ := pull_whole (e := s.e) aligned.src_le
        aligned.src_lt hsize aligned.src_dvd hasked
      have havailable : got = min (min remaining (batchMax size)) (available size s) := hgot
      have hneg : ¬ (got : Int) < 0 := by omega
      rw [if_pos hrem, hmin]
      dsimp only
      rw [hpull, ok_bind]
      dsimp only
      rw [if_neg hneg]
      by_cases hzero : got = 0
      · have hnone : available size s = 0 := by omega
        rw [if_pos (by omega), hnone, Nat.zero_min, Nat.min_zero, Nat.add_zero, Nat.zero_mul]
        rw [hzero, Nat.zero_mul] at hmoved
        exact ⟨_, rfl, .none hbuf hsame rfl rfl, fun _ => hmoved, fun h => absurd h (by omega)⟩
      · have hgot_le : got * size ≤ stageSize :=
          le_trans (Nat.mul_le_mul_right size (by omega)) hasked
        obtain ⟨put, dest', hput, hpush, copied⟩ := pushLoop_batch hsize aligned buf
          (Nat.pos_of_ne_zero hzero) hgot_le hbuf hsame
        have hput_le : put ≤ remaining := by omega
        have htotal : u32 (total + put) = total + put := u32_of_lt (by omega)
        rw [if_neg (by omega), Int.toNat_natCast, hpush, ok_bind]
        dsimp only
        rw [htotal]
        by_cases hshort : put < got
        · have hcount : min remaining (min (available size s) (vacant size s)) = put := by omega
          rw [if_pos hshort, hcount]
          refine ⟨_, rfl, copied, fun h => absurd h (by omega), fun _ => ?_⟩
          have hmul : (vacant size s + 1) * size ≤ got * size :=
            Nat.mul_le_mul_right size (by omega)
          rw [Nat.succ_mul] at hmul
          show _ < src'.pos
          omega
        · have hall : put = got := by omega
          have hsrc : src'.pos = s.src.pos + put * size := by rw [hall, hmoved]
          have hput_av : put ≤ available size s := by omega
          have hput_va : put ≤ vacant size s := by omega
          obtain ⟨aligned', hav, hva⟩ := aligned.after hsize copied hsrc hput_av hput_va
          have hsub : sub32 remaining put = remaining - put := sub32_of_le (by omega) (by omega)
          obtain ⟨s', hrun, copied', hexact, hlost⟩ := ih (total + put) (remaining - put)
            (store buf 0 (load s.src.buf s.src.pos (got * size))) aligned' (by omega) (by omega)
          rw [hav, hva] at hrun copied' hexact hlost
          have hcount := min_split hput_le hput_av hput_va
          have hrest := min_rest hput_le hput_av
          rw [if_neg hshort, hsub, hcount, ← Nat.add_assoc]
          refine ⟨s', hrun, copied.trans copied' hsrc, fun h => ?_, fun h => ?_⟩
          · rw [hrest] at h ⊢
            have hpulled := hexact (Nat.le_sub_of_add_le' h)
            rw [hpulled, Nat.add_mul]
            show src'.pos + _ = _
            omega
          · rw [hrest] at h
            have hpulled := hlost (Nat.sub_lt_left_of_lt_add hput_va h)
            have hsplit : vacant size s * size = put * size + (vacant size s - put) * size := by
              rw [← Nat.add_mul, Nat.add_sub_cancel' (by omega)]
            have hpulled : src'.pos + (vacant size s - put) * size < s'.src.pos := hpulled
            omega
    · have hnone : remaining = 0 := by omega
      rw [if_neg hrem, hnone, Nat.zero_min, Nat.zero_min, Nat.add_zero, Nat.zero_mul]
      exact ⟨s, rfl, .none rfl rfl rfl rfl, fun _ => rfl, fun h => absurd h (by omega)⟩

/-- A call of `stream_read` is the loop. -/
theorem streamRead_eq (hsize : 0 < size) (buf : Nat → UInt8) (n : Nat) :
    streamRead streamObufOps streamIbufOps buf size n s =
      copyLoop streamIbufPull streamObufPush size (batchMax size) (n + 1) 0 n buf s := by
  have haccess : access (0 < size) = .ok () := access_pos hsize
  show (access (0 < size) >>= fun _ => _) = _
  rw [haccess, ok_bind]

end Loop

/-! ## What is lost -/

/-- The least of `n`, the elements in the source and the room in the destination. -/
def transferable (size n : Nat) (s : Ends IBuf OBuf) : Nat :=
  min n (min (available size s) (vacant size s))

/-- A later read from the source starts with element `m`. -/
def ContinuesAt (size m : Nat) (s s' : Ends IBuf OBuf) : Prop :=
  ∀ (dest : OBuf) (buf : Nat → UInt8) (n : Nat), dest.pos ≤ dest.cap → dest.cap < 2 ^ 32 →
    size ∣ dest.cap - dest.pos → n < 2 ^ 32 →
    ∃ r s'' k,
      streamRead streamObufOps streamIbufOps buf size n ⟨s'.src, dest, s'.e⟩ = .ok (r, s'') ∧
      k = min n (min (available size s - m) ((dest.cap - dest.pos) / size)) ∧
      s''.dest.pos = dest.pos + k * size ∧
      load s''.dest.buf dest.pos (k * size) = load s.src.buf (s.src.pos + m * size) (k * size)

/-- The elements reported are all that could be transferred, the bytes consumed are
the bytes appended, and the source continues behind them. -/
def Lossless (size n : Nat) (s : Ends IBuf OBuf) (out : Outcome (Int × Ends IBuf OBuf)) : Prop :=
  ∃ s', out = .ok ((transferable size n s : Int), s') ∧
    s'.src.pos = s.src.pos + transferable size n s * size ∧
    s'.dest.pos = s.dest.pos + transferable size n s * size ∧
    load s'.dest.buf s.dest.pos (transferable size n s * size) =
      load s.src.buf s.src.pos (transferable size n s * size) ∧
    ContinuesAt size (transferable size n s) s s'

section Lossless

variable {size n : Nat} {s s' : Ends IBuf OBuf}

theorem Copied.load_dest {m : Nat} (copied : Copied size m s s') :
    load s'.dest.buf s.dest.pos (m * size) = load s.src.buf s.src.pos (m * size) := by
  rw [copied.dest_buf]
  exact load_store_of_length length_load

theorem continuesAt {m : Nat} (hsize : 0 < size) (hle : size ≤ stageSize) (aligned : Aligned size s)
    (copied : Copied size m s s') (hsrc : s'.src.pos = s.src.pos + m * size)
    (havailable : m ≤ available size s) (hvacant : m ≤ vacant size s) :
    ContinuesAt size m s s' := by
  intro dest buf n hpos hcap hdvd hn
  obtain ⟨aligned', hav, -⟩ := aligned.after hsize copied hsrc havailable hvacant
  have fresh : Aligned size ⟨s'.src, dest, s'.e⟩ :=
    ⟨aligned'.src_le, aligned'.src_lt, hpos, hcap, aligned'.src_dvd, hdvd⟩
  obtain ⟨s'', hrun, copied'', -, -⟩ :=
    copyLoop_spec hsize hle (n + 1) 0 n buf fresh (by omega) (by omega)
  have hleft : available size ⟨s'.src, dest, s'.e⟩ = available size s - m := hav
  rw [hleft] at copied''
  refine ⟨_, s'', _, (streamRead_eq hsize buf n).trans hrun, rfl, copied''.dest_pos, ?_⟩
  have hload := copied''.load_dest
  dsimp only at hload
  rw [hsrc, copied.src_buf] at hload
  exact hload

/-- A copy loses nothing exactly when the destination has room for every element that
it asks of the source, and their number is a signed 32-bit integer. -/
theorem stream_read_lossless_iff (hsize : 1 ≤ size) (hle : size ≤ 4096) (aligned : Aligned size s)
    (hn : n < 2 ^ 32) (buf : Nat → UInt8) :
    Lossless size n s (streamRead streamObufOps streamIbufOps buf size n s) ↔
      min n (available size s) ≤ vacant size s ∧ min n (available size s) < 2 ^ 31 := by
  obtain ⟨s', hrun, copied, hexact, hlost⟩ :=
    copyLoop_spec hsize hle (n + 1) 0 n buf aligned (by omega) (by omega)
  have hread := (streamRead_eq hsize buf n).trans hrun
  rw [Nat.zero_add] at hread
  have hm : transferable size n s = min n (min (available size s) (vacant size s)) := rfl
  rw [← hm] at hread copied
  have hlt : transferable size n s < 2 ^ 32 := by omega
  constructor
  · rintro ⟨s'', hrun', hsrc, -, -, -⟩
    obtain ⟨hcount, rfl⟩ := ok_pair_inj (hread.symm.trans hrun')
    have hroom : min n (available size s) ≤ vacant size s := by
      by_contra hfull
      have hmore := hlost (by omega)
      have hall : transferable size n s = vacant size s := by omega
      rw [hsrc, hall] at hmore
      exact Nat.lt_irrefl _ hmore
    refine ⟨hroom, ?_⟩
    by_contra hlarge
    have hneg := asI32_neg (show 2 ^ 31 ≤ transferable size n s by omega) hlt
    omega
  · rintro ⟨hroom, hsmall⟩
    have hall : min n (available size s) = transferable size n s := by omega
    have hsrc := hexact hroom
    rw [hall] at hsrc
    rw [asI32_of_lt (by omega)] at hread
    exact ⟨s', hread, hsrc, copied.dest_pos, copied.load_dest,
      continuesAt hsize hle aligned copied hsrc (by omega) (by omega)⟩

end Lossless

/-- Six bytes in front of a destination of `cap` bytes. -/
def sixTo (cap : Nat) : Ends IBuf OBuf :=
  ⟨streamIbufInit countUp 6, streamObufInit (fun _ => 0) cap, errorCreate⟩

theorem sixTo_aligned {cap : Nat} (hcap : cap < 2 ^ 32) (hdvd : 2 ∣ cap) : Aligned 2 (sixTo cap) :=
  ⟨show 0 ≤ 6 by decide, show 6 < 2 ^ 32 by decide, Nat.zero_le cap, hcap,
    show 2 ∣ 6 - 0 by decide, hdvd⟩

theorem six_bytes_copied :
    Lossless 2 3 (sixTo 8)
      (streamRead streamObufOps streamIbufOps (fun _ => 0) 2 3 (sixTo 8)) :=
  (stream_read_lossless_iff (by decide) (by decide) (sixTo_aligned (by decide) (by decide))
    (by decide) (fun _ => 0)).mpr (by decide)

/-- Three elements for a destination of two: the third is gone from the source. -/
theorem third_element_lost :
    (streamRead streamObufOps streamIbufOps (fun _ => 0) 2 3 (sixTo 4)).map
        (fun out => (out.1, out.2.src.pos, out.2.dest.pos, load out.2.dest.buf 0 4)) =
      .ok (2, 6, 4, [0, 1, 2, 3]) ∧
    ¬ Lossless 2 3 (sixTo 4)
      (streamRead streamObufOps streamIbufOps (fun _ => 0) 2 3 (sixTo 4)) := by
  refine ⟨by decide +kernel, fun lossless => ?_⟩
  have hroom := (stream_read_lossless_iff (by decide) (by decide)
    (sixTo_aligned (by decide) (by decide)) (by decide) (fun _ => 0)).mp lossless
  exact absurd hroom (by decide)

end StreamCopies
