import CSpecx.PollingRuns

/-!
# The bounds of an echo connection

Lengths stay within capacities and capacities within allocations, as long as
no request makes one of the sums of `echo_conn_func` pass `2 ^ 32`.
-/

namespace EchoServer

open CExec Component Errors HeapBuffers Polling

structure Bounds (c : Connection) : Prop where
  rxLen : c.rxLen ≤ c.rxCap
  rxSize : c.rxCap = c.rxBuf.size
  txSent : c.txSent ≤ c.txCap
  txSize : c.txCap ≤ c.txBuf.size

/-- `Bounds` with the phase that the connection is in: new, reading a prefix,
or reading a body whose length the prefix gives. -/
structure Sound (c : Connection) : Prop extends Bounds c where
  rxSmall : c.rxCap < 2 ^ 32
  txSmall : c.txCap < 2 ^ 32
  phase : (c.rxCap = 0 ∧ c.rxBuf = .null ∧ c.txCap = 0) ∨ c.rxCap = 4 ∨
    (4 < c.rxCap ∧ 4 ≤ c.rxLen ∧ c.rxCap = 4 + msgLength c)

/-- The sums of `echo_conn_func` do not wrap. -/
structure InRange (ctx : EchoContext) (c : Connection) : Prop where
  total : Idle c → c.rxCap = 4 → c.rxLen = 4 → 4 + msgLength c < 2 ^ 32
  frame : Idle c → 4 < c.rxCap → c.rxLen = c.rxCap →
    msgLength c + ctx.plen + ctx.slen + 4 < 2 ^ 32

/-- Every allocation succeeds and no sum wraps. -/
def Fitting (ctx : EchoContext) (grants : Nat → Grant) (c : Connection) : Prop :=
  (∀ k, (grants k).granted = true) ∧ InRange ctx c

section Bytes

variable {p q : Ptr} {o n m : Nat} {xs bytes done rest : List UInt8} {c c' : Connection}
  {ctx : EchoContext} {id : Nat}

theorem plen_le (ctx : EchoContext) : ctx.plen ≤ ctx.pre.length := Nat.mod_le _ _

theorem slen_le (ctx : EchoContext) : ctx.slen ≤ ctx.suf.length := Nat.mod_le _ _

theorem length_setPrefix (n : Nat) : (setPrefix n).length = 4 := rfl

theorem decodePrefix_lt (xs : List UInt8) : decodePrefix xs < 2 ^ 32 := by
  rcases xs with _ | ⟨b₀, _ | ⟨b₁, _ | ⟨b₂, _ | ⟨b₃, xs⟩⟩⟩⟩
  · decide
  · exact Nat.two_pow_pos 32
  · exact Nat.two_pow_pos 32
  · exact Nat.two_pow_pos 32
  · have h₀ := b₀.toNat_lt
    have h₁ := b₁.toNat_lt
    have h₂ := b₂.toNat_lt
    have h₃ := b₃.toNat_lt
    simp only [decodePrefix]
    omega

theorem msgLength_lt (c : Connection) : msgLength c < 2 ^ 32 := decodePrefix_lt _

/-- The first bytes decide the length of the request. -/
theorem msgLength_congr (h : c'.rxBuf.bytes.take 4 = c.rxBuf.bytes.take 4) :
    msgLength c' = msgLength c := congrArg decodePrefix h

theorem store_bytes (hrun : p.store o xs = .ok q) :
    o + xs.length ≤ p.size ∧
      q.bytes = p.bytes.take o ++ xs ++ p.bytes.drop (o + xs.length) := by
  cases p with
  | null => cases hrun
  | dangling => cases hrun
  | block id bytes =>
    obtain ⟨u, hfits, hstore⟩ := bind_eq_ok.mp hrun
    obtain rfl := Except.ok.inj hstore
    exact ⟨access_eq_ok_iff.mp hfits, rfl⟩

/-- A store behind what has been written so far. -/
theorem store_append (id : Nat) (done rest : List UInt8) (hdone : done.length = o)
    (hxs : xs.length = n) (hfits : n ≤ rest.length) :
    (Ptr.block id (done ++ rest)).store o xs = .ok (.block id (done ++ xs ++ rest.drop n)) := by
  have hroom : o + xs.length ≤ (done ++ rest).length := by
    rw [List.length_append]
    omega
  rw [store_block hroom, ← hdone, ← hxs, List.take_left, List.drop_length_add_append]

/-- The reply is written from its start to its end. -/
theorem writeReply_eq (id : Nat) (hsmall : m + ctx.plen + ctx.slen + 4 < 2 ^ 32)
    (hrx : 4 + m ≤ q.size)
    (hblock : q.blocks ≠ []) (hsize : bytes.length = m + ctx.plen + ctx.slen + 4) :
    writeReply ctx (.block id bytes) q m n =
      .ok (.block id (setPrefix n ++ ctx.pre.take ctx.plen ++ (q.bytes.drop 4).take m ++
        ctx.suf.take ctx.slen), m + ctx.plen + ctx.slen + 4) := by
  obtain ⟨msg, hload⟩ := load_returns.mpr ⟨hblock, hrx⟩
  obtain ⟨-, -, -, hmsg⟩ := load_cases hload
  have hplen : (ctx.pre.take ctx.plen).length = ctx.plen := List.length_take_of_le (plen_le ctx)
  have hslen : (ctx.suf.take ctx.slen).length = ctx.slen := List.length_take_of_le (slen_le ctx)
  have hmlen : msg.length = m := by
    rw [hmsg, List.length_take, List.length_drop]
    have hrx : 4 + m ≤ q.bytes.length := hrx
    omega
  have h₁ : u32 (4 + ctx.plen) = 4 + ctx.plen := u32_of_lt (by omega)
  have h₂ : u32 (4 + ctx.plen + m) = 4 + ctx.plen + m := u32_of_lt (by omega)
  have h₃ : u32 (4 + ctx.plen + m + ctx.slen) = m + ctx.plen + ctx.slen + 4 := by
    rw [u32_of_lt (by omega)]
    omega
  -- each store extends the part that is written
  have s₁ : (Ptr.block id bytes).store 0 (setPrefix n) =
      .ok (.block id (setPrefix n ++ bytes.drop 4)) :=
    store_append id [] bytes rfl rfl (by omega)
  have s₂ := store_append id (setPrefix n) (bytes.drop 4) (o := 4) rfl hplen
    (by rw [List.length_drop]; omega)
  have s₃ := store_append id (setPrefix n ++ ctx.pre.take ctx.plen)
    ((bytes.drop 4).drop ctx.plen) (o := 4 + ctx.plen)
    (by rw [List.length_append, hplen, length_setPrefix]) hmlen
    (by simp only [List.length_drop]; omega)
  have s₄ := store_append id (setPrefix n ++ ctx.pre.take ctx.plen ++ msg)
    (((bytes.drop 4).drop ctx.plen).drop m) (o := 4 + ctx.plen + m)
    (by rw [List.length_append, List.length_append, hplen, length_setPrefix, hmlen]) hslen
    (by simp only [List.length_drop]; omega)
  have hend : (((bytes.drop 4).drop ctx.plen).drop m).drop ctx.slen = [] := by
    rw [List.drop_eq_nil_iff]
    simp only [List.length_drop]
    omega
  rw [hend, List.append_nil] at s₄
  simp only [writeReply, s₁, s₂, hload, h₁, h₂, h₃, s₃, s₄, ok_bind]
  rw [hmsg]

end Bytes

section Steps

variable {ctx : EchoContext} {grants : Nat → Grant} {h h' : Heap} {c c' : Connection}
  {e e' : ErrorObject} {code : Int} {r : RecvResult} {s : SendResult} {id : Nat} {fd : Int}

theorem size_pos {p : Ptr} (h : 0 < p.size) : p.blocks ≠ [] := by
  cases p with
  | null => exact absurd h (Nat.lt_irrefl 0)
  | dangling => exact absurd h (Nat.lt_irrefl 0)
  | block id bytes => exact List.cons_ne_nil _ _

theorem frameLength_eq {m : Nat} (hsmall : m + ctx.plen + ctx.slen + 4 < 2 ^ 32) :
    u32 (m + ctx.plen + ctx.slen) = m + ctx.plen + ctx.slen ∧
      frameLength ctx m = m + ctx.plen + ctx.slen + 4 := by
  have hmsg : u32 (m + ctx.plen + ctx.slen) = m + ctx.plen + ctx.slen := u32_of_lt (by omega)
  refine ⟨hmsg, ?_⟩
  unfold frameLength
  rw [hmsg, u32_of_lt hsmall]

theorem zero_small : 0 < 2 ^ 32 := Nat.two_pow_pos 32

theorem four_small : 4 < 2 ^ 32 := by decide

theorem sound_fresh : Sound (.fresh id fd) :=
  ⟨⟨le_refl 0, rfl, le_refl 0, le_refl 0⟩, zero_small, zero_small, .inl ⟨rfl, rfl, rfl⟩⟩

theorem size_resized {g : Grant} {n : Nat} : (resized g h c n).size = n := length_realloc

/-- Growing the receive buffer keeps the prefix. -/
theorem msgLength_resized {g : Grant} {n : Nat} (hsize : c.rxBuf.size = 4) (hn : 4 ≤ n) :
    msgLength { c with rxBuf := resized g h c n, rxCap := n } = msgLength c := by
  have hbytes : c.rxBuf.bytes.length = 4 := hsize
  refine msgLength_congr ?_
  have hall : c.rxBuf.bytes.take n = c.rxBuf.bytes := List.take_of_length_le (by omega)
  show (c.rxBuf.bytes.take n ++ _).take 4 = _
  rw [hall, List.take_append_of_le_length (le_of_eq hbytes.symm)]

theorem Serving.sound (serving : Serving ctx grants h c e code h' c' e') (sound : Sound c)
    (fitting : Fitting ctx grants c) : Sound c' := by
  obtain ⟨granted, inRange⟩ := fitting
  have hrxLen := sound.rxLen
  cases serving with
  | created hrx htx =>
    have hsent := sound.txSent
    refine ⟨⟨Nat.zero_le 4, (Grant.length_fill _ 4).symm, hsent, sound.txSize⟩, four_small,
      sound.txSmall, .inr (.inl rfl)⟩
  | createFailed _ _ denied => cases (granted 0).symm.trans denied
  | finished htx hsent =>
    refine ⟨⟨hrxLen, sound.rxSize, le_refl 0, Nat.zero_le _⟩, sound.rxSmall, zero_small, ?_⟩
    rcases sound.phase with ⟨-, -, hzero⟩ | hrest
    · omega
    · exact .inr hrest
  | waiting => exact sound
  | skipped hrx hlen =>
    exact ⟨⟨Nat.zero_le _, sound.rxSize, sound.txSent, sound.txSize⟩, sound.rxSmall, sound.txSmall,
      .inr (.inl hrx)⟩
  | extended idle hrx hlen hmsg id hbuf hlive hpos =>
    have hfour : c.rxLen = 4 := by omega
    have hsmall := inRange.total idle hrx hfour
    have htotal : u32 (4 + msgLength c) = 4 + msgLength c := u32_of_lt hsmall
    rw [htotal]
    have hmsg' := msgLength_resized (g := grants 0) (h := h) (n := 4 + msgLength c)
      (sound.rxSize.symm.trans hrx) (Nat.le_add_right 4 _)
    refine ⟨⟨?_, size_resized.symm, sound.txSent, sound.txSize⟩, hsmall, sound.txSmall,
      .inr (.inr ⟨?_, hlen, ?_⟩)⟩
    · show c.rxLen ≤ 4 + msgLength c
      omega
    · show 4 < 4 + msgLength c
      omega
    · exact congrArg (4 + ·) hmsg'.symm
  | extendFailed denied => cases (granted 0).symm.trans denied
  | replied idle hrx hlen id hbuf hlive tx hwrite =>
    have hsize : tx.size = frameLength ctx (msgLength c) :=
      (writeReply_blocks hwrite).2.trans (Grant.length_fill _ _)
    exact ⟨⟨Nat.zero_le 4, size_resized.symm, Nat.zero_le _, hsize.ge⟩, four_small,
      frameLength_lt ctx _, .inr (.inl rfl)⟩
  | replyFailed _ denied => cases (granted 0).symm.trans denied
  | resetFailed _ denied => cases (granted 1).symm.trans denied

theorem handleRead_sound (sound : Sound c) (hrun : handleRead r c e = .ok (code, c', e')) :
    Sound c' := by
  obtain ⟨hlt, ⟨rfl, -⟩ | ⟨got, p, -, hgot, hstore, rfl, -⟩⟩ := handleRead_cases hrun
  · exact sound
  · have hsmall := sound.rxSmall
    have hlen : u32 (c.rxLen + got.length) = c.rxLen + got.length := u32_of_lt (by omega)
    obtain ⟨hfits, hbytes⟩ := store_bytes hstore
    rw [hlen]
    refine ⟨⟨?_, sound.rxSize.trans (store_size hstore).2.symm, sound.txSent, sound.txSize⟩, hsmall,
      sound.txSmall, ?_⟩
    · show c.rxLen + got.length ≤ c.rxCap
      omega
    · rcases sound.phase with ⟨hzero, -⟩ | hbegin | ⟨hbody, hfour, hcap⟩
      · omega
      · exact .inr (.inl hbegin)
      · refine .inr (.inr ⟨hbody, Nat.le_add_right_of_le hfour, hcap.trans (congrArg (4 + ·) ?_)⟩)
        -- the prefix lies below the bytes that are stored
        refine (msgLength_congr ?_).symm
        have hbuf : c.rxBuf.bytes.length = c.rxCap := sound.rxSize.symm
        show p.bytes.take 4 = c.rxBuf.bytes.take 4
        rw [hbytes, List.append_assoc, List.take_append_of_le_length, List.take_take,
          Nat.min_eq_left hfour]
        rw [List.length_take]
        omega

theorem handleWrite_sound (sound : Sound c) (hrun : handleWrite s c e = .ok (c', e')) :
    Sound c' := by
  obtain ⟨hlt, ⟨rfl, -⟩ | ⟨n, bytes, hn, hload, rfl, -⟩⟩ := handleWrite_cases hrun
  · exact sound
  · have hsmall := sound.txSmall
    obtain ⟨-, -, -, hbytes⟩ := load_cases hload
    have hlen : bytes.length ≤ n := by
      rw [hbytes]
      exact List.length_take_le _ _
    have hsent : u32 (c.txSent + bytes.length) = c.txSent + bytes.length := u32_of_lt (by omega)
    rw [hsent]
    refine ⟨⟨sound.rxLen, sound.rxSize, ?_, sound.txSize⟩, sound.rxSmall, hsmall, ?_⟩
    · show c.txSent + bytes.length ≤ c.txCap
      omega
    · rcases sound.phase with ⟨-, -, hzero⟩ | hrest
      · omega
      · exact .inr hrest

theorem sound_keeps (ctx : EchoContext) :
    Keeps (echoActions ctx) (Fitting ctx) True Sound where
  fresh _ _ := sound_fresh
  serve _ _ _ _ _ _ _ _ sound fitting hrun := (echoConnFunc_serving hrun).sound sound fitting
  read _ _ _ _ _ _ sound hrun := handleRead_sound sound hrun
  write _ _ _ _ _ sound hrun := handleWrite_sound sound hrun
  free fails := absurd trivial fails

end Steps

section Calls

variable {ctx : EchoContext} {grants : Nat → Grant} {h h' : Heap} {c c' : Connection}
  {e e' : ErrorObject} {code : Int} {p p' q : Ptr} {m n head : Nat}

theorem block_of_size (hpos : 0 < p.size) : ∃ id, p = .block id p.bytes := by
  cases p with
  | null => exact absurd hpos (Nat.lt_irrefl 0)
  | dangling => exact absurd hpos (Nat.lt_irrefl 0)
  | block id bytes => exact ⟨id, rfl⟩

theorem createRx_returns {g : Grant} (hg : g.granted = true) :
    ∃ h' c' e', createRx g h c e = .ok (success, h', c', e') := by
  simp only [createRx, iMallocBytes_granted hg (show 0 < 4 by decide) four_small, ok_bind,
    reduceCtorEq, if_false]
  exact ⟨_, _, _, rfl⟩

theorem extendRx_returns {g : Grant} (hg : g.granted = true) (sound : Sound c) (hcap : c.rxCap = 4)
    (hsmall : 4 + msgLength c < 2 ^ 32) (live : ∀ b ∈ c.rxBuf.blocks, b ∈ h.live) :
    ∃ h' c' e', extendRx g h c e = .ok (success, h', c', e') := by
  have hsize : c.rxBuf.size = 4 := sound.rxSize.symm.trans hcap
  obtain ⟨id, hbuf⟩ := block_of_size (p := c.rxBuf) (by omega)
  have hload : c.rxBuf.load 0 4 = .ok (c.rxBuf.bytes.take 4) := by
    rw [hbuf]
    exact load_block (le_of_eq hsize.symm)
  have htotal : u32 (4 + msgLength c) = 4 + msgLength c := u32_of_lt hsmall
  have hlive : id ∈ h.live := live id (by rw [hbuf]; exact List.mem_cons_self)
  have hrealloc := iReallocRight_granted (h := h) (e := e) (m := c.rxCap)
    (n := u32 (4 + msgLength c))
    c.rxBuf.bytes hg (by omega) hlive
  rw [← hbuf] at hrealloc
  simp only [extendRx, hload, ok_bind]
  by_cases hzero : decodePrefix (c.rxBuf.bytes.take 4) = 0
  · simp only [if_pos hzero]
    exact ⟨_, _, _, rfl⟩
  · simp only [if_neg hzero]
    change ∃ h' c' e', (iReallocRight g c.rxBuf c.rxCap (u32 (4 + msgLength c)) h e >>= _) = _
    rw [hrealloc]
    simp only [ok_bind, reduceCtorEq, if_false]
    exact ⟨_, _, _, rfl⟩

theorem reply_returns (granted : ∀ k, (grants k).granted = true) (sound : Sound c)
    (hbody : 4 < c.rxCap) (hcap : c.rxCap = 4 + msgLength c) (hlen : c.rxLen = c.rxCap)
    (hsmall : msgLength c + ctx.plen + ctx.slen + 4 < 2 ^ 32)
    (live : ∀ b ∈ c.rxBuf.blocks, b ∈ h.live) :
    ∃ h' c' e', reply ctx grants h c e = .ok (success, h', c', e') := by
  have hsize := sound.rxSize
  obtain ⟨id, hbuf⟩ := block_of_size (p := c.rxBuf) (by omega)
  have hload : c.rxBuf.load 0 4 = .ok (c.rxBuf.bytes.take 4) := by
    have hfits : 0 + 4 ≤ c.rxBuf.bytes.length := (by omega : 4 ≤ c.rxBuf.size)
    rw [hbuf]
    exact load_block hfits
  obtain ⟨hmsg, hframe⟩ := frameLength_eq hsmall
  have hmalloc := iMallocBytes_granted (h := h) (e := e) (n := frameLength ctx (msgLength c))
    (granted 0) (by omega) (by omega)
  have hfill : ((grants 0).fill (frameLength ctx (msgLength c))).length =
      msgLength c + ctx.plen + ctx.slen + 4 := by rw [Grant.length_fill, hframe]
  have hwrite := writeReply_eq (q := c.rxBuf) (n := msgLength c + ctx.plen + ctx.slen) h.next hsmall
    (by omega) (size_pos (by omega)) hfill
  have hlive : id ∈ h.grow.live :=
    Heap.mem_grow.mpr (.inr (live id (by rw [hbuf]; exact List.mem_cons_self)))
  have hrealloc := fun old => iReallocRight_granted (h := h.grow) (e := e) (m := old)
    c.rxBuf.bytes (granted 1) (show 0 < 4 by decide) hlive
  rw [← hbuf] at hrealloc
  have hframe' : u32 (u32 (msgLength c + ctx.plen + ctx.slen) + 4) =
    frameLength ctx (msgLength c) := rfl
  simp only [reply, assert_pos hlen, hload, ok_bind]
  change ∃ h' c' e', (iMallocBytes (grants 0)
    (u32 (u32 (msgLength c + ctx.plen + ctx.slen) + 4)) h e >>= _) = _
  rw [hframe', hmalloc]
  simp only [ok_bind, reduceCtorEq, if_false]
  change ∃ h' c' e', (writeReply ctx _ c.rxBuf (msgLength c)
    (u32 (msgLength c + ctx.plen + ctx.slen)) >>= _) = _
  rw [hmsg, hwrite]
  simp only [ok_bind]
  change ∃ h' c' e', (assert (_ = u32 (u32 (msgLength c + ctx.plen + ctx.slen) + 4)) >>= _) = _
  rw [assert_pos (hframe'.trans hframe).symm]
  simp only [ok_bind, resetRx, hrealloc, reduceCtorEq, if_false]
  exact ⟨_, _, _, rfl⟩

theorem echoConnFunc_returns (sound : Sound c) (fitting : Fitting ctx grants c)
    (live : ∀ b ∈ c.blocks, b ∈ h.live) :
    ∃ h' c' e', echoConnFunc ctx grants h c e = .ok (success, h', c', e') := by
  obtain ⟨granted, inRange⟩ := fitting
  have hrx : ∀ b ∈ c.rxBuf.blocks, b ∈ h.live := fun b hb =>
    live b (List.mem_cons_of_mem _ (List.mem_append_left _ hb))
  have hlen := sound.rxLen
  unfold echoConnFunc
  by_cases hnew : c.rxCap = 0 ∧ c.txCap = 0
  · rw [if_pos hnew]
    exact createRx_returns (granted 0)
  · rw [if_neg hnew]
    by_cases hidle : 0 < c.txCap ∧ c.txSent = c.txCap
    · rw [if_pos hidle]
      exact ⟨_, _, _, rfl⟩
    · rw [if_neg hidle]
      by_cases hwait : c.rxLen < c.rxCap
      · rw [if_pos hwait]
        exact ⟨_, _, _, rfl⟩
      · rw [if_neg hwait]
        by_cases hcap : c.rxCap = 4
        · rw [if_pos hcap]
          exact extendRx_returns (granted 0) sound hcap
            (inRange.total hidle hcap (by omega)) hrx
        · rw [if_neg hcap]
          rcases sound.phase with ⟨hzero, -, htx⟩ | hbegin | ⟨hbody, -, hcap'⟩
          · exact absurd ⟨hzero, htx⟩ hnew
          · exact absurd hbegin hcap
          · exact reply_returns granted sound hbody hcap' (by omega)
              (inRange.frame hidle hbody (by omega)) hrx

theorem echo_total (ctx : EchoContext) : Total (echoActions ctx) (Fitting ctx) Sound :=
  fun _ _ _ _ sound fitting _ live => echoConnFunc_returns sound fitting live

/-- A reply that is written fits its buffer. -/
theorem writeReply_fits (hsize : p.size < 2 ^ 32)
    (hrun : writeReply ctx p q m n = .ok (p', head)) : m + ctx.plen + ctx.slen + 4 ≤ p.size := by
  obtain ⟨p₁, hbegin, hrun₁⟩ := bind_eq_ok.mp hrun
  obtain ⟨p₂, hpre, hrun₂⟩ := bind_eq_ok.mp hrun₁
  obtain ⟨msg, hload, hrun₃⟩ := bind_eq_ok.mp hrun₂
  obtain ⟨p₃, hmsg, hrun₄⟩ := bind_eq_ok.mp hrun₃
  obtain ⟨p₄, hsuf, hend⟩ := bind_eq_ok.mp hrun₄
  obtain ⟨-, -, hrx, rfl⟩ := load_cases hload
  have hplen : (ctx.pre.take ctx.plen).length = ctx.plen := List.length_take_of_le (plen_le ctx)
  have hslen : (ctx.suf.take ctx.slen).length = ctx.slen := List.length_take_of_le (slen_le ctx)
  have hmlen : ((q.bytes.drop 4).take m).length = m := by
    rw [List.length_take, List.length_drop]
    have hrx : 4 + m ≤ q.bytes.length := hrx
    omega
  have s₁ := (store_size hbegin).2
  have s₂ := (store_size hpre).2
  have s₃ := (store_size hmsg).2
  obtain ⟨f₂, -⟩ := store_bytes hpre
  obtain ⟨f₃, -⟩ := store_bytes hmsg
  obtain ⟨f₄, -⟩ := store_bytes hsuf
  rw [hplen] at f₂
  rw [u32_of_lt (by omega), hmlen] at f₃
  rw [u32_of_lt (n := 4 + ctx.plen) (by omega), u32_of_lt (by omega), hslen] at f₄
  omega

/-- Beyond the range the call does not return, or leaves a length above its capacity. -/
theorem echoConnFunc_sound_iff (sound : Sound c) (granted : ∀ k, (grants k).granted = true)
    (live : ∀ b ∈ c.blocks, b ∈ h.live) :
    (∃ h' c' e', echoConnFunc ctx grants h c e = .ok (success, h', c', e') ∧ Sound c') ↔
      InRange ctx c := by
  constructor
  · rintro ⟨h', c', e', hrun, sound'⟩
    generalize hcode : success = code at hrun
    have serving := echoConnFunc_serving hrun
    have hmsg := msgLength_lt c
    constructor
    · intro hidle hcap hlen
      have hbound := sound'.rxLen
      cases serving with
      | created hrx => omega
      | createFailed _ _ _ _ _ hfail => exact absurd hcode.symm hfail
      | finished htx hsent => exact absurd ⟨htx, hsent⟩ hidle
      | waiting => omega
      | skipped _ _ hzero => omega
      | extended _ _ _ _ _ _ _ hpos =>
        have hbound : c.rxLen ≤ u32 (4 + msgLength c) := hbound
        unfold u32 at hbound
        omega
      | extendFailed _ _ _ hfail => exact absurd hcode.symm hfail
      | replied _ hrx => exact absurd hcap hrx
      | replyFailed _ _ _ _ _ _ hfail => exact absurd hcode.symm hfail
      | resetFailed _ _ _ _ _ _ _ _ hfail => exact absurd hcode.symm hfail
    · intro hidle hbody hlen
      cases serving with
      | created hrx => omega
      | createFailed _ _ _ _ _ hfail => exact absurd hcode.symm hfail
      | finished htx hsent => exact absurd ⟨htx, hsent⟩ hidle
      | waiting => omega
      | skipped hrx => omega
      | extended _ hrx => omega
      | extendFailed _ _ _ hfail => exact absurd hcode.symm hfail
      | replied _ _ _ _ _ _ tx hwrite =>
        have hsize : (Ptr.block h.next ((grants 0).fill (frameLength ctx (msgLength c)))).size =
            frameLength ctx (msgLength c) := Grant.length_fill _ _
        have hsmall := frameLength_lt ctx (msgLength c)
        have hfits := writeReply_fits (by omega) hwrite
        omega
      | replyFailed _ _ _ _ _ _ hfail => exact absurd hcode.symm hfail
      | resetFailed _ _ _ _ _ _ _ _ hfail => exact absurd hcode.symm hfail
  · intro inRange
    obtain ⟨h', c', e', hrun⟩ := echoConnFunc_returns sound ⟨granted, inRange⟩ live
    exact ⟨h', c', e', hrun, (echoConnFunc_serving hrun).sound sound ⟨granted, inRange⟩⟩

end Calls

section Survival

variable {c : Connection} {ctx : EchoContext} {st : State} {a : Answers} {e e₀ : ErrorObject}
  {tr : List ((ErrorObject × Answers) × Int)} {fd : Int} {conns : Nat → Option Connection}
  {fds : Nat → PollFd} {h : Heap}

theorem readFits_wanted (sound : Sound c) (hin : (wanted c).pollin = true) (r : RecvResult) :
    ReadFits r c := by
  have hwant : 0 < c.rxCap ∧ c.rxLen ≠ c.rxCap := by simpa [wanted] using hin
  have hlen := sound.rxLen
  have hsize := sound.rxSize
  refine ⟨by omega, size_pos (by omega), fun bytes _ _ => ?_⟩
  have htake := List.length_take_le (c.rxCap - c.rxLen) bytes
  omega

theorem writeFits_wanted (sound : Sound c) (hout : (wanted c).pollout = true) (s : SendResult) :
    WriteFits s c := by
  have hwant : 0 < c.txCap ∧ c.txSent ≠ c.txCap := by simpa [wanted] using hout
  have hsent := sound.txSent
  have hsize := sound.txSize
  exact ⟨by omega, size_pos (by omega), fun n _ => by omega⟩

/-- In every call of a run whose requests stay in range, each `conn_func` returns, the
connections stay within their bounds, and every read and write that `poll` allows returns. -/
theorem connections_survive
    (run : Trace (server (echoActions ctx) (Fitting ctx) True) (opened fd conns fds h e₀) tr st)
    (permitted : (server (echoActions ctx) (Fitting ctx) True).pre st (e, a)) :
    AllServed Bounds st ∧
      ∃ served, pservExecuteConns (echoActions ctx) a.grants (st.setError e) =
        .ok (success, served) ∧
        AllServed Bounds served ∧
        ∀ revents, Honest served revents → ∀ i s c,
          Reaches (echoActions ctx) a served.ps.len (storeRevents revents served) (i + 1) s →
          Serves s i c → Bounds c ∧
            ((revents i).pollin = true → ∃ code c' e', handleRead (a.recv i) c s.e =
              .ok (code, c', e') ∧ Bounds c') ∧
            ((revents i).pollout = true → ∃ c' e', handleWrite (a.send i) c s.e =
              .ok (c', e') ∧ Bounds c') := by
  have lawful := echo_lawful ctx
  have framed := echo_framed ctx
  have keeps := sound_keeps ctx
  have hsound : AllServed Sound st := keeps.reached lawful (.ended run)
  have howned : Owned st := Owned.reached lawful framed (.ended run)
  have hstart : AllServed Sound (st.setError e) := hsound
  have howned' : Owned (st.setError e) := howned.idle rfl rfl rfl
  have meets : ∀ i c, Serves (st.setError e) i c → Fitting ctx (a.grants i) c := permitted.1
  obtain ⟨served, hrun, hasked⟩ :=
    pservExecuteConns_returns framed lawful (echo_total ctx) howned' hstart meets
  have hsteps : Steps (echoActions ctx) (Fitting ctx) True (st.setError e) served :=
    (pservExecuteConns_moves meets hrun).1.steps
  have hserved : AllServed Sound served := keeps.steps hsteps hstart
  refine ⟨fun i c hc => (hsound i c hc).toBounds, served, hrun,
    fun i c hc => (hserved i c hc).toBounds, fun revents honest i s c reaches serves => ?_⟩
  obtain ⟨hc, -, -⟩ :=
    handled_serves lawful framed (howned'.steps lawful framed hsteps) reaches serves
  have sound := hserved i c hc
  have hwanted := hasked i c hc
  refine ⟨sound.toBounds, fun hin => ?_, fun hout => ?_⟩
  · have hwants : (wanted c).pollin = true := hwanted ▸ (honest i).1 hin
    obtain ⟨⟨code, c', e'⟩, hread⟩ :=
      (handleRead_returns (e := s.e)).mpr (readFits_wanted sound hwants (a.recv i))
    exact ⟨code, c', e', hread, (handleRead_sound sound hread).toBounds⟩
  · have hwants : (wanted c).pollout = true := hwanted ▸ (honest i).2 hout
    obtain ⟨⟨c', e'⟩, hwrite⟩ :=
      (handleWrite_returns (e := s.e)).mpr (writeFits_wanted sound hwants (a.send i))
    exact ⟨c', e', hwrite, (handleWrite_sound sound hwrite).toBounds⟩

end Survival

/-! ## A run -/

/-- A client connects; every allocation and every `close` succeeds. -/
def connects : Answers where
  grants _ _ := ⟨true, fun _ => 0⟩
  poll := .ready fun i => if i = 0 then { Events.none with pollin := true } else Events.none
  recv _ := .failed
  send _ := .failed
  closed _ := true
  accept := ⟨⟨true, fun _ => 0⟩, some 4, true, true, true⟩

/-- The first client sends bytes. -/
def sends (bytes : List UInt8) : Answers where
  grants _ _ := ⟨true, fun _ => 0⟩
  poll := .ready fun i => if i = 1 then { Events.none with pollin := true } else Events.none
  recv _ := .data bytes
  send _ := .failed
  closed _ := true
  accept := ⟨⟨true, fun _ => 0⟩, none, true, true, true⟩

def emptyHeap : Heap := ⟨∅, 0, fun _ h => absurd h (Finset.notMem_empty _)⟩

/-- A server behind `pserv_open`, with no block of a connection. -/
def started : State :=
  opened 3 (fun _ => none) (fun _ => ⟨0, Events.none, Events.none⟩) emptyHeap errorCreate

/-- A prefix that makes `4 + msg_len` zero fails the assertion of `i_realloc_right`. -/
theorem long_prefix_aborts :
    ∃ tr st, Trace (server (echoActions ⟨[], []⟩) (fun grants _ => ∀ k, (grants k).granted = true)
        True) started tr st ∧
      pservExecute (echoActions ⟨[], []⟩) (sends []) st = .error .assertion := by
  refine ⟨[((errorCreate, connects), _), ((errorCreate, sends [255, 255, 255, 252]), _)], _,
    .cons ⟨fun _ _ _ _ => rfl, fun _ _ => rfl⟩ rfl
      (.cons ⟨fun _ _ _ _ => rfl, fun _ _ => rfl⟩ rfl (.nil _)), rfl⟩

/-- The first client takes what it is sent. -/
def takes (n : Nat) : Answers where
  grants _ _ := ⟨true, fun _ => 0⟩
  poll := .ready fun i => if i = 1 then { Events.none with pollout := true } else Events.none
  recv _ := .failed
  send _ := .sent n
  closed _ := true
  accept := ⟨⟨true, fun _ => 0⟩, none, true, true, true⟩

/-- The calls with the answers `as`, where every connection is `ok` before each of them and
at the end. -/
def callsWhile (ctx : EchoContext) (ok : Connection → Bool) : List Answers → State → Outcome State
  | [], st => do
    assert (((List.range st.ps.len).all fun i => (st.ps.conns i).all ok) = true)
    .ok st
  | a :: as, st => do
    assert (((List.range st.ps.len).all fun i => (st.ps.conns i).all ok) = true)
    let (_, st) ← pservExecute (echoActions ctx) a (st.setError errorCreate)
    callsWhile ctx ok as st

theorem all_serves {ok : Connection → Bool} {st : State} {i : Nat} {c : Connection}
    (hall : ((List.range st.ps.len).all fun i => (st.ps.conns i).all ok) = true)
    (serves : Serves st i c) : ok c = true := by
  have hi := List.all_eq_true.mp hall i (List.mem_range.mpr serves.2.1)
  rwa [serves.2.2, Option.all_some] at hi

theorem callsWhile_run {ctx : EchoContext} {ok : Connection → Bool} {as : List Answers}
    {P : (Nat → Grant) → Connection → Prop} {closes : Prop} {st st' : State}
    (meets : ∀ a ∈ as, ∀ i c, ok c = true → P (a.grants i) c)
    (hclosed : ∀ a ∈ as, ∀ i, a.closed i = true) (hrun : callsWhile ctx ok as st = .ok st') :
    (∃ tr, Trace (server (echoActions ctx) P closes) st tr st') ∧
      ∀ i c, Serves st' i c → ok c = true := by
  induction as generalizing st with
  | nil =>
    obtain ⟨_, hall, hrun⟩ := bind_eq_ok.mp hrun
    obtain rfl := Except.ok.inj hrun
    exact ⟨⟨_, .nil st⟩, fun i c => all_serves (assert_eq_ok_iff.mp hall)⟩
  | cons a as ih =>
    obtain ⟨_, hall, hrun⟩ := bind_eq_ok.mp hrun
    obtain ⟨⟨code, s⟩, hcall, hrun⟩ := bind_eq_ok.mp hrun
    obtain ⟨⟨tr, run⟩, hend⟩ := ih (fun b hb => meets b (List.mem_cons_of_mem a hb))
      (fun b hb => hclosed b (List.mem_cons_of_mem a hb)) hrun
    have hpre : (server (echoActions ctx) P closes).pre st (errorCreate, a) :=
      ⟨fun i c hc => meets a List.mem_cons_self i c (all_serves (assert_eq_ok_iff.mp hall) hc),
        fun _ => hclosed a List.mem_cons_self⟩
    have hstep : (server (echoActions ctx) P closes).step st (errorCreate, a) = .ok (code, s) :=
      hcall
    exact ⟨⟨_, .cons hpre hstep run⟩, hend⟩

/-- A client has sent a prefix and the body behind it; the reply is next. -/
theorem request_survives :
    ∃ tr st c, Trace (server (echoActions ⟨[91], [93]⟩) (Fitting ⟨[91], [93]⟩) True) started tr st ∧
      Serves st 1 c ∧ (c.rxCap, c.rxLen, c.rxBuf.bytes) = (6, 6, [0, 0, 0, 2, 97, 98]) ∧
      AllServed Bounds st ∧
      ∃ served, pservExecuteConns (echoActions ⟨[91], [93]⟩) (takes 3).grants
          (st.setError errorCreate) = .ok (success, served) ∧
        AllServed Bounds served ∧
        ∀ revents, Honest served revents → ∀ i s d,
          Reaches (echoActions ⟨[91], [93]⟩) (takes 3) served.ps.len (storeRevents revents served)
            (i + 1) s →
          Serves s i d → Bounds d ∧
            ((revents i).pollin = true → ∃ code d' e', handleRead ((takes 3).recv i) d s.e =
              .ok (code, d', e') ∧ Bounds d') ∧
            ((revents i).pollout = true → ∃ d' e', handleWrite ((takes 3).send i) d s.e =
              .ok (d', e') ∧ Bounds d') := by
  obtain ⟨st, hrun, hlen, hconn⟩ : ∃ st, callsWhile ⟨[91], [93]⟩ (fun c => msgLength c < 100)
      [connects, sends [0, 0, 0, 2], sends [97, 98]] started = .ok st ∧ st.ps.len = 2 ∧
      (st.ps.conns 1).map (fun c => (c.rxCap, c.rxLen, c.rxBuf.bytes)) =
        some (6, 6, [0, 0, 0, 2, 97, 98]) := ⟨_, rfl, rfl, rfl⟩
  obtain ⟨c, hc, hbytes⟩ := Option.map_eq_some_iff.mp hconn
  have fitting : ∀ a : Answers, (∀ i k, (a.grants i k).granted = true) → ∀ i c,
      decide (msgLength c < 100) = true → Fitting ⟨[91], [93]⟩ (a.grants i) c := by
    intro a granted i c hshort
    have hshort := of_decide_eq_true hshort
    refine ⟨granted i, fun _ _ _ => by omega, fun _ _ _ => ?_⟩
    show msgLength c + 1 + 1 + 4 < 2 ^ 32
    omega
  have granted : ∀ a ∈ [connects, sends [0, 0, 0, 2], sends [97, 98]],
      ∀ i k, (a.grants i k).granted = true := by
    simp [connects, sends]
  obtain ⟨⟨tr, run⟩, hend⟩ := callsWhile_run (fun a ha => fitting a (granted a ha))
    (by simp [connects, sends]) hrun
  have permitted : (server (echoActions ⟨[91], [93]⟩) (Fitting ⟨[91], [93]⟩) True).pre st
      (errorCreate, takes 3) :=
    ⟨fun i c hc => fitting (takes 3) (fun _ _ => rfl) i c (hend i c hc), fun _ _ => rfl⟩
  exact ⟨tr, st, c, run, ⟨Nat.one_pos, by omega, hc⟩, hbytes, connections_survive run permitted⟩

end EchoServer
