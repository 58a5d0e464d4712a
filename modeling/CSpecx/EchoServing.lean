import CSpecx.EchoServer
import CSpecx.PollingOwnership

/-!
# What serving an echo connection does

`echo_conn_func` has seven outcomes when its allocations succeed. They are
listed once; ownership and the invariants of a connection follow from the list.
-/

namespace EchoServer

open CExec Errors HeapBuffers Polling

/-- The request length that the receive buffer begins with. -/
def msgLength (c : Connection) : Nat := decodePrefix (c.rxBuf.bytes.take 4)

/-- `frame_len` of the reply to a request of `mlen` bytes. -/
def frameLength (ctx : EchoContext) (mlen : Nat) : Nat :=
  u32 (u32 (mlen + ctx.plen + ctx.slen) + 4)

/-- The receive buffer after `i_realloc_right` to `n` bytes. -/
def resized (g : Grant) (h : Heap) (c : Connection) (n : Nat) : Ptr :=
  .block h.next (c.rxBuf.bytes.take n ++ (g.fill n).drop c.rxBuf.size)

/-- No finished reply is in the way of the next request. -/
def Idle (c : Connection) : Prop := ¬ (0 < c.txCap ∧ c.txSent = c.txCap)

/-- The calls of `echo_conn_func` that return. -/
inductive Serving (ctx : EchoContext) (grants : Nat → Grant) (h : Heap) (c : Connection)
    (e : ErrorObject) : Int → Heap → Connection → ErrorObject → Prop where
  | created (hrx : c.rxCap = 0) (htx : c.txCap = 0) : Serving ctx grants h c e success h.grow
      { c with rxBuf := .block h.next ((grants 0).fill 4), rxCap := 4, rxLen := 0 } e
  | createFailed (hrx : c.rxCap = 0) (htx : c.txCap = 0) (denied : (grants 0).granted = false)
      (code : Int) (e' : ErrorObject) (hcode : code ≠ success) :
      Serving ctx grants h c e code h { c with rxBuf := .null } e'
  | finished (htx : 0 < c.txCap) (hsent : c.txSent = c.txCap) :
      Serving ctx grants h c e success h { c with txCap := 0, txSent := 0 } e
  | waiting (hnew : ¬ (c.rxCap = 0 ∧ c.txCap = 0)) (hrx : c.rxLen < c.rxCap) :
      Serving ctx grants h c e success h c e
  | skipped (hrx : c.rxCap = 4) (hlen : 4 ≤ c.rxLen) (hzero : msgLength c = 0) :
      Serving ctx grants h c e success h { c with rxLen := 0 } e
  | extended (idle : Idle c) (hrx : c.rxCap = 4) (hlen : 4 ≤ c.rxLen) (hmsg : msgLength c ≠ 0)
      (id : Nat) (hbuf : c.rxBuf = .block id c.rxBuf.bytes) (hlive : id ∈ h.live)
      (hpos : 0 < u32 (4 + msgLength c)) :
      Serving ctx grants h c e success (h.free id).grow
        { c with
          rxBuf := resized (grants 0) h c (u32 (4 + msgLength c))
          rxCap := u32 (4 + msgLength c) } e
  | extendFailed (denied : (grants 0).granted = false) (code : Int) (e' : ErrorObject)
      (hcode : code ≠ success) : Serving ctx grants h c e code h c e'
  | replied (idle : Idle c) (hrx : c.rxCap ≠ 4)
      (hlen : c.rxLen = c.rxCap) (id : Nat) (hbuf : c.rxBuf = .block id c.rxBuf.bytes)
      (hlive : id ∈ h.grow.live) (tx : Ptr)
      (hwrite : writeReply ctx (.block h.next ((grants 0).fill (frameLength ctx (msgLength c))))
        c.rxBuf (msgLength c) (u32 (msgLength c + ctx.plen + ctx.slen)) =
          .ok (tx, frameLength ctx (msgLength c))) :
      Serving ctx grants h c e success (h.grow.free id).grow
        { c with
          rxBuf := resized (grants 1) h.grow c 4
          rxCap := 4
          rxLen := 0
          txBuf := tx
          txCap := frameLength ctx (msgLength c)
          txSent := 0 } e
  | replyFailed (idle : Idle c) (denied : (grants 0).granted = false) (hlen : c.rxLen = c.rxCap)
      (hrx : c.rxCap ≠ 4) (code : Int) (e' : ErrorObject) (hcode : code ≠ success) :
      Serving ctx grants h c e code h { c with txBuf := .null } e'
  | resetFailed (idle : Idle c) (denied : (grants 1).granted = false)
      (hlen : c.rxLen = c.rxCap) (hrx : c.rxCap ≠ 4) (tx : Ptr) (hblocks : tx.blocks = [h.next])
      (code : Int)
      (e' : ErrorObject) (hcode : code ≠ success) :
      Serving ctx grants h c e code h.grow
        { c with txBuf := tx, txCap := frameLength ctx (msgLength c), txSent := 0 } e'

section Cases

variable {ctx : EchoContext} {grants : Nat → Grant} {g : Grant} {h h' : Heap}
  {c c' : Connection} {e e' : ErrorObject} {code : Int} {p q : Ptr} {id n : Nat}
  {bytes : List UInt8}

theorem frameLength_lt (ctx : EchoContext) (mlen : Nat) : frameLength ctx mlen < 2 ^ 32 :=
  u32_lt _

theorem nomem_failed {msg : Message} :
    (errorCausef e errNomem msg).2.causeCode ≠ success := errorCausef_failed (by decide)

/-- A call of `i_malloc` that returns. -/
theorem iMallocBytes_cases (hsmall : n < 2 ^ 32) (hrun : iMallocBytes g n h e = .ok (p, h', e')) :
    (p = .block h.next (g.fill n) ∧ h' = h.grow ∧ e' = e) ∨
      (p = .null ∧ h' = h ∧ e'.causeCode ≠ success ∧ g.granted = false) := by
  obtain ⟨⟨ok, e₁⟩, hmalloc, hrun⟩ := bind_eq_ok.mp hrun
  obtain ⟨-, -, hmalloc⟩ := bind_eq_ok.mp hmalloc
  obtain ⟨-, -, hmalloc⟩ := bind_eq_ok.mp hmalloc
  have hbytes : n * 1 < 2 ^ 32 := by omega
  rw [if_pos hbytes] at hmalloc
  by_cases hg : g.granted = true
  · rw [if_pos hg] at hmalloc
    obtain ⟨rfl, rfl⟩ := ok_pair_inj hmalloc
    obtain ⟨rfl, rfl, rfl⟩ := ok_triple_inj hrun
    exact .inl ⟨rfl, rfl, rfl⟩
  · rw [if_neg hg] at hmalloc
    obtain ⟨rfl, rfl⟩ := ok_pair_inj hmalloc
    obtain ⟨rfl, rfl, rfl⟩ := ok_triple_inj hrun
    exact .inr ⟨rfl, rfl, nomem_failed, Bool.eq_false_iff.mpr hg⟩

/-- A call of `i_realloc_right` on a block that returns. -/
theorem iReallocRight_cases {m : Nat}
    (hrun : iReallocRight g (.block id bytes) m n h e = .ok (q, h', e')) :
    0 < n ∧ ((q = .block h.next (bytes.take n ++ (g.fill n).drop bytes.length) ∧ id ∈ h.live ∧
      h' = (h.free id).grow ∧ e' = e) ∨
        (q = .null ∧ h' = h ∧ e'.causeCode ≠ success ∧ g.granted = false)) := by
  obtain ⟨-, -, hrun⟩ := bind_eq_ok.mp hrun
  obtain ⟨u, hpos, hrun⟩ := bind_eq_ok.mp hrun
  obtain ⟨-, -, hrun⟩ := bind_eq_ok.mp hrun
  obtain ⟨v, hlive, hrun⟩ := bind_eq_ok.mp hrun
  refine ⟨assert_eq_ok_iff.mp hpos, ?_⟩
  by_cases hg : g.granted = true
  · rw [if_pos hg] at hrun
    obtain ⟨rfl, rfl, rfl⟩ := ok_triple_inj hrun
    exact .inl ⟨rfl, access_eq_ok_iff.mp hlive, rfl, rfl⟩
  · rw [if_neg hg] at hrun
    obtain ⟨rfl, rfl, rfl⟩ := ok_triple_inj hrun
    exact .inr ⟨rfl, rfl, nomem_failed, Bool.eq_false_iff.mpr hg⟩

/-- A load that succeeds reads a block. -/
theorem load_cases {o : Nat} {xs : List UInt8} (hrun : p.load o n = .ok xs) :
    ∃ id, p = .block id p.bytes ∧ o + n ≤ p.size ∧ xs = (p.bytes.drop o).take n := by
  cases p with
  | null => cases hrun
  | dangling => cases hrun
  | block id bytes =>
    obtain ⟨u, hfits, hrun⟩ := bind_eq_ok.mp hrun
    exact ⟨id, rfl, access_eq_ok_iff.mp hfits, (Except.ok.inj hrun).symm⟩

theorem createRx_serving (hrx : c.rxCap = 0) (htx : c.txCap = 0)
    (hrun : createRx (grants 0) h c e = .ok (code, h', c', e')) :
    Serving ctx grants h c e code h' c' e' := by
  obtain ⟨⟨p, h₁, e₁⟩, hmalloc, hend⟩ := bind_eq_ok.mp hrun
  rcases iMallocBytes_cases (by decide) hmalloc with ⟨hp, hheap, he⟩ | ⟨hp, hheap, hcode, denied⟩
  · subst hp hheap he
    simp only [reduceCtorEq, if_false, Except.ok.injEq, Prod.mk.injEq] at hend
    obtain ⟨rfl, rfl, rfl, rfl⟩ := hend
    exact .created hrx htx
  · subst hp hheap
    simp only [if_true, Except.ok.injEq, Prod.mk.injEq] at hend
    obtain ⟨rfl, rfl, rfl, rfl⟩ := hend
    exact .createFailed hrx htx denied _ _ hcode

theorem extendRx_serving (idle : Idle c) (hrx : c.rxCap = 4) (hlen : 4 ≤ c.rxLen)
    (hrun : extendRx (grants 0) h c e = .ok (code, h', c', e')) :
    Serving ctx grants h c e code h' c' e' := by
  obtain ⟨wire, hload, hdecode⟩ := bind_eq_ok.mp hrun
  obtain ⟨id, hbuf, -, rfl⟩ := load_cases hload
  have hmsg : decodePrefix ((c.rxBuf.bytes.drop 0).take 4) = msgLength c := rfl
  rw [hmsg] at hdecode
  by_cases hzero : msgLength c = 0
  · simp only [hzero, if_true, Except.ok.injEq, Prod.mk.injEq] at hdecode
    obtain ⟨rfl, rfl, rfl, rfl⟩ := hdecode
    exact .skipped hrx hlen hzero
  · simp only [if_neg hzero] at hdecode
    obtain ⟨⟨p, h₁, e₁⟩, hrealloc, hend⟩ := bind_eq_ok.mp hdecode
    rw [hbuf] at hrealloc
    obtain ⟨hpos, ⟨hp, hlive, hheap, he⟩ | ⟨hp, hheap, hcode, denied⟩⟩ :=
      iReallocRight_cases hrealloc
    · subst hp hheap he
      simp only [reduceCtorEq, if_false, Except.ok.injEq, Prod.mk.injEq] at hend
      obtain ⟨rfl, rfl, rfl, rfl⟩ := hend
      exact .extended idle hrx hlen hzero id hbuf hlive hpos
    · subst hp hheap
      simp only [if_true, Except.ok.injEq, Prod.mk.injEq] at hend
      obtain ⟨rfl, rfl, rfl, rfl⟩ := hend
      exact .extendFailed denied _ _ hcode

theorem store_size {o : Nat} {xs : List UInt8} (hrun : p.store o xs = .ok q) :
    q.blocks = p.blocks ∧ q.size = p.size := by
  refine ⟨store_blocks hrun, ?_⟩
  cases p with
  | null => cases hrun
  | dangling => cases hrun
  | block id bytes =>
    obtain ⟨u, hfits, hstore⟩ := bind_eq_ok.mp hrun
    obtain rfl := Except.ok.inj hstore
    exact length_store (access_eq_ok_iff.mp hfits)

theorem writeReply_blocks {tx : Ptr} {mlen msgLen head : Nat}
    (hrun : writeReply ctx p q mlen msgLen = .ok (tx, head)) :
    tx.blocks = p.blocks ∧ tx.size = p.size := by
  obtain ⟨p₁, h₁, hrun₁⟩ := bind_eq_ok.mp hrun
  obtain ⟨p₂, h₂, hrun₂⟩ := bind_eq_ok.mp hrun₁
  obtain ⟨msg, -, hrun₃⟩ := bind_eq_ok.mp hrun₂
  obtain ⟨p₃, h₃, hrun₄⟩ := bind_eq_ok.mp hrun₃
  obtain ⟨p₄, h₄, hend⟩ := bind_eq_ok.mp hrun₄
  obtain ⟨rfl, -⟩ := ok_pair_inj hend
  obtain ⟨b₁, s₁⟩ := store_size h₁
  obtain ⟨b₂, s₂⟩ := store_size h₂
  obtain ⟨b₃, s₃⟩ := store_size h₃
  obtain ⟨b₄, s₄⟩ := store_size h₄
  exact ⟨b₄.trans (b₃.trans (b₂.trans b₁)), s₄.trans (s₃.trans (s₂.trans s₁))⟩

theorem reply_serving (idle : Idle c) (hrx : c.rxCap ≠ 4)
    (hrun : reply ctx grants h c e = .ok (code, h', c', e')) :
    Serving ctx grants h c e code h' c' e' := by
  obtain ⟨u, hassert, hwork⟩ := bind_eq_ok.mp hrun
  have hlen : c.rxLen = c.rxCap := assert_eq_ok_iff.mp hassert
  obtain ⟨wire, hload, hdecode⟩ := bind_eq_ok.mp hwork
  obtain ⟨id, hbuf, -, rfl⟩ := load_cases hload
  have hmsg : decodePrefix ((c.rxBuf.bytes.drop 0).take 4) = msgLength c := rfl
  rw [hmsg] at hdecode
  obtain ⟨⟨p, h₁, e₁⟩, hmalloc, hfill⟩ := bind_eq_ok.mp hdecode
  rcases iMallocBytes_cases (frameLength_lt ctx (msgLength c)) hmalloc with
    ⟨hp, hheap, he⟩ | ⟨hp, hheap, hcode, denied⟩
  · subst hp hheap he
    simp only [reduceCtorEq, if_false] at hfill
    obtain ⟨⟨tx, head⟩, hwrite, hreset⟩ := bind_eq_ok.mp hfill
    obtain ⟨v, hhead, hreset⟩ := bind_eq_ok.mp hreset
    obtain rfl : head = frameLength ctx (msgLength c) := assert_eq_ok_iff.mp hhead
    obtain ⟨⟨p, h₂, e₂⟩, hrealloc, hend⟩ := bind_eq_ok.mp hreset
    have hblocks := (writeReply_blocks hwrite).1
    change iReallocRight (grants 1) c.rxBuf _ 4 _ _ = _ at hrealloc
    rw [hbuf] at hrealloc
    obtain ⟨-, ⟨hp, hlive, hheap, he⟩ | ⟨hp, hheap, hcode, denied⟩⟩ := iReallocRight_cases hrealloc
    · subst hp hheap he
      simp only [reduceCtorEq, if_false, Except.ok.injEq, Prod.mk.injEq] at hend
      obtain ⟨rfl, rfl, rfl, rfl⟩ := hend
      exact .replied idle hrx hlen id hbuf hlive tx hwrite
    · subst hp hheap
      simp only [if_true, Except.ok.injEq, Prod.mk.injEq] at hend
      obtain ⟨rfl, rfl, rfl, rfl⟩ := hend
      exact .resetFailed idle denied hlen hrx tx hblocks _ _ hcode
  · subst hp hheap
    simp only [if_true, Except.ok.injEq, Prod.mk.injEq] at hfill
    obtain ⟨rfl, rfl, rfl, rfl⟩ := hfill
    exact .replyFailed idle denied hlen hrx _ _ hcode

theorem echoConnFunc_serving (hrun : echoConnFunc ctx grants h c e = .ok (code, h', c', e')) :
    Serving ctx grants h c e code h' c' e' := by
  by_cases hnew : c.rxCap = 0 ∧ c.txCap = 0
  · simp only [echoConnFunc, if_pos hnew] at hrun
    exact createRx_serving hnew.1 hnew.2 hrun
  · simp only [echoConnFunc, if_neg hnew] at hrun
    by_cases hsent : 0 < c.txCap ∧ c.txSent = c.txCap
    · simp only [if_pos hsent, Except.ok.injEq, Prod.mk.injEq] at hrun
      obtain ⟨rfl, rfl, rfl, rfl⟩ := hrun
      exact .finished hsent.1 hsent.2
    · simp only [if_neg hsent] at hrun
      by_cases hwait : c.rxLen < c.rxCap
      · simp only [if_pos hwait, Except.ok.injEq, Prod.mk.injEq] at hrun
        obtain ⟨rfl, rfl, rfl, rfl⟩ := hrun
        exact .waiting hnew hwait
      · simp only [if_neg hwait] at hrun
        by_cases hbegin : c.rxCap = 4
        · simp only [if_pos hbegin] at hrun
          exact extendRx_serving hsent hbegin (by omega) hrun
        · simp only [if_neg hbegin] at hrun
          exact reply_serving hsent hbegin hrun

end Cases

section Blocks

variable {ctx : EchoContext} {grants : Nat → Grant} {h h' : Heap} {c c' : Connection}
  {e e' : ErrorObject} {code : Int}

/-- A connection whose structure, receive buffer and send buffer are the given blocks. -/
theorem blocks_eq {rx tx : List Nat} (hrx : c.rxBuf.blocks = rx) (htx : c.txBuf.blocks = tx) :
    c.blocks = c.id :: (rx ++ tx) := by
  rw [← hrx, ← htx]
  rfl

/-- `Local` in terms of the blocks of the two buffers. -/
theorem local_blocks {rx tx : List Nat} (rx' tx' : List Nat) (hrx : c.rxBuf.blocks = rx)
    (htx : c.txBuf.blocks = tx) (hrx' : c'.rxBuf.blocks = rx') (htx' : c'.txBuf.blocks = tx')
    (hid : c'.id = c.id) (nodup : (c.id :: (rx' ++ tx')).Nodup)
    (live : ∀ b ∈ c.id :: (rx' ++ tx'), b ∈ h'.live ∧ (b ∈ c.id :: (rx ++ tx) ∨ b ∉ h.live))
    (keep : ∀ b ∈ h.live, b ∉ c.id :: (rx ++ tx) → b ∈ h'.live) : Local h c h' c' := by
  have hblocks := blocks_eq hrx htx
  have hblocks' : c'.blocks = c.id :: (rx' ++ tx') := hid ▸ blocks_eq hrx' htx'
  refine ⟨hblocks' ▸ nodup, fun b hb => ?_, fun b hb => ?_, fun b hb hnot => ?_⟩
  · exact (live b (hblocks' ▸ hb)).1
  · exact hblocks ▸ (live b (hblocks' ▸ hb)).2
  · exact keep b hb (hblocks ▸ hnot)

theorem Serving.framed (serving : Serving ctx grants h c e code h' c' e')
    (nodup : c.blocks.Nodup) (live : ∀ b ∈ c.blocks, b ∈ h.live) : Local h c h' c' := by
  obtain ⟨rx, hrx⟩ : ∃ rx, c.rxBuf.blocks = rx := ⟨_, rfl⟩
  obtain ⟨tx, htx⟩ : ∃ tx, c.txBuf.blocks = tx := ⟨_, rfl⟩
  rw [blocks_eq hrx htx] at nodup live
  have hnext : h.next ∉ h.live := h.next_notMem
  have hnext' : h.next + 1 ∉ h.live := fun hmem => absurd (h.below _ hmem) (by omega)
  cases serving with
  | created hrxcap htxcap =>
    refine local_blocks [h.next] _ hrx htx rfl htx rfl ?_ ?_ ?_ 
    · grind
    · grind [Heap.mem_grow]
    · grind [Heap.mem_grow]
  | createFailed =>
    refine local_blocks _ _ hrx htx rfl htx rfl ?_ ?_ ?_
    · grind [Ptr.blocks]
    · grind [Ptr.blocks]
    · grind
  | finished => exact local_blocks _ _ hrx htx hrx htx rfl nodup (by grind) (by grind)
  | waiting => exact local_blocks _ _ hrx htx hrx htx rfl nodup (by grind) (by grind)
  | skipped => exact local_blocks _ _ hrx htx hrx htx rfl nodup (by grind) (by grind)
  | extended idle hcap hlen hmsg id hbuf =>
    have hrx₀ : rx = [id] := by rw [← hrx, hbuf]; rfl
    subst hrx₀
    refine local_blocks [h.next] _ hrx htx rfl htx rfl ?_ ?_ ?_ 
    · grind
    · grind [Heap.mem_grow, Heap.mem_free, Heap.free]
    · grind [Heap.mem_grow, Heap.mem_free]
  | extendFailed => exact local_blocks _ _ hrx htx hrx htx rfl nodup (by grind) (by grind)
  | replied idle hcap hlen id hbuf hlive tx' hwrite =>
    have hrx₀ : rx = [id] := by rw [← hrx, hbuf]; rfl
    subst hrx₀
    have htx' : tx'.blocks = [h.next] := (writeReply_blocks hwrite).1
    refine local_blocks [h.next + 1] _ hrx htx rfl htx' rfl ?_ ?_ ?_ 
    · grind
    · grind [Heap.mem_grow, Heap.mem_free, Heap.free, Heap.grow]
    · grind [Heap.mem_grow, Heap.mem_free, Heap.free, Heap.grow]
  | replyFailed => 
    refine local_blocks _ _ hrx htx hrx rfl rfl ?_ ?_ ?_
    · grind [Ptr.blocks]
    · grind [Ptr.blocks]
    · grind
  | resetFailed idle denied hlen hcap tx' hblocks => 
    refine local_blocks _ _ hrx htx hrx hblocks rfl ?_ ?_ ?_ 
    · grind
    · grind [Heap.mem_grow]
    · grind [Heap.mem_grow]

theorem tight_blocks {rx tx : List Nat} (rx' tx' : List Nat) (hrx : c.rxBuf.blocks = rx)
    (htx : c.txBuf.blocks = tx) (hrx' : c'.rxBuf.blocks = rx') (htx' : c'.txBuf.blocks = tx')
    (hid : c'.id = c.id)
    (all : ∀ b ∈ h'.live, b ∈ c.id :: (rx' ++ tx') ∨ b ∈ h.live ∧ b ∉ c.id :: (rx ++ tx)) :
    Tight h c h' c' := by
  have hblocks := blocks_eq hrx htx
  have hblocks' : c'.blocks = c.id :: (rx' ++ tx') := hid ▸ blocks_eq hrx' htx'
  intro b hb
  rw [hblocks, hblocks']
  exact all b hb

/-- With a receive buffer only where its capacity says so, and no send buffer
when a request is answered, no block is left behind. -/
theorem Serving.tight (serving : Serving ctx grants h c e code h' c' e')
    (fresh : c.rxCap = 0 → c.txCap = 0 → c.rxBuf.blocks = [])
    (first : Idle c → c.rxLen = c.rxCap → c.rxCap ≠ 4 → c.txBuf.blocks = []) : Tight h c h' c' := by
  obtain ⟨rx, hrx⟩ : ∃ rx, c.rxBuf.blocks = rx := ⟨_, rfl⟩
  obtain ⟨tx, htx⟩ : ∃ tx, c.txBuf.blocks = tx := ⟨_, rfl⟩
  cases serving with
  | created hrxcap htxcap =>
    refine tight_blocks [h.next] _ (fresh hrxcap htxcap) htx rfl htx rfl ?_
    grind [Heap.mem_grow]
  | createFailed hrxcap htxcap =>
    exact tight_blocks [] _ (fresh hrxcap htxcap) htx rfl htx rfl (by grind)
  | finished => exact tight_blocks _ _ hrx htx hrx htx rfl (by grind)
  | waiting => exact tight_blocks _ _ hrx htx hrx htx rfl (by grind)
  | skipped => exact tight_blocks _ _ hrx htx hrx htx rfl (by grind)
  | extended idle hcap hlen hmsg id hbuf =>
    have hrx₀ : c.rxBuf.blocks = [id] := by rw [hbuf]; rfl
    refine tight_blocks [h.next] _ hrx₀ htx rfl htx rfl ?_
    grind [Heap.mem_grow, Heap.mem_free, Heap.free]
  | extendFailed => exact tight_blocks _ _ hrx htx hrx htx rfl (by grind)
  | replied idle hcap hlen id hbuf hlive tx' hwrite =>
    have hrx₀ : c.rxBuf.blocks = [id] := by rw [hbuf]; rfl
    have htx' : tx'.blocks = [h.next] := (writeReply_blocks hwrite).1
    refine tight_blocks [h.next + 1] _ hrx₀ (first idle hlen hcap) rfl htx' rfl ?_
    grind [Heap.mem_grow, Heap.mem_free, Heap.free, Heap.grow]
  | replyFailed idle denied hlen hcap =>
    exact tight_blocks _ [] hrx (first idle hlen hcap) hrx rfl rfl (by grind)
  | resetFailed idle denied hlen hcap tx' hblocks =>
    exact tight_blocks _ _ hrx (first idle hlen hcap) hrx hblocks rfl (by grind [Heap.mem_grow])

theorem Serving.quiet (serving : Serving ctx grants h c e success h' c' e') : e' = e := by
  generalize hcode : success = code at serving
  cases serving <;> first | rfl | exact absurd hcode.symm ‹_›

theorem echo_lawful (ctx : EchoContext) : Lawful (echoActions ctx) where
  alloc g h e id h' e' hrun := by
    obtain ⟨⟨ok, e₁⟩, hmalloc, hend⟩ := bind_eq_ok.mp hrun
    cases ok with
    | false => cases hend
    | true =>
      obtain ⟨hid, rfl, rfl⟩ := ok_triple_inj hend
      obtain rfl := Option.some.inj hid
      exact ⟨h.next_notMem, rfl⟩
  alloc_none g h e h' e' hrun := by
    obtain ⟨⟨ok, e₁⟩, hmalloc, hend⟩ := bind_eq_ok.mp hrun
    cases ok with
    | false =>
      obtain ⟨-, rfl, rfl⟩ := ok_triple_inj hend
      rfl
    | true => cases hend
  free h id h' hrun := by
    obtain ⟨u, hlive, hend⟩ := bind_eq_ok.mp hrun
    obtain rfl := Except.ok.inj hend
    rfl
  free_ok h id hlive := by
    refine ⟨h.free id, ?_⟩
    show echoConnFree h id = _
    simp only [echoConnFree, access_pos hlive, ok_bind]
  quiet grants h c e h' c' e' hrun := (echoConnFunc_serving hrun).quiet

theorem echo_framed (ctx : EchoContext) : Framed (echoActions ctx) :=
  fun _ _ _ _ _ _ _ _ hrun nodup live => (echoConnFunc_serving hrun).framed nodup live

end Blocks
end EchoServer
