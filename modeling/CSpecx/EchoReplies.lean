import CSpecx.EchoFrames

/-!
# The replies on one connection

The bytes written on a connection and those that wait in its send buffer are
the replies to the requests consumed so far, in their order. This holds as long
as no request is completed while an earlier reply is still being sent.
-/

namespace EchoServer

open CExec Component Errors HeapBuffers Polling

/-- The buffers were freed for a removal whose `close` failed. -/
def Freed (c : Connection) : Prop :=
  c.rxBuf = .dangling ∧ c.txBuf = .dangling ∧ 0 < c.rxCap

/-- `rest` has been received and not consumed, `unsent` is still to be sent. -/
structure Holds (c : Connection) (rest unsent : List UInt8) : Prop where
  sound : Sound c
  rest_eq : rest = c.rxBuf.bytes.take c.rxLen
  unsent_eq : unsent = (c.txBuf.bytes.take c.txCap).drop c.txSent

/-- How often `echo_conn_func` has changed the connection since the last request
was consumed, up to a constant. -/
def stage (c : Connection) : Nat :=
  (if 0 < c.rxCap then 1 else 0) + (if 4 < c.rxCap then 1 else 0) + if c.txCap = 0 then 1 else 0

/-- The requests `msgs` are consumed and answered, the rest is in the buffers. -/
def Answered (ctx : EchoContext) (c : Connection) : Prop :=
  ∃ msgs rest unsent, (∀ m ∈ msgs, Small ctx m) ∧ c.sock.received = frames msgs ++ rest ∧
    c.sock.written ++ unsent = answers ctx msgs ∧ (Freed c ∨ Holds c rest unsent)

/-- The client sends requests, allocations succeed, and a complete request
meets no reply that is still being sent. -/
def Conversing (ctx : EchoContext) (grants : Nat → Grant) (c : Connection) : Prop :=
  (∀ k, (grants k).granted = true) ∧ Requests ctx c.sock.received ∧
    (Idle c → 4 < c.rxCap → c.rxLen = c.rxCap → c.txCap = 0)

section Serving

variable {ctx : EchoContext} {grants : Nat → Grant} {h h' : Heap} {c c' : Connection}
  {e e' : ErrorObject} {code : Int} {r : RecvResult} {s : SendResult} {rest unsent : List UInt8}
  {msgs : List (List UInt8)}

/-- The prefix in the buffer is that of the next request of the stream. -/
theorem Holds.next (holds : Holds c rest unsent) (hrequests : Requests ctx (frames msgs ++ rest))
    (hold : ∀ m ∈ msgs, Small ctx m) (hfour : 4 ≤ c.rxLen) :
    ∃ m, Small ctx m ∧ msgLength c = m.length ∧ (c.rxLen = 4 + m.length → rest = frame m) := by
  have hlen : rest.length = c.rxLen := by
    have hcap := holds.sound.rxLen
    have hsize : c.rxCap = c.rxBuf.bytes.length := holds.sound.rxSize
    rw [holds.rest_eq, List.length_take]
    omega
  obtain ⟨m, hm, hdecode, hwhole⟩ := next_request_length hrequests hold (hlen ▸ hfour)
  refine ⟨m, hm, ?_, fun hfull => hwhole (hlen.trans hfull)⟩
  rw [← hdecode, holds.rest_eq, ← decode_take (c.rxBuf.bytes.take c.rxLen), List.take_take,
    Nat.min_eq_left hfour]
  rfl

theorem Small.range {m : List UInt8} (small : Small ctx m) :
    ctx.plen = ctx.pre.length ∧ ctx.slen = ctx.suf.length ∧
      m.length + ctx.plen + ctx.slen + 4 < 2 ^ 32 := by
  have hsum := small.2
  have hplen : ctx.plen = ctx.pre.length := u32_of_lt (by omega)
  have hslen : ctx.slen = ctx.suf.length := u32_of_lt (by omega)
  exact ⟨hplen, hslen, by omega⟩

/-- A client that sends requests stays in range. -/
theorem Holds.fitting (holds : Holds c rest unsent) (hrequests : Requests ctx (frames msgs ++ rest))
    (hold : ∀ m ∈ msgs, Small ctx m) (granted : ∀ k, (grants k).granted = true) :
    Fitting ctx grants c := by
  refine ⟨granted, ⟨fun _ _ hlen => ?_, fun _ hbody hlen => ?_⟩⟩
  · obtain ⟨m, hm, hmsg, -⟩ := holds.next hrequests hold hlen.ge
    have hsum := hm.2
    omega
  · obtain ⟨m, hm, hmsg, -⟩ := holds.next hrequests hold (by omega)
    rw [hmsg]
    exact hm.range.2.2

/-- The frame that the server writes for a request in its buffer. -/
theorem answer_written {tx : Ptr} {m : List UInt8} {id : Nat} {bytes : List UInt8}
    (hm : Small ctx m) (hbuf : c.rxBuf.bytes = frame m) (hblock : c.rxBuf.blocks ≠ [])
    (hsize : bytes.length = frameLength ctx m.length)
    (hwrite : writeReply ctx (.block id bytes) c.rxBuf m.length
      (u32 (m.length + ctx.plen + ctx.slen)) = .ok (tx, frameLength ctx m.length)) :
    tx.bytes = answer ctx m := by
  obtain ⟨hplen, hslen, hsum⟩ := hm.range
  obtain ⟨hmsg, hframe⟩ := frameLength_eq hsum
  have hrx : 4 + m.length ≤ c.rxBuf.size := by
    show 4 + m.length ≤ c.rxBuf.bytes.length
    rw [hbuf, length_frame]
  rw [hmsg, writeReply_eq id hsum hrx hblock (hsize.trans hframe)] at hwrite
  obtain ⟨rfl, -⟩ := ok_pair_inj hwrite
  have hlen : (ctx.pre ++ m ++ ctx.suf).length = m.length + ctx.pre.length + ctx.suf.length := by
    simp only [List.length_append]
    omega
  have hbody : (c.rxBuf.bytes.drop 4).take m.length = m := by
    rw [hbuf, frame, List.drop_left' (length_setPrefix _), List.take_length]
  rw [bytes_block, hbody, answer, frame, hlen, hplen, hslen, List.take_length, List.take_length]
  simp only [List.append_assoc]

/-- A call keeps what the connection holds, or it consumes one request and
holds the reply to it. -/
theorem Serving.holds (serving : Serving ctx grants h c e code h' c' e')
    (holds : Holds c rest unsent) (granted : ∀ k, (grants k).granted = true)
    (hrequests : Requests ctx (frames msgs ++ rest)) (hold : ∀ m ∈ msgs, Small ctx m)
    (hclear : Idle c → 4 < c.rxCap → c.rxLen = c.rxCap → c.txCap = 0) :
    c'.sock = c.sock ∧
      ((Holds c' rest unsent ∧ ((c' = c ∧ c.rxLen < c.rxCap) ∨ stage c' = stage c + 1)) ∨
        ∃ m, Small ctx m ∧ rest = frame m ∧ unsent = [] ∧ Holds c' [] (answer ctx m) ∧
          stage c' + 2 = stage c) := by
  have fitting : Fitting ctx grants c := holds.fitting hrequests hold granted
  have sound' := serving.sound holds.sound fitting
  have sound := holds.sound
  have hlen := sound.rxLen
  cases serving with
  | created hrx htx =>
    refine ⟨rfl, .inl ⟨⟨sound', ?_, holds.unsent_eq⟩, .inr ?_⟩⟩
    · have hzero : c.rxLen = 0 := by omega
      rw [holds.rest_eq, hzero, List.take_zero, List.take_zero]
    · simp [stage, hrx, htx]
  | createFailed _ _ denied => cases (granted 0).symm.trans denied
  | finished htx hsent =>
    refine ⟨rfl, .inl ⟨⟨sound', holds.rest_eq, ?_⟩, .inr ?_⟩⟩
    · rw [holds.unsent_eq, hsent, List.take_zero, List.drop_nil]
      exact List.drop_eq_nil_of_le (List.length_take_le _ _)
    · have hpos : c.txCap ≠ 0 := by omega
      simp [stage, hpos]
  | waiting _ hwait => exact ⟨rfl, .inl ⟨holds, .inl ⟨rfl, hwait⟩⟩⟩
  | skipped hrx hfour hzero =>
    obtain ⟨m, hm, hmsg, -⟩ := holds.next hrequests hold hfour
    exact absurd (List.eq_nil_of_length_eq_zero (hmsg.symm.trans hzero)) hm.1
  | extended idle hrx hfour hmsg id hbuf hlive hpos =>
    have htotal := u32_of_lt (fitting.2.total idle hrx (by omega))
    have hsize : c.rxBuf.bytes.length = 4 := (sound.rxSize.symm : c.rxBuf.size = _).trans hrx
    refine ⟨rfl, .inl ⟨⟨sound', ?_, holds.unsent_eq⟩, .inr ?_⟩⟩
    · rw [holds.rest_eq]
      show c.rxBuf.bytes.take c.rxLen = (c.rxBuf.bytes.take _ ++ _).take c.rxLen
      rw [htotal, List.take_of_length_le (l := c.rxBuf.bytes) (i := 4 + msgLength c) (by omega),
        List.take_append_of_le_length (by omega)]
    · have hbody : 4 < 4 + msgLength c := by omega
      have hpos : 0 < 4 + msgLength c := by omega
      simp only [stage, htotal, hrx, if_pos hbody, if_pos hpos]
      simp
      omega
  | extendFailed denied => cases (granted 0).symm.trans denied
  | replied idle hrx hfull id hbuf hlive tx hwrite =>
    have hbody : 4 < c.rxCap ∧ 4 ≤ c.rxLen ∧ c.rxCap = 4 + msgLength c := by
      rcases sound.phase with ⟨-, hnull, -⟩ | hbegin | hbody
      · cases hnull.symm.trans hbuf
      · exact absurd hbegin hrx
      · exact hbody
    have htx := hclear idle hbody.1 hfull
    obtain ⟨m, hm, hmsg, hwhole⟩ := holds.next hrequests hold hbody.2.1
    have hrest : rest = frame m := hwhole (by omega)
    have hbytes : c.rxBuf.bytes = frame m := by
      rw [← hrest, holds.rest_eq, List.take_of_length_le]
      exact (sound.rxSize.symm : c.rxBuf.size = _).le.trans hfull.ge
    have hsize : tx.size = frameLength ctx (msgLength c) :=
      (writeReply_blocks hwrite).2.trans (Grant.length_fill _ _)
    have hpos : frameLength ctx (msgLength c) ≠ 0 := by
      rw [hmsg, (frameLength_eq hm.range.2.2).2]
      omega
    refine ⟨rfl, .inr ⟨m, hm, hrest, ?_, ⟨sound', List.take_zero.symm, ?_⟩, ?_⟩⟩
    · rw [holds.unsent_eq, htx, List.take_zero, List.drop_nil]
    · have hanswer : tx.bytes = answer ctx m := by
        rw [hmsg] at hwrite
        exact answer_written hm hbytes (by rw [hbuf]; exact List.cons_ne_nil _ _)
          (Grant.length_fill _ _) hwrite
      show answer ctx m = (tx.bytes.take (frameLength ctx (msgLength c))).drop 0
      rw [List.drop_zero, List.take_of_length_le hsize.le, hanswer]
    · have hcap : 0 < c.rxCap := by omega
      simp [stage, htx, hbody.1, hcap, hpos]
  | replyFailed _ denied => cases (granted 0).symm.trans denied
  | resetFailed _ denied => cases (granted 1).symm.trans denied

/-- A connection whose buffers were freed is left alone or faults. -/
theorem Serving.freed (serving : Serving ctx grants h c e code h' c' e') (freed : Freed c)
    (granted : ∀ k, (grants k).granted = true) : Freed c' ∧ c'.sock = c.sock := by
  obtain ⟨hrxBuf, htxBuf, hcap⟩ := freed
  cases serving with
  | created hrx => omega
  | createFailed _ _ denied => cases (granted 0).symm.trans denied
  | finished => exact ⟨⟨hrxBuf, htxBuf, hcap⟩, rfl⟩
  | waiting => exact ⟨⟨hrxBuf, htxBuf, hcap⟩, rfl⟩
  | skipped => exact ⟨⟨hrxBuf, htxBuf, hcap⟩, rfl⟩
  | extended _ _ _ _ id hbuf => cases hrxBuf.symm.trans hbuf
  | extendFailed denied => cases (granted 0).symm.trans denied
  | replied _ _ _ id hbuf => cases hrxBuf.symm.trans hbuf
  | replyFailed _ denied => cases (granted 0).symm.trans denied
  | resetFailed _ denied => cases (granted 1).symm.trans denied

theorem Serving.answered (serving : Serving ctx grants h c e code h' c' e')
    (answered : Answered ctx c) (conversing : Conversing ctx grants c) : Answered ctx c' := by
  obtain ⟨msgs, rest, unsent, hold, hreceived, hwritten, hstate⟩ := answered
  obtain ⟨granted, hrequests, hclear⟩ := conversing
  rcases hstate with freed | holds
  · obtain ⟨freed', hsock⟩ := serving.freed freed granted
    exact ⟨msgs, rest, unsent, hold, hsock ▸ hreceived, hsock ▸ hwritten, .inl freed'⟩
  · rw [hreceived] at hrequests
    obtain ⟨hsock, ⟨holds', -⟩ | ⟨m, hm, hrest, hunsent, holds', -⟩⟩ :=
      serving.holds holds granted hrequests hold hclear
    · exact ⟨msgs, rest, unsent, hold, hsock ▸ hreceived, hsock ▸ hwritten, .inr holds'⟩
    · refine ⟨msgs ++ [m], [], answer ctx m, fun k hk => ?_, ?_, ?_, .inr holds'⟩
      · rcases List.mem_append.mp hk with hk | hk
        · exact hold k hk
        · exact List.mem_singleton.mp hk ▸ hm
      · rw [hsock, hreceived, hrest, frames_append, List.append_nil]
        simp
      · rw [hunsent, List.append_nil] at hwritten
        rw [hsock, hwritten, answers_append]
        simp [answers]

/-- A read keeps what the connection holds and appends to it. -/
theorem handleRead_holds (holds : Holds c rest unsent)
    (hrun : handleRead r c e = .ok (code, c', e')) :
    (c' = c ∧ Ends r) ∨ ∃ got, got ≠ [] ∧ Holds c' (rest ++ got) unsent ∧ stage c' = stage c ∧
      c'.sock = { c.sock with received := c.sock.received ++ got } ∧
      ∃ bytes, r = .data bytes ∧ got <+: bytes := by
  obtain ⟨hlt, ⟨rfl, -, hends, -⟩ | ⟨got, p, hne, hgot, hstore, hc', -, -, bytes, hr, -,
    hbegin⟩⟩ := handleRead_cases hrun
  · exact .inl ⟨rfl, hends⟩
  · have sound' := handleRead_sound holds.sound hrun
    subst hc'
    refine .inr ⟨got, hne, ⟨sound', ?_, holds.unsent_eq⟩, rfl, rfl, bytes, hr, hbegin⟩
    have hsmall := holds.sound.rxSmall
    have hsize : c.rxCap = c.rxBuf.bytes.length := holds.sound.rxSize
    obtain ⟨-, hbytes⟩ := store_bytes hstore
    have hfront : (c.rxBuf.bytes.take c.rxLen ++ got).length = c.rxLen + got.length := by
      rw [List.length_append, List.length_take]
      omega
    show rest ++ got = p.bytes.take (u32 (c.rxLen + got.length))
    rw [u32_of_lt (by omega), hbytes, ← hfront, List.take_left, holds.rest_eq]

/-- A write sends the first bytes that are unsent. -/
theorem handleWrite_holds (holds : Holds c rest unsent)
    (hrun : handleWrite s c e = .ok (c', e')) :
    (c' = c ∧ e'.causeCode ≠ success) ∨ ∃ bytes unsent',
      unsent = bytes ++ unsent' ∧ Holds c' rest unsent' ∧
      stage c' = stage c ∧ c'.sock = { c.sock with written := c.sock.written ++ bytes } ∧
      ∃ n, s = .sent n ∧ bytes.length = min n (c.txCap - c.txSent) := by
  obtain ⟨hlt, ⟨rfl, -, msg, rfl⟩ | ⟨n, bytes, hn, hload, hc', -, k, hs, hk⟩⟩ :=
    handleWrite_cases hrun
  · exact .inl ⟨rfl, errorCausef_io⟩
  · have sound' := handleWrite_sound holds.sound hrun
    have hsmall := holds.sound.txSmall
    obtain ⟨-, -, hfits, hbytes⟩ := load_cases hload
    have hlen : bytes.length = n := by
      have hfits : c.txSent + n ≤ c.txBuf.bytes.length := hfits
      rw [hbytes, List.length_take, List.length_drop]
      omega
    have hsplit : unsent = bytes ++ (c.txBuf.bytes.take c.txCap).drop (c.txSent + n) := by
      have hfirst : bytes = ((c.txBuf.bytes.take c.txCap).drop c.txSent).take n := by
        rw [hbytes, List.drop_take, List.take_take, Nat.min_eq_left hn]
      rw [holds.unsent_eq, ← List.drop_drop, hfirst, List.take_append_drop]
    subst hc'
    refine .inr ⟨bytes, _, hsplit, ⟨sound', holds.rest_eq, ?_⟩, rfl, rfl, k, hs, hlen.trans hk⟩
    show _ = (c.txBuf.bytes.take c.txCap).drop (u32 (c.txSent + bytes.length))
    rw [hlen, u32_of_lt (by omega)]

theorem handleRead_answered (answered : Answered ctx c)
    (hrun : handleRead r c e = .ok (code, c', e')) : Answered ctx c' := by
  obtain ⟨msgs, rest, unsent, hold, hreceived, hwritten, hstate⟩ := answered
  rcases hstate with ⟨hrxBuf, htxBuf, hcap⟩ | holds
  · obtain ⟨-, ⟨rfl, -⟩ | ⟨got, p, -, -, hstore, -⟩⟩ := handleRead_cases hrun
    · exact ⟨msgs, rest, unsent, hold, hreceived, hwritten, .inl ⟨hrxBuf, htxBuf, hcap⟩⟩
    · rw [hrxBuf] at hstore
      cases hstore
  · rcases handleRead_holds holds hrun with ⟨rfl, -⟩ | ⟨got, -, holds', -, hsock, -⟩
    · exact ⟨msgs, rest, unsent, hold, hreceived, hwritten, .inr holds⟩
    · refine ⟨msgs, rest ++ got, unsent, hold, ?_, ?_, .inr holds'⟩
      · rw [hsock, ← List.append_assoc, ← hreceived]
      · rw [hsock]
        exact hwritten

theorem handleWrite_answered (answered : Answered ctx c)
    (hrun : handleWrite s c e = .ok (c', e')) : Answered ctx c' := by
  obtain ⟨msgs, rest, unsent, hold, hreceived, hwritten, hstate⟩ := answered
  rcases hstate with ⟨hrxBuf, htxBuf, hcap⟩ | holds
  · obtain ⟨-, ⟨rfl, -⟩ | ⟨n, bytes, -, hload, -⟩⟩ := handleWrite_cases hrun
    · exact ⟨msgs, rest, unsent, hold, hreceived, hwritten, .inl ⟨hrxBuf, htxBuf, hcap⟩⟩
    · rw [htxBuf] at hload
      cases hload
  · rcases handleWrite_holds holds hrun with ⟨rfl, -⟩ | ⟨bytes, unsent', rfl, holds', -, hsock, -⟩
    · exact ⟨msgs, rest, unsent, hold, hreceived, hwritten, .inr holds⟩
    · refine ⟨msgs, rest, unsent', hold, ?_, ?_, .inr holds'⟩
      · rw [hsock]
        exact hreceived
      · rw [hsock]
        exact (List.append_assoc _ _ _).trans hwritten

theorem freeBuffers_answered (answered : Answered ctx c) (hrun : freeBuffers c h = .ok (c', h')) :
    Answered ctx c' := by
  obtain ⟨msgs, rest, unsent, hold, hreceived, hwritten, hstate⟩ := answered
  obtain ⟨rx, rxBytes, tx, txBytes, hrx, -, -, -, -, rfl⟩ := freeBuffers_cases hrun
  refine ⟨msgs, rest, unsent, hold, hreceived, hwritten, .inl ⟨rfl, rfl, ?_⟩⟩
  rcases hstate with ⟨hrxBuf, -⟩ | holds
  · cases hrxBuf.symm.trans hrx
  · show 0 < c.rxCap
    rcases holds.sound.phase with ⟨-, hnull, -⟩ | hbegin | ⟨hbody, -⟩
    · cases hnull.symm.trans hrx
    · omega
    · omega

theorem answered_fresh {id : Nat} {fd : Int} : Answered ctx (.fresh id fd) :=
  ⟨[], [], [], fun _ hm => absurd hm List.not_mem_nil, rfl, rfl, .inr ⟨sound_fresh, rfl, rfl⟩⟩

theorem answered_keeps (ctx : EchoContext) :
    Keeps (echoActions ctx) (Conversing ctx) False (Answered ctx) where
  fresh _ _ := answered_fresh
  serve _ _ _ _ _ _ _ _ answered conversing hrun :=
    (echoConnFunc_serving hrun).answered answered conversing
  read _ _ _ _ _ _ answered hrun := handleRead_answered answered hrun
  write _ _ _ _ _ answered hrun := handleWrite_answered answered hrun
  free _ _ _ _ _ answered hrun := freeBuffers_answered answered hrun

end Serving

section Replies

variable {ctx : EchoContext} {st : State} {fd : Int} {conns : Nat → Option Connection}
  {fds : Nat → PollFd} {h : Heap} {e : ErrorObject}

/-- In every state of a run in which no request is completed before the earlier
reply is sent, what is written and what is still unsent are the replies in order. -/
theorem replies_kept
    (reached : Reached (echoActions ctx) (Conversing ctx) False (opened fd conns fds h e) st) :
    AllServed (Answered ctx) st := (answered_keeps ctx).reached (echo_lawful ctx) reached

/-- The first request is answered, and the reply to the second one is partly written. -/
theorem two_replies_kept :
    ∃ st c, Reached (echoActions ⟨[91], [93]⟩) (Conversing ⟨[91], [93]⟩) False started st ∧
      Serves st 1 c ∧ c.sock.received = frames [[97], [98]] ∧
      c.sock.written = [0, 0, 0, 3, 91, 97, 93, 0, 0, 0] ∧ (c.txCap, c.txSent) = (7, 3) ∧
      AllServed (Answered ⟨[91], [93]⟩) st := by
  obtain ⟨ok, hok⟩ : ∃ ok : Connection → Bool, ok = fun c =>
      c.sock.received.isPrefixOf (frames [[97], [98]]) &&
        (decide (c.txCap = 0) || decide (c.rxCap = 4)) := ⟨_, rfl⟩
  obtain ⟨as, has⟩ : ∃ as, as = [connects, sends [0, 0, 0, 1], sends [97], takes 3, takes 4,
      sends [0, 0, 0, 1], sends [98], takes 3] := ⟨_, rfl⟩
  obtain ⟨st, hrun, hlen, hconn⟩ : ∃ st, callsWhile ⟨[91], [93]⟩ ok as started = .ok st ∧
      st.ps.len = 2 ∧
      (st.ps.conns 1).map (fun c => (c.sock.received, c.sock.written, c.txCap, c.txSent)) =
        some (frames [[97], [98]], [0, 0, 0, 3, 91, 97, 93, 0, 0, 0], 7, 3) := by
    subst hok has
    exact ⟨_, rfl, rfl, rfl⟩
  obtain ⟨c, hc, hfields⟩ := Option.map_eq_some_iff.mp hconn
  simp only [Prod.mk.injEq] at hfields
  obtain ⟨hreceived, hwritten, htxCap, htxSent⟩ := hfields
  have small : ∀ m ∈ [[97], [98]], Small ⟨[91], [93]⟩ m := by simp [Small]
  have meets : ∀ a ∈ as, ∀ i c, ok c = true → Conversing ⟨[91], [93]⟩ (a.grants i) c := by
    intro a ha i c hc
    have granted : ∀ k, (a.grants i k).granted = true := by
      subst has
      revert a
      simp [connects, sends, takes]
    rw [hok, Bool.and_eq_true, Bool.or_eq_true, List.isPrefixOf_iff_prefix] at hc
    refine ⟨granted, ⟨_, small, hc.1⟩, fun _ hbody _ => ?_⟩
    rcases hc.2 with hsent | hprefix
    · exact of_decide_eq_true hsent
    · exact absurd (of_decide_eq_true hprefix) (Nat.ne_of_gt hbody)
  have closed : ∀ a ∈ as, ∀ i, a.closed i = true := by
    subst has
    simp [connects, sends, takes]
  obtain ⟨⟨tr, run⟩, -⟩ := callsWhile_run meets closed hrun
  exact ⟨st, c, .ended run, ⟨Nat.one_pos, by omega, hc⟩, hreceived, hwritten,
    by rw [htxCap, htxSent], replies_kept (.ended run)⟩

/-- Two requests in a row, and only the reply to the second one is written. -/
theorem pipelined_reply_lost :
    ∃ tr st c, Trace (server (echoActions ⟨[], []⟩) (fun grants _ => ∀ k, (grants k).granted = true)
        False) started tr st ∧ Serves st 1 c ∧ c.sock.received = frames [[97], [98]] ∧
      c.sock.written = [0, 0, 0, 1, 98] ∧
      ¬ c.sock.written <+: answers ⟨[], []⟩ [[97], [98]] := by
  obtain ⟨tr, st, run, hserved⟩ : ∃ tr st,
      Trace (server (echoActions ⟨[], []⟩) (fun grants _ => ∀ k, (grants k).granted = true) False)
        started tr st ∧
      (st.ps.len = 2 ∧ (st.ps.conns 1).map (fun c => (c.sock.received, c.sock.written)) =
        some (frames [[97], [98]], [0, 0, 0, 1, 98])) :=
    ⟨[((errorCreate, connects), _), ((errorCreate, sends [0, 0, 0, 1]), _),
      ((errorCreate, sends [97]), _), ((errorCreate, sends [0, 0, 0, 1]), _),
      ((errorCreate, sends [98]), _), ((errorCreate, takes 5), _)], _,
      .cons ⟨fun _ _ _ _ => rfl, False.elim⟩ rfl (.cons ⟨fun _ _ _ _ => rfl, False.elim⟩ rfl
        (.cons ⟨fun _ _ _ _ => rfl, False.elim⟩ rfl (.cons ⟨fun _ _ _ _ => rfl, False.elim⟩ rfl
          (.cons ⟨fun _ _ _ _ => rfl, False.elim⟩ rfl (.cons ⟨fun _ _ _ _ => rfl, False.elim⟩ rfl
            (.nil _)))))), rfl, rfl⟩
  obtain ⟨hlen, hsock⟩ := hserved
  obtain ⟨c, hc, hpair⟩ := Option.map_eq_some_iff.mp hsock
  obtain ⟨hreceived, hwritten⟩ := Prod.mk.inj hpair
  refine ⟨tr, st, c, run, ⟨Nat.one_pos, by omega, hc⟩, hreceived, hwritten, ?_⟩
  rw [hwritten]
  decide

end Replies

end EchoServer
