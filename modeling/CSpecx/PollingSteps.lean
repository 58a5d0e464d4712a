import CSpecx.PollingServer
import Mathlib.Logic.Relation

/-!
# What a call of the polling server does to its connections

Every `pserv_execute` that returns is a sequence of steps, each on one
connection: it is served by `conn_func`, it reads, it writes, it is freed and
dropped, or it is added. Invariants are proved of these steps.
-/

namespace Polling

open CExec Errors HeapBuffers

def Serves (st : State) (i : Nat) (c : Connection) : Prop :=
  0 < i ∧ i < st.ps.len ∧ st.ps.conns i = some c

/-- The blocks a connection owns: its own structure and its buffers. -/
def Connection.blocks (c : Connection) : List Nat := c.id :: (c.rxBuf.blocks ++ c.txBuf.blocks)

/-- The steps in which the calls of `conn_func` meet `P`, and in which a `close`
fails only unless `closes`. -/
inductive Step (actions : ConnActions) (P : (Nat → Grant) → Connection → Prop) (closes : Prop)
    (st st' : State) : Prop where
  | idle (hconns : st'.ps.conns = st.ps.conns) (hlen : st'.ps.len = st.ps.len)
      (hlive : st'.heap.live = st.heap.live)
  | serve (i : Nat) (c c' : Connection) (grants : Nat → Grant) (code : Int) (e e' : ErrorObject)
      (serves : Serves st i c) (meets : P grants c)
      (hrun : actions.connFunc grants st.heap c e = .ok (code, st'.heap, c', e'))
      (hconns : st'.ps.conns = Function.update st.ps.conns i (some c'))
      (hlen : st'.ps.len = st.ps.len)
  | read (i : Nat) (c c' : Connection) (r : RecvResult) (code : Int) (e e' : ErrorObject)
      (serves : Serves st i c) (hrun : handleRead r c e = .ok (code, c', e'))
      (hconns : st'.ps.conns = Function.update st.ps.conns i (some c'))
      (hlen : st'.ps.len = st.ps.len) (hheap : st'.heap = st.heap)
  | write (i : Nat) (c c' : Connection) (s : SendResult) (e e' : ErrorObject)
      (serves : Serves st i c) (hrun : handleWrite s c e = .ok (c', e'))
      (hconns : st'.ps.conns = Function.update st.ps.conns i (some c'))
      (hlen : st'.ps.len = st.ps.len) (hheap : st'.heap = st.heap)
  | free (i : Nat) (c c' : Connection) (serves : Serves st i c) (fails : ¬ closes)
      (hrun : freeBuffers c st.heap = .ok (c', st'.heap))
      (hconns : st'.ps.conns = Function.update st.ps.conns i (some c'))
      (hlen : st'.ps.len = st.ps.len)
  | drop (i : Nat) (c c' : Connection) (h : Heap) (serves : Serves st i c)
      (hfree : freeBuffers c st.heap = .ok (c', h))
      (hrun : actions.connFree h c.id = .ok st'.heap)
      (hconns : ∀ j < st.ps.len - 1,
        st'.ps.conns j = if j = i then st.ps.conns (st.ps.len - 1) else st.ps.conns j)
      (hlen : st'.ps.len = st.ps.len - 1)
  | add (id : Nat) (fd : Int) (hnew : id ∉ st.heap.live)
      (hlive : st'.heap.live = insert id st.heap.live)
      (hconns : st'.ps.conns = Function.update st.ps.conns st.ps.len (some (.fresh id fd)))
      (hlen : st'.ps.len = st.ps.len + 1)

abbrev Steps (actions : ConnActions) (P : (Nat → Grant) → Connection → Prop) (closes : Prop) :
    State → State → Prop := Relation.ReflTransGen (Step actions P closes)

/-- A step with the whole server behind it: which descriptors are polled, how many
entries there is room for, and whether the arrays are there. -/
inductive Move (actions : ConnActions) (P : (Nat → Grant) → Connection → Prop) (closes : Prop)
    (st st' : State) : Prop where
  | idle (fds : Nat → PollFd) (hps : st'.ps = { st.ps with fds := fds })
      (hfds : ∀ j, (fds j).fd = (st.ps.fds j).fd) (hlive : st'.heap.live = st.heap.live)
  | serve (i : Nat) (c c' : Connection) (grants : Nat → Grant) (code : Int) (e e' : ErrorObject)
      (serves : Serves st i c) (meets : P grants c)
      (hrun : actions.connFunc grants st.heap c e = .ok (code, st'.heap, c', e'))
      (hps : st'.ps = { st.ps with conns := Function.update st.ps.conns i (some c') })
  | read (i : Nat) (c c' : Connection) (r : RecvResult) (code : Int) (e e' : ErrorObject)
      (serves : Serves st i c) (hrun : handleRead r c e = .ok (code, c', e'))
      (hps : st'.ps = { st.ps with conns := Function.update st.ps.conns i (some c') })
      (hheap : st'.heap = st.heap)
  | write (i : Nat) (c c' : Connection) (s : SendResult) (e e' : ErrorObject)
      (serves : Serves st i c) (hrun : handleWrite s c e = .ok (c', e'))
      (hps : st'.ps = { st.ps with conns := Function.update st.ps.conns i (some c') })
      (hheap : st'.heap = st.heap)
  | free (i : Nat) (c c' : Connection) (serves : Serves st i c) (fails : ¬ closes)
      (hrun : freeBuffers c st.heap = .ok (c', st'.heap))
      (hps : st'.ps = { st.ps with conns := Function.update st.ps.conns i (some c') })
  | drop (i : Nat) (c c' : Connection) (h : Heap) (serves : Serves st i c)
      (hfree : freeBuffers c st.heap = .ok (c', h))
      (hrun : actions.connFree h c.id = .ok st'.heap)
      (hps : st'.ps = { st.ps with
        fds := Function.update st.ps.fds i (st.ps.fds (st.ps.len - 1))
        conns := Function.update (Function.update st.ps.conns i (some c')) i
          (Function.update st.ps.conns i (some c') (st.ps.len - 1))
        len := st.ps.len - 1 })
  | add (id : Nat) (fd : Int) (cap : Nat) (hnew : id ∉ st.heap.live)
      (hlive : st'.heap.live = insert id st.heap.live) (hroom : st.ps.len < cap)
      (hps : st'.ps = { st.ps with
        fds := Function.update st.ps.fds st.ps.len ⟨fd, Events.none, Events.none⟩
        conns := Function.update st.ps.conns st.ps.len (some (.fresh id fd))
        len := st.ps.len + 1
        cap := cap })

abbrev Moves (actions : ConnActions) (P : (Nat → Grant) → Connection → Prop) (closes : Prop) :
    State → State → Prop := Relation.ReflTransGen (Move actions P closes)

/-- What the actions promise: a connection call touches the blocks of its own
connection and new ones, and reports success only with the error object as it was. -/
structure Lawful (actions : ConnActions) : Prop where
  alloc : ∀ g h e id h' e', actions.connAlloc g h e = .ok (some id, h', e') →
    id ∉ h.live ∧ h'.live = insert id h.live
  alloc_none : ∀ g h e h' e', actions.connAlloc g h e = .ok (none, h', e') → h'.live = h.live
  free : ∀ h id h', actions.connFree h id = .ok h' → h'.live = h.live.erase id
  free_ok : ∀ h id, id ∈ h.live → ∃ h', actions.connFree h id = .ok h'
  quiet : ∀ grants h c e h' c' e', actions.connFunc grants h c e = .ok (success, h', c', e') →
    e' = e

section Handlers

variable {c c' : Connection} {h h' : Heap} {e e' : ErrorObject} {code : Int} {r : RecvResult}
  {s : SendResult}

/-- What a read can do: fail, or append bytes to the buffer. -/
theorem handleRead_cases (hrun : handleRead r c e = .ok (code, c', e')) :
    c.rxLen < c.rxCap ∧
    ((c' = c ∧ code = e'.causeCode ∧ (r = .failed ∨ r = .data []) ∧
        ∃ msg, e' = (errorCausef e errIo msg).2) ∨
      ∃ got p, got ≠ [] ∧ got.length ≤ c.rxCap - c.rxLen ∧ c.rxBuf.store c.rxLen got = .ok p ∧
        c' = { c with
          rxBuf := p
          rxLen := u32 (c.rxLen + got.length)
          sock := { c.sock with received := c.sock.received ++ got } } ∧
        code = e.causeCode ∧ e' = e ∧
        ∃ bytes, r = .data bytes ∧ bytes ≠ [] ∧ got <+: bytes) := by
  obtain ⟨u, hlt, hrun⟩ := bind_eq_ok.mp hrun
  have hlt := assert_eq_ok_iff.mp hlt
  obtain ⟨-, -, hrun⟩ := bind_eq_ok.mp hrun
  refine ⟨hlt, ?_⟩
  cases r with
  | failed =>
    obtain ⟨rfl, rfl, rfl⟩ := ok_triple_inj hrun
    exact .inl ⟨rfl, rfl, .inl rfl, _, rfl⟩
  | data bytes =>
    have hroom : 0 < c.rxCap - c.rxLen := by omega
    by_cases hgot : bytes.take (c.rxCap - c.rxLen) = []
    · simp only [if_pos hgot] at hrun
      obtain ⟨rfl, rfl, rfl⟩ := ok_triple_inj hrun
      have hbytes : bytes = [] := by
        rcases List.take_eq_nil_iff.mp hgot with hzero | hnil
        · omega
        · exact hnil
      exact .inl ⟨rfl, rfl, .inr (by rw [hbytes]), _, rfl⟩
    · simp only [if_neg hgot] at hrun
      obtain ⟨p, hstore, hrun⟩ := bind_eq_ok.mp hrun
      obtain ⟨rfl, rfl, rfl⟩ := ok_triple_inj hrun
      refine .inr ⟨_, p, hgot, List.length_take_le _ _, hstore, rfl, rfl, rfl, bytes, rfl, ?_,
        List.take_prefix _ _⟩
      rintro rfl
      exact hgot List.take_nil

/-- What a write can do: fail, or send bytes of the buffer. -/
theorem handleWrite_cases (hrun : handleWrite s c e = .ok (c', e')) :
    c.txSent < c.txCap ∧
    ((c' = c ∧ s = .failed ∧ ∃ msg, e' = (errorCausef e errIo msg).2) ∨
      ∃ n bytes, n ≤ c.txCap - c.txSent ∧ c.txBuf.load c.txSent n = .ok bytes ∧
        c' = { c with
          txSent := u32 (c.txSent + bytes.length)
          sock := { c.sock with written := c.sock.written ++ bytes } } ∧
        e' = e ∧ ∃ k, s = .sent k ∧ n = min k (c.txCap - c.txSent)) := by
  obtain ⟨u, hlt, hrun⟩ := bind_eq_ok.mp hrun
  have hlt := assert_eq_ok_iff.mp hlt
  obtain ⟨-, -, hrun⟩ := bind_eq_ok.mp hrun
  refine ⟨hlt, ?_⟩
  cases s with
  | failed =>
    obtain ⟨rfl, rfl⟩ := ok_pair_inj hrun
    exact .inl ⟨rfl, rfl, _, rfl⟩
  | sent n =>
    obtain ⟨bytes, hload, hrun⟩ := bind_eq_ok.mp hrun
    obtain ⟨rfl, rfl⟩ := ok_pair_inj hrun
    exact .inr ⟨_, bytes, Nat.min_le_right _ _, hload, rfl, rfl, n, rfl, rfl⟩

theorem iFree_cases {p : Ptr} (hrun : iFree p h = .ok h') :
    ∃ id bytes, p = .block id bytes ∧ id ∈ h.live ∧ h' = h.free id := by
  cases p with
  | null => cases hrun
  | dangling => cases hrun
  | block id bytes =>
    obtain ⟨u, hlive, hrun⟩ := bind_eq_ok.mp hrun
    exact ⟨id, bytes, rfl, access_eq_ok_iff.mp hlive, (Except.ok.inj hrun).symm⟩

/-- Both buffers are freed, once each. -/
theorem freeBuffers_cases (hrun : freeBuffers c h = .ok (c', h')) :
    ∃ rx rxBytes tx txBytes, c.rxBuf = .block rx rxBytes ∧ c.txBuf = .block tx txBytes ∧
      rx ∈ h.live ∧ tx ∈ (h.free rx).live ∧ h' = (h.free rx).free tx ∧
      c' = { c with rxBuf := .dangling, txBuf := .dangling } := by
  obtain ⟨h₁, hrx, hrun⟩ := bind_eq_ok.mp hrun
  obtain ⟨h₂, htx, hrun⟩ := bind_eq_ok.mp hrun
  obtain ⟨rfl, rfl⟩ := ok_pair_inj hrun
  obtain ⟨rx, rxBytes, hrxptr, hrxlive, rfl⟩ := iFree_cases hrx
  obtain ⟨tx, txBytes, htxptr, htxlive, rfl⟩ := iFree_cases htx
  exact ⟨rx, rxBytes, tx, txBytes, hrxptr, htxptr, hrxlive, htxlive, rfl, rfl⟩

end Handlers

section Decomposition

variable {actions : ConnActions} {P : (Nat → Grant) → Connection → Prop} {closes : Prop}
  {st st' s : State} {a : Answers} {i n : Nat} {c c' : Connection} {returned : Option Int}
  {code : Int}

theorem nonNull_eq_ok {α : Type} {o : Option α} {a : α} : nonNull o = .ok a ↔ o = some a := by
  cases o with
  | none => simp [nonNull]
  | some b => simp [nonNull]

/-- A change outside the arrays. -/
theorem Move.quiet (hps : st'.ps = st.ps) (hlive : st'.heap.live = st.heap.live) :
    Move actions P closes st st' := .idle st.ps.fds hps (fun _ => rfl) hlive

theorem Move.step (move : Move actions P closes st st') : Step actions P closes st st' := by
  cases move with
  | idle fds hps _ hlive => exact .idle (by rw [hps]) (by rw [hps]) hlive
  | serve i c c' grants code e e' serves meets hrun hps =>
    exact .serve i c c' grants code e e' serves meets hrun (by rw [hps]) (by rw [hps])
  | read i c c' r code e e' serves hrun hps hheap =>
    exact .read i c c' r code e e' serves hrun (by rw [hps]) (by rw [hps]) hheap
  | write i c c' r e e' serves hrun hps hheap =>
    exact .write i c c' r e e' serves hrun (by rw [hps]) (by rw [hps]) hheap
  | free i c c' serves fails hrun hps =>
    exact .free i c c' serves fails hrun (by rw [hps]) (by rw [hps])
  | drop i c c' h serves hfree hrun hps =>
    refine .drop i c c' h serves hfree hrun (fun j hj => ?_) (by rw [hps])
    rw [hps]
    by_cases hji : j = i
    · subst hji
      rw [if_pos rfl]
      exact (Function.update_self _ _ _).trans (Function.update_of_ne (Nat.ne_of_gt hj) _ _)
    · rw [if_neg hji]
      exact (Function.update_of_ne hji _ _).trans (Function.update_of_ne hji _ _)
  | add id fd cap hnew hlive _ hps => exact .add id fd hnew hlive (by rw [hps]) (by rw [hps])

theorem Moves.steps (moves : Moves actions P closes st st') : Steps actions P closes st st' := by
  induction moves with
  | refl => exact .refl
  | tail _ move ih => exact ih.tail move.step

/-- Only `pserv_close` gives up the arrays. -/
theorem Move.opened (move : Move actions P closes st st') : st'.ps.opened = st.ps.opened := by
  cases move with
  | idle fds hps _ _ => rw [hps]
  | serve i c c' grants code e e' _ _ _ hps => rw [hps]
  | read i c c' r code e e' _ _ hps _ => rw [hps]
  | write i c c' r e e' _ _ hps _ => rw [hps]
  | free i c c' _ _ _ hps => rw [hps]
  | drop i c c' h _ _ _ hps => rw [hps]
  | add id fd cap _ _ _ hps => rw [hps]

theorem Moves.opened (moves : Moves actions P closes st st') : st'.ps.opened = st.ps.opened := by
  induction moves with
  | refl => rfl
  | tail _ move ih => exact move.opened.trans ih

theorem executeConn_moves {grants : Nat → Grant} (hpos : 0 < i) (hlen : i < st.ps.len)
    (meets : ∀ c, st.ps.conns i = some c → P grants c)
    (hrun : executeConn actions grants i st = .ok (returned, st')) :
    Moves actions P closes st st' ∧ st'.ps.len = st.ps.len ∧
      ∀ j ≠ i, st'.ps.conns j = st.ps.conns j := by
  obtain ⟨c, hc, hrun⟩ := bind_eq_ok.mp hrun
  have hat := nonNull_eq_ok.mp hc
  obtain ⟨⟨code, h, c', e'⟩, hfunc, hrun⟩ := bind_eq_ok.mp hrun
  have hothers : ∀ j ≠ i, Function.update st.ps.conns i (some c') j = st.ps.conns j :=
    fun j hj => Function.update_of_ne hj _ _
  have hserve : Move actions P closes st (((st.setHeap h).setError e').setConn i c') :=
    .serve i c c' grants code st.e e' ⟨hpos, hlen, hat⟩ (meets c hat) hfunc rfl
  by_cases hfail : code ≠ 0
  · simp only [if_pos hfail] at hrun
    obtain ⟨-, rfl⟩ := ok_pair_inj hrun
    exact ⟨.single hserve, rfl, hothers⟩
  · simp only [if_neg hfail] at hrun
    obtain ⟨-, rfl⟩ := ok_pair_inj hrun
    refine ⟨.tail (.single hserve) (.idle _ rfl (fun j => ?_) rfl), rfl, hothers⟩
    by_cases hj : j = i
    · subst hj
      rw [Function.update_self]
    · rw [Function.update_of_ne hj]

theorem executeConns_moves {grants : Nat → Nat → Grant} (hpos : 0 < i) (hlen : i + n ≤ st.ps.len)
    (meets : ∀ j c, i ≤ j → j < i + n → st.ps.conns j = some c → P (grants j) c)
    (hrun : executeConns actions grants n i st = .ok (code, st')) :
    Moves actions P closes st st' ∧ st'.ps.len = st.ps.len := by
  induction n generalizing i st with
  | zero =>
    obtain ⟨-, rfl⟩ := ok_pair_inj hrun
    exact ⟨.refl, rfl⟩
  | succ n ih =>
    obtain ⟨⟨returned, s⟩, hone, hrun⟩ := bind_eq_ok.mp hrun
    obtain ⟨hmoves, hslen, hothers⟩ :=
      executeConn_moves hpos (by omega) (fun c hc => meets i c (le_refl i) (by omega) hc) hone
    cases returned with
    | some code' =>
      obtain ⟨-, rfl⟩ := ok_pair_inj hrun
      exact ⟨hmoves, hslen⟩
    | none =>
      have meets' : ∀ j c, i + 1 ≤ j → j < i + 1 + n → s.ps.conns j = some c →
          P (grants j) c := by
        intro j c hj hlast hc
        rw [hothers j (by omega)] at hc
        exact meets j c (by omega) (by omega) hc
      obtain ⟨hrest, hlen'⟩ := ih (Nat.succ_pos i) (by omega) meets' hrun
      exact ⟨hmoves.trans hrest, hlen'.trans hslen⟩

/-- A removal frees the buffers, and drops the connection unless `close` failed. -/
theorem removeClient_moves {closed : Bool} (hpos : 0 < i) (hlen : i < st.ps.len)
    (hclosed : closes → closed = true)
    (hrun : removeClient actions closed i st = .ok (code, st')) :
    Moves actions P closes st st' ∧ st.ps.len ≤ st'.ps.len + 1 := by
  obtain ⟨c, hc, hrun⟩ := bind_eq_ok.mp hrun
  have hserves : Serves st i c := ⟨hpos, hlen, nonNull_eq_ok.mp hc⟩
  obtain ⟨⟨c', h⟩, hfree, hrun⟩ := bind_eq_ok.mp hrun
  cases closed with
  | false =>
    obtain ⟨-, rfl⟩ := ok_pair_inj hrun
    have hfails : ¬ closes := fun hc => absurd (hclosed hc) Bool.noConfusion
    exact ⟨.single (.free i c c' hserves hfails hfree rfl), Nat.le_succ _⟩
  | true =>
    obtain ⟨h', hconn, hrun⟩ := bind_eq_ok.mp hrun
    obtain ⟨-, rfl⟩ := ok_pair_inj hrun
    obtain ⟨-, -, -, -, -, -, -, -, -, rfl⟩ := freeBuffers_cases hfree
    refine ⟨.single (.drop i c _ h hserves hfree hconn rfl), ?_⟩
    show st.ps.len ≤ st.ps.len - 1 + 1
    omega

/-- A handler that reports failure ends the call, and either way its state is the last. -/
theorem finish_done
    (hrun : (if code ≠ 0 then .ok (some (errorTrace s.e), s) else .ok (none, s) :
      Outcome (Option Int × State)) = .ok (returned, st')) :
    st' = s ∧ (returned = none ↔ code = 0) := by
  by_cases hfail : code ≠ 0
  · rw [if_pos hfail] at hrun
    obtain ⟨rfl, rfl⟩ := ok_pair_inj hrun
    exact ⟨rfl, iff_of_false (Option.some_ne_none _) hfail⟩
  · rw [if_neg hfail] at hrun
    obtain ⟨rfl, rfl⟩ := ok_pair_inj hrun
    exact ⟨rfl, iff_of_true rfl (not_not.mp hfail)⟩

theorem serveConn_moves {ev : Events} (hpos : 0 < i) (hlen : i < st.ps.len)
    (hclosed : closes → ∀ j, a.closed j = true)
    (hrun : serveConn actions a i ev st = .ok (returned, st')) :
    Moves actions P closes st st' ∧ st.ps.len ≤ st'.ps.len + 1 := by
  obtain ⟨c, hc, hrun⟩ := bind_eq_ok.mp hrun
  have hserves : Serves st i c := ⟨hpos, hlen, nonNull_eq_ok.mp hc⟩
  by_cases hin : ev.pollin = true
  · simp only [if_pos hin] at hrun
    obtain ⟨⟨code, c', e'⟩, hread, hrun⟩ := bind_eq_ok.mp hrun
    have hmove : Move actions P closes st ((st.setError e').setConn i c') :=
      .read i c c' (a.recv i) code st.e e' hserves hread rfl rfl
    by_cases hfail : code ≠ 0
    · simp only [if_pos hfail] at hrun
      obtain ⟨⟨code', s⟩, hremove, hrun⟩ := bind_eq_ok.mp hrun
      obtain ⟨rfl, -⟩ := finish_done hrun
      have hlen' : i < ((st.setError e').setConn i c').ps.len := hlen
      obtain ⟨hmoves, hone⟩ := removeClient_moves hpos hlen' (fun h => hclosed h i) hremove
      exact ⟨.head hmove hmoves, hone⟩
    · simp only [if_neg hfail] at hrun
      obtain ⟨-, rfl⟩ := ok_pair_inj hrun
      exact ⟨.single hmove, Nat.le_succ _⟩
  · simp only [if_neg hin] at hrun
    by_cases hout : ev.pollout = true
    · simp only [if_pos hout] at hrun
      obtain ⟨⟨c', e'⟩, hwrite, hrun⟩ := bind_eq_ok.mp hrun
      obtain ⟨-, rfl⟩ := ok_pair_inj hrun
      exact ⟨.single (.write i c c' (a.send i) st.e e' hserves hwrite rfl rfl), Nat.le_succ _⟩
    · simp only [if_neg hout] at hrun
      obtain ⟨-, rfl⟩ := ok_pair_inj hrun
      exact ⟨.refl, Nat.le_succ _⟩

theorem growArray_keeps {granted ok : Bool} (hrun : growArray granted n st = .ok (ok, st')) :
    st'.ps = st.ps ∧ st'.heap = st.heap := by
  obtain ⟨-, -, hrun⟩ := bind_eq_ok.mp hrun
  obtain ⟨-, -, hrun⟩ := bind_eq_ok.mp hrun
  by_cases hg : granted = true
  · simp only [if_pos hg] at hrun
    obtain ⟨-, rfl⟩ := ok_pair_inj hrun
    exact ⟨rfl, rfl⟩
  · simp only [if_neg hg] at hrun
    obtain ⟨-, rfl⟩ := ok_pair_inj hrun
    exact ⟨rfl, rfl⟩

/-- Growing changes `cap` only, and only when it succeeds. -/
theorem growIfNeeded_keeps {x : Accept} (hrun : growIfNeeded x st = .ok (code, st')) :
    st'.heap = st.heap ∧
      (st'.ps = st.ps ∨ (code = success ∧ ∃ cap, st'.ps = { st.ps with cap := cap })) := by
  by_cases hroom : st.ps.len < st.ps.cap
  · simp only [growIfNeeded, if_pos hroom] at hrun
    obtain ⟨-, rfl⟩ := ok_pair_inj hrun
    exact ⟨rfl, .inl rfl⟩
  · simp only [growIfNeeded, if_neg hroom] at hrun
    obtain ⟨⟨fds, s⟩, hfds, hrun⟩ := bind_eq_ok.mp hrun
    obtain ⟨hps, hheap⟩ := growArray_keeps hfds
    by_cases hf : fds = false
    · simp only [if_pos hf] at hrun
      obtain ⟨-, rfl⟩ := ok_pair_inj hrun
      exact ⟨hheap, .inl hps⟩
    · simp only [if_neg hf] at hrun
      obtain ⟨⟨conns, s'⟩, hcs, hrun⟩ := bind_eq_ok.mp hrun
      obtain ⟨hps', hheap'⟩ := growArray_keeps hcs
      by_cases hc : conns = false
      · simp only [if_pos hc] at hrun
        obtain ⟨-, rfl⟩ := ok_pair_inj hrun
        exact ⟨hheap'.trans hheap, .inl (hps'.trans hps)⟩
      · simp only [if_neg hc] at hrun
        obtain ⟨rfl, rfl⟩ := ok_pair_inj hrun
        refine ⟨hheap'.trans hheap, .inr ⟨rfl, u32 (s'.ps.cap * 2), ?_⟩⟩
        rw [hps', hps]

/-- The connection that an accept allocated is freed again. -/
theorem undo_alloc (lawful : Lawful actions) {id : Nat} {h h' h'' : Heap} (hnew : id ∉ h.live)
    (halloc : h'.live = insert id h.live) (hfree : actions.connFree h' id = .ok h'') :
    h''.live = h.live := by
  rw [lawful.free _ _ _ hfree, halloc, Finset.erase_insert hnew]

theorem addConn_cases (hrun : addConn c st = .ok st') :
    st.ps.len < st.ps.cap ∧ st'.heap = st.heap ∧ st'.ps = { st.ps with
      fds := Function.update st.ps.fds st.ps.len ⟨c.sock.fd, Events.none, Events.none⟩
      conns := Function.update st.ps.conns st.ps.len (some c)
      len := st.ps.len + 1 } := by
  obtain ⟨u, hroom, hrun⟩ := bind_eq_ok.mp hrun
  obtain rfl := Except.ok.inj hrun
  exact ⟨access_eq_ok_iff.mp hroom, rfl, rfl⟩

theorem acceptConn_moves {x : Accept} {id : Nat} {h : Heap} {e : ErrorObject}
    (lawful : Lawful actions) (hnew : id ∉ st.heap.live) (halloc : h.live = insert id st.heap.live)
    (hrun : acceptConn actions x id ((st.setHeap h).setError e) = .ok (code, st')) :
    Moves actions P closes st st' ∧ st.ps.len ≤ st'.ps.len + 1 := by
  cases hsock : x.sock with
  | none =>
    simp only [acceptConn, hsock] at hrun
    obtain ⟨h', hfree, hrun⟩ := bind_eq_ok.mp hrun
    obtain ⟨-, rfl⟩ := ok_pair_inj hrun
    exact ⟨.single (.quiet rfl (undo_alloc lawful hnew halloc hfree)), Nat.le_succ _⟩
  | some fd =>
    simp only [acceptConn, hsock] at hrun
    obtain ⟨⟨failed, s⟩, hgrow, hrun⟩ := bind_eq_ok.mp hrun
    obtain ⟨hheap, hgrown⟩ := growIfNeeded_keeps hgrow
    have hlive : s.heap.live = insert id st.heap.live := by
      rw [hheap]
      exact halloc
    by_cases hfail : failed ≠ 0
    · simp only [if_pos hfail] at hrun
      have hps : s.ps = st.ps := hgrown.resolve_right fun grown => hfail grown.1
      obtain ⟨s', hs'⟩ : ∃ s', s' = if x.closed then s else s.fail errIo ⟨"close: %s", []⟩ :=
        ⟨_, rfl⟩
      have hkeep : s'.ps = s.ps ∧ s'.heap = s.heap := by
        rw [hs']
        cases x.closed <;> exact ⟨rfl, rfl⟩
      rw [← hs'] at hrun
      obtain ⟨h', hfree, hrun⟩ := bind_eq_ok.mp hrun
      obtain ⟨-, rfl⟩ := ok_pair_inj hrun
      rw [hkeep.2] at hfree
      have hsame : s'.ps = st.ps := hkeep.1.trans hps
      exact ⟨.single (.quiet hsame (undo_alloc lawful hnew hlive hfree)),
        Nat.le_succ_of_le (le_of_eq (congrArg PollingServer.len hsame.symm))⟩
    · simp only [if_neg hfail] at hrun
      obtain ⟨s', hadd, hrun⟩ := bind_eq_ok.mp hrun
      obtain ⟨-, rfl⟩ := ok_pair_inj hrun
      obtain ⟨hroom, hheap', hps⟩ := addConn_cases hadd
      obtain ⟨cap, hcap⟩ : ∃ cap, s.ps = { st.ps with cap := cap } := by
        rcases hgrown with hsame | ⟨-, cap, hcap⟩
        · exact ⟨st.ps.cap, hsame⟩
        · exact ⟨cap, hcap⟩
      rw [hcap] at hroom hps
      rw [← hheap'] at hlive
      -- Behind a growth `len` is bounded by the access of `addConn` alone.
      refine ⟨.single (.add id fd cap hnew hlive hroom hps), ?_⟩
      rw [hps]
      exact Nat.le_add_right _ 2

theorem handleAccept_moves {x : Accept} (lawful : Lawful actions)
    (hrun : handleAccept actions x st = .ok (code, st')) :
    Moves actions P closes st st' ∧ st.ps.len ≤ st'.ps.len + 1 := by
  obtain ⟨⟨conn, h, e⟩, halloc, hrun⟩ := bind_eq_ok.mp hrun
  cases conn with
  | none =>
    obtain ⟨-, rfl⟩ := ok_pair_inj hrun
    exact ⟨.single (.quiet rfl (lawful.alloc_none _ _ _ _ _ halloc)), Nat.le_succ _⟩
  | some id =>
    obtain ⟨hnew, hlive⟩ := lawful.alloc _ _ _ _ _ _ halloc
    exact acceptConn_moves lawful hnew hlive hrun

/-- One iteration: at most one connection is lost. -/
theorem handleEvent_moves (lawful : Lawful actions) (hclosed : closes → ∀ j, a.closed j = true)
    (hlen : i < st.ps.len) (hrun : handleEvent actions a i st = .ok (returned, st')) :
    Moves actions P closes st st' ∧ st.ps.len ≤ st'.ps.len + 1 := by
  by_cases hnone : (st.ps.fds i).revents = Events.none
  · simp only [handleEvent, if_pos hnone] at hrun
    obtain ⟨-, rfl⟩ := ok_pair_inj hrun
    exact ⟨.refl, Nat.le_succ _⟩
  · by_cases hzero : i = 0
    · simp only [handleEvent, if_neg hnone, if_pos hzero] at hrun
      obtain ⟨-, -, hrun⟩ := bind_eq_ok.mp hrun
      obtain ⟨⟨failed, s⟩, haccept, hrun⟩ := bind_eq_ok.mp hrun
      obtain ⟨rfl, -⟩ := finish_done hrun
      exact handleAccept_moves lawful haccept
    · have hpos : 0 < i := Nat.pos_of_ne_zero hzero
      simp only [handleEvent, if_neg hnone, if_neg hzero] at hrun
      split at hrun
      · obtain ⟨⟨failed, s⟩, hremove, hrun⟩ := bind_eq_ok.mp hrun
        obtain ⟨rfl, -⟩ := finish_done hrun
        exact removeClient_moves hpos hlen (fun h => hclosed h i) hremove
      · exact serveConn_moves hpos hlen hclosed hrun

theorem pollLoop_moves (lawful : Lawful actions) (hclosed : closes → ∀ j, a.closed j = true)
    (hlen : n ≤ st.ps.len) (hrun : pollLoop actions a n st = .ok (code, st')) :
    Moves actions P closes st st' := by
  induction n generalizing st with
  | zero =>
    obtain ⟨-, rfl⟩ := ok_pair_inj hrun
    exact .refl
  | succ n ih =>
    obtain ⟨⟨returned, s⟩, hone, hrun⟩ := bind_eq_ok.mp hrun
    obtain ⟨hmoves, hslen⟩ := handleEvent_moves lawful hclosed (by omega) hone
    cases returned with
    | some code' =>
      obtain ⟨-, rfl⟩ := ok_pair_inj hrun
      exact hmoves
    | none => exact hmoves.trans (ih (by omega) hrun)

/-- `poll` stores its results behind the descriptors. -/
theorem Move.stored (revents : Nat → Events) :
    Move actions P closes st (storeRevents revents st) := .idle _ rfl (fun _ => rfl) rfl

theorem pollAndHandle_moves (lawful : Lawful actions) (hclosed : closes → ∀ j, a.closed j = true)
    (hrun : pollAndHandle actions a st = .ok (code, st')) : Moves actions P closes st st' := by
  unfold pollAndHandle at hrun
  cases hpoll : a.poll with
  | failed =>
    rw [hpoll] at hrun
    obtain ⟨-, rfl⟩ := ok_pair_inj hrun
    exact .single (.quiet rfl rfl)
  | idle =>
    rw [hpoll] at hrun
    obtain ⟨-, rfl⟩ := ok_pair_inj hrun
    exact .refl
  | ready revents =>
    rw [hpoll] at hrun
    have hlen : st.ps.len ≤ (storeRevents revents st).ps.len := le_refl _
    exact .head (.stored revents) (pollLoop_moves lawful hclosed hlen hrun)

/-- `conn_func` meets each connection as it was when the call began. -/
theorem pservExecuteConns_moves {grants : Nat → Nat → Grant}
    (meets : ∀ i c, Serves st i c → P (grants i) c)
    (hrun : pservExecuteConns actions grants st = .ok (code, st')) :
    Moves actions P closes st st' ∧ st'.ps.len = st.ps.len := by
  by_cases hlen : 0 < st.ps.len
  · have hbound : 1 + (st.ps.len - 1) ≤ st.ps.len := by omega
    exact executeConns_moves Nat.one_pos hbound
      (fun j c hj hlast hc => meets j c ⟨hj, by omega, hc⟩) hrun
  · have hnone : st.ps.len - 1 = 0 := by omega
    simp only [pservExecuteConns, hnone, executeConns] at hrun
    obtain ⟨-, rfl⟩ := ok_pair_inj hrun
    exact ⟨.refl, rfl⟩

/-- A call is a sequence of moves. -/
theorem pservExecute_moves (lawful : Lawful actions) (hclosed : closes → ∀ j, a.closed j = true)
    (meets : ∀ i c, Serves st i c → P (a.grants i) c)
    (hrun : pservExecute actions a st = .ok (code, st')) : Moves actions P closes st st' := by
  obtain ⟨⟨failed, s⟩, hconns, hrun⟩ := bind_eq_ok.mp hrun
  have hserved : Moves actions P closes st s := (pservExecuteConns_moves meets hconns).1
  by_cases hfail : failed ≠ 0
  · simp only [if_pos hfail] at hrun
    obtain ⟨-, rfl⟩ := ok_pair_inj hrun
    exact hserved
  · simp only [if_neg hfail] at hrun
    exact hserved.trans (pollAndHandle_moves lawful hclosed hrun)

end Decomposition

section Invariants

variable {actions : ConnActions} {P : (Nat → Grant) → Connection → Prop} {closes : Prop}
  {st st' : State}
  {i j : Nat} {c d : Connection}

theorem serves_update (hconns : st'.ps.conns = Function.update st.ps.conns i (some c))
    (hlen : st'.ps.len = st.ps.len) (h : Serves st' j d) :
    (j = i ∧ d = c) ∨ (j ≠ i ∧ Serves st j d) := by
  obtain ⟨hpos, hlt, hat⟩ := h
  rw [hconns] at hat
  rw [hlen] at hlt
  by_cases hj : j = i
  · subst hj
    rw [Function.update_self] at hat
    exact .inl ⟨rfl, (Option.some.inj hat).symm⟩
  · rw [Function.update_of_ne hj] at hat
    exact .inr ⟨hj, hpos, hlt, hat⟩

/-- The last connection takes the place of the one that is dropped. -/
theorem serves_drop (hi : i < st.ps.len)
    (hconns : ∀ j < st.ps.len - 1,
      st'.ps.conns j = if j = i then st.ps.conns (st.ps.len - 1) else st.ps.conns j)
    (hlen : st'.ps.len = st.ps.len - 1) (h : Serves st' j d) :
    ∃ k, Serves st k d ∧ k ≠ i ∧ (k = if j = i then st.ps.len - 1 else j) := by
  obtain ⟨hpos, hlt, hat⟩ := h
  rw [hlen] at hlt
  rw [hconns j hlt] at hat
  by_cases hj : j = i
  · subst hj
    rw [if_pos rfl] at hat
    exact ⟨st.ps.len - 1, ⟨by omega, by omega, hat⟩, by omega, (if_pos rfl).symm⟩
  · rw [if_neg hj] at hat
    exact ⟨j, ⟨hpos, by omega, hat⟩, hj, (if_neg hj).symm⟩

theorem serves_idle (hconns : st'.ps.conns = st.ps.conns) (hlen : st'.ps.len = st.ps.len)
    (h : Serves st' j d) : Serves st j d := by
  obtain ⟨hpos, hlt, hat⟩ := h
  exact ⟨hpos, hlen ▸ hlt, hconns ▸ hat⟩

theorem serves_add (hconns : st'.ps.conns = Function.update st.ps.conns st.ps.len (some c))
    (hlen : st'.ps.len = st.ps.len + 1) (h : Serves st' j d) :
    (j = st.ps.len ∧ d = c) ∨ Serves st j d := by
  obtain ⟨hpos, hlt, hat⟩ := h
  rw [hconns] at hat
  by_cases hj : j = st.ps.len
  · subst hj
    rw [Function.update_self] at hat
    exact .inl ⟨rfl, (Option.some.inj hat).symm⟩
  · rw [Function.update_of_ne hj] at hat
    exact .inr ⟨hpos, by omega, hat⟩

/-- A property of one connection that every step on it keeps. -/
structure Keeps (actions : ConnActions) (P : (Nat → Grant) → Connection → Prop) (closes : Prop)
    (I : Connection → Prop) : Prop where
  fresh : ∀ id fd, I (.fresh id fd)
  serve : ∀ grants h c e code h' c' e', I c → P grants c →
    actions.connFunc grants h c e = .ok (code, h', c', e') → I c'
  read : ∀ r c e code c' e', I c → handleRead r c e = .ok (code, c', e') → I c'
  write : ∀ s c e c' e', I c → handleWrite s c e = .ok (c', e') → I c'
  free : ¬ closes → ∀ c h c' h', I c → freeBuffers c h = .ok (c', h') → I c'

def AllServed (I : Connection → Prop) (st : State) : Prop := ∀ i c, Serves st i c → I c

/-- One change of one connection. -/
theorem AllServed.update {I : Connection → Prop} (h : AllServed I st) (hc : I c)
    (hconns : st'.ps.conns = Function.update st.ps.conns i (some c))
    (hlen : st'.ps.len = st.ps.len) : AllServed I st' := by
  intro j d hd
  rcases serves_update hconns hlen hd with ⟨-, rfl⟩ | ⟨-, hold⟩
  · exact hc
  · exact h j d hold

theorem Keeps.step {I : Connection → Prop} (keeps : Keeps actions P closes I)
    (step : Step actions P closes st st') (h : AllServed I st) : AllServed I st' := by
  cases step with
  | idle hconns hlen _ => exact fun j d hd => h j d (serves_idle hconns hlen hd)
  | serve i c c' grants code e e' serves meets hrun hconns hlen =>
    exact h.update (keeps.serve _ _ _ _ _ _ _ _ (h i c serves) meets hrun) hconns hlen
  | read i c c' r code e e' serves hrun hconns hlen _ =>
    exact h.update (keeps.read _ _ _ _ _ _ (h i c serves) hrun) hconns hlen
  | write i c c' s e e' serves hrun hconns hlen _ =>
    exact h.update (keeps.write _ _ _ _ _ (h i c serves) hrun) hconns hlen
  | free i c c' serves fails hrun hconns hlen =>
    exact h.update (keeps.free fails _ _ _ _ (h i c serves) hrun) hconns hlen
  | drop i c c' h' serves _ _ hconns hlen =>
    intro j d hd
    obtain ⟨k, hk, -, -⟩ := serves_drop serves.2.1 hconns hlen hd
    exact h k d hk
  | add id fd _ _ hconns hlen =>
    intro j d hd
    rcases serves_add hconns hlen hd with ⟨-, rfl⟩ | hold
    · exact keeps.fresh id fd
    · exact h j d hold

theorem Keeps.steps {I : Connection → Prop} (keeps : Keeps actions P closes I)
    (steps : Steps actions P closes st st') (h : AllServed I st) : AllServed I st' := by
  induction steps with
  | refl => exact h
  | tail _ step ih => exact keeps.step step ih

end Invariants

end Polling
