import CSpecx.EchoServing

/-!
# The connections of one pass

Which connections a call of `pserv_execute` removes. `handle_read` returns the
cause in the error object of the whole call, so a failure on one connection
also decides about every connection that is read after it.
-/

namespace Polling

open CExec Errors HeapBuffers

/-- The loop goes from the iteration below `n` to the one below `i`. -/
inductive Reaches (actions : ConnActions) (a : Answers) : Nat → State → Nat → State → Prop where
  | here (n : Nat) (st : State) : Reaches actions a n st n st
  | next {n i : Nat} {st s s' : State} : handleEvent actions a n st = .ok (none, s) →
      Reaches actions a n s i s' → Reaches actions a (n + 1) st i s'

/-- A call from `st` comes to the iteration for index `i` in the state `s`. -/
def Handles (actions : ConnActions) (a : Answers) (st : State) (i : Nat) (s : State) : Prop :=
  ∃ served revents, pservExecuteConns actions a.grants st = .ok (success, served) ∧
    a.poll = .ready revents ∧
    Reaches actions a served.ps.len (storeRevents revents served) (i + 1) s

/-- `i_socket_recv` returns an error or zero. -/
def Ends (r : RecvResult) : Prop := r = .failed ∨ r = .data []

def Events.broken (ev : Events) : Prop := ev.pollerr = true ∨ ev.pollhup = true

/-- The iteration for a connection calls `remove_client`: at once, or because
`handle_read` does not return 0. It frees both buffers before it calls `close`, so a
connection is lost from here on, whatever `close` answers. -/
inductive Removes (a : Answers) (i : Nat) (s : State) : Prop where
  | broken : (s.ps.fds i).revents.broken → Removes a i s
  | read {c c' : Connection} {e : ErrorObject} {failed : Int} :
      ¬ (s.ps.fds i).revents.broken → (s.ps.fds i).revents.pollin = true →
      nonNull (s.ps.conns i) = .ok c → handleRead (a.recv i) c s.e = .ok (failed, c', e) →
      failed ≠ 0 → Removes a i s

/-- No connection is removed for a reason that is not its own. -/
def Isolated (actions : ConnActions) (a : Answers) (st : State) : Prop :=
  ∀ i s, 0 < i → Handles actions a st i s → Removes a i s →
    (s.ps.fds i).revents.broken ∨ ((s.ps.fds i).revents.pollin = true ∧ Ends (a.recv i))

/-! ## What decides a pass -/

/-- The buffer has room where `handle_read` stores. -/
def ReadFits (r : RecvResult) (c : Connection) : Prop :=
  c.rxLen < c.rxCap ∧ c.rxBuf.blocks ≠ [] ∧
    ∀ bytes, r = .data bytes → bytes ≠ [] →
      c.rxLen + (bytes.take (c.rxCap - c.rxLen)).length ≤ c.rxBuf.size

/-- The buffer holds what `handle_write` sends. -/
def WriteFits (s : SendResult) (c : Connection) : Prop :=
  c.txSent < c.txCap ∧ c.txBuf.blocks ≠ [] ∧
    ∀ n, s = .sent n → c.txSent + min n (c.txCap - c.txSent) ≤ c.txBuf.size

/-- A failure of the connection's own socket that `pserv_execute` records. -/
def Fails (a : Answers) (ev : Events) (i : Nat) : Prop :=
  ¬ ev.broken ∧ ((ev.pollin = true ∧ Ends (a.recv i)) ∨
    (ev.pollin = false ∧ ev.pollout = true ∧ a.send i = .failed))

/-- `remove_client` is called when the error object has a cause if `tainted`. -/
def Removal (a : Answers) (tainted : Prop) (ev : Events) (i : Nat) : Prop :=
  ev.broken ∨ (ev.pollin = true ∧ (tainted ∨ Ends (a.recv i)))

/-- The iteration for a connection comes to its end. -/
structure Completes (a : Answers) (tainted : Prop) (ev : Events) (i : Nat) (c : Connection) :
    Prop where
  reads : ¬ ev.broken → ev.pollin = true → ReadFits (a.recv i) c
  writes : ¬ ev.broken → ev.pollin = false → ev.pollout = true → WriteFits (a.send i) c
  frees : Removal a tainted ev i →
    a.closed i = true ∧ c.rxBuf.blocks ≠ [] ∧ c.txBuf.blocks ≠ []

/-- Some index from `n` on fails in a pass over the indices below `len`. -/
def FailsFrom (a : Answers) (revents : Nat → Events) (len n : Nat) : Prop :=
  ∃ j, n ≤ j ∧ j < len ∧ Fails a (revents j) j

/-- A connection that receives data, with a failure at a greater index, is not
reached, since the call ends at an index above it, or `handle_read` has no room there. -/
def Undisturbed (a : Answers) (revents : Nat → Events) (served : State) : Prop :=
  ∀ i c, Serves served i c → ¬ (revents i).broken → (revents i).pollin = true →
    ¬ Ends (a.recv i) → FailsFrom a revents served.ps.len (i + 1) →
    ¬ ReadFits (a.recv i) c ∨ ∃ j d, i < j ∧ Serves served j d ∧
      ¬ Completes a (FailsFrom a revents served.ps.len (j + 1)) (revents j) j d

section Handlers

variable {c c' : Connection} {e e' : ErrorObject} {code : Int} {r : RecvResult} {s : SendResult}
  {p : Ptr} {o n : Nat}

theorem offset_eq_ok {u : Unit} (h : p.blocks ≠ []) : p.offset o = .ok u := by
  cases p with
  | null => exact absurd rfl h
  | dangling => exact absurd rfl h
  | block id bytes => rfl

theorem blocks_of_offset {u : Unit} (h : p.offset o = .ok u) : p.blocks ≠ [] := by
  cases p with
  | null =>
    by_cases ho : o = 0
    · simp [Ptr.offset, ho] at h
    · simp [Ptr.offset, ho] at h
  | dangling => cases h
  | block id bytes => exact List.cons_ne_nil _ _

theorem store_returns {xs : List UInt8} :
    (∃ q, p.store o xs = .ok q) ↔ p.blocks ≠ [] ∧ o + xs.length ≤ p.size := by
  cases p with
  | null => simp [Ptr.store, Ptr.blocks]
  | dangling => simp [Ptr.store, Ptr.blocks]
  | block id bytes =>
    constructor
    · rintro ⟨q, hstore⟩
      obtain ⟨u, hfits, -⟩ := bind_eq_ok.mp hstore
      exact ⟨List.cons_ne_nil _ _, access_eq_ok_iff.mp hfits⟩
    · rintro ⟨-, hfits⟩
      exact ⟨_, store_block hfits⟩

theorem load_returns :
    (∃ xs, p.load o n = .ok xs) ↔ p.blocks ≠ [] ∧ o + n ≤ p.size := by
  cases p with
  | null => simp [Ptr.load, Ptr.blocks]
  | dangling => simp [Ptr.load, Ptr.blocks]
  | block id bytes =>
    constructor
    · rintro ⟨xs, hload⟩
      obtain ⟨u, hfits, -⟩ := bind_eq_ok.mp hload
      exact ⟨List.cons_ne_nil _ _, access_eq_ok_iff.mp hfits⟩
    · rintro ⟨-, hfits⟩
      exact ⟨_, load_block hfits⟩

theorem take_eq_nil {bytes : List UInt8} (hroom : c.rxLen < c.rxCap) :
    bytes.take (c.rxCap - c.rxLen) = [] ↔ bytes = [] := by
  constructor
  · intro hnil
    rcases List.take_eq_nil_iff.mp hnil with hzero | hnil
    · omega
    · exact hnil
  · rintro rfl
    exact List.take_nil

theorem handleRead_returns : (∃ x, handleRead r c e = .ok x) ↔ ReadFits r c := by
  constructor
  · rintro ⟨x, hrun⟩
    obtain ⟨u, hlt, hrun⟩ := bind_eq_ok.mp hrun
    obtain ⟨v, hoffset, hrun⟩ := bind_eq_ok.mp hrun
    have hroom := assert_eq_ok_iff.mp hlt
    refine ⟨hroom, blocks_of_offset hoffset, ?_⟩
    rintro bytes rfl hne
    simp only [take_eq_nil hroom, if_neg hne] at hrun
    obtain ⟨q, hstore, -⟩ := bind_eq_ok.mp hrun
    exact (store_returns.mp ⟨q, hstore⟩).2
  · rintro ⟨hroom, hblocks, hfits⟩
    have hoffset : c.rxBuf.offset c.rxLen = .ok () := offset_eq_ok hblocks
    simp only [handleRead, assert_pos hroom, hoffset, ok_bind]
    cases r with
    | failed => exact ⟨_, rfl⟩
    | data bytes =>
      by_cases hne : bytes = []
      · simp only [take_eq_nil hroom, if_pos hne]
        exact ⟨_, rfl⟩
      · obtain ⟨q, hstore⟩ := store_returns.mpr ⟨hblocks, hfits bytes rfl hne⟩
        simp only [take_eq_nil hroom, if_neg hne, hstore, ok_bind]
        exact ⟨_, rfl⟩

theorem handleWrite_returns : (∃ x, handleWrite s c e = .ok x) ↔ WriteFits s c := by
  constructor
  · rintro ⟨x, hrun⟩
    obtain ⟨u, hlt, hrun⟩ := bind_eq_ok.mp hrun
    obtain ⟨v, hoffset, hrun⟩ := bind_eq_ok.mp hrun
    refine ⟨assert_eq_ok_iff.mp hlt, blocks_of_offset hoffset, ?_⟩
    rintro n rfl
    obtain ⟨bytes, hload, -⟩ := bind_eq_ok.mp hrun
    exact (load_returns.mp ⟨bytes, hload⟩).2
  · rintro ⟨hroom, hblocks, hfits⟩
    have hoffset : c.txBuf.offset c.txSent = .ok () := offset_eq_ok hblocks
    simp only [handleWrite, assert_pos hroom, hoffset, ok_bind]
    cases s with
    | failed => exact ⟨_, rfl⟩
    | sent n =>
      obtain ⟨bytes, hload⟩ := load_returns.mpr ⟨hblocks, hfits n rfl⟩
      simp only [hload, ok_bind]
      exact ⟨_, rfl⟩

theorem errorCausef_io {msg : Message} : (errorCausef e errIo msg).2.causeCode ≠ success :=
  errorCausef_failed (by decide)

/-- A read reports the error object of the call, whoever caused it. -/
theorem handleRead_code (hrun : handleRead r c e = .ok (code, c', e')) :
    code = e'.causeCode ∧ (e'.causeCode ≠ success ↔ e.causeCode ≠ success ∨ Ends r) ∧
      c'.rxBuf.blocks = c.rxBuf.blocks ∧ c'.txBuf = c.txBuf := by
  obtain ⟨-, ⟨rfl, rfl, hends, msg, rfl⟩ | ⟨got, p, -, -, hstore, rfl, rfl, rfl, bytes, rfl, hne,
    -⟩⟩ :=
    handleRead_cases hrun
  · exact ⟨rfl, iff_of_true errorCausef_io (.inr hends), rfl, rfl⟩
  · refine ⟨rfl, ⟨.inl, ?_⟩, store_blocks hstore, rfl⟩
    rintro (htaint | hfailed | hnil)
    · exact htaint
    · cases hfailed
    · exact absurd (RecvResult.data.inj hnil) hne

theorem handleWrite_code (hrun : handleWrite s c e = .ok (c', e')) :
    (e'.causeCode ≠ success ↔ e.causeCode ≠ success ∨ s = .failed) := by
  obtain ⟨-, ⟨-, hfailed, msg, rfl⟩ | ⟨n, bytes, -, -, -, rfl, k, rfl, -⟩⟩ :=
    handleWrite_cases hrun
  · exact iff_of_true errorCausef_io (.inr hfailed)
  · exact ⟨.inl, fun h => h.resolve_right SendResult.noConfusion⟩

end Handlers

section Iteration

variable {actions : ConnActions} {a : Answers} {st st' : State} {i : Nat} {c : Connection}
  {ev : Events} {tainted : Prop} {returned : Option Int}

/-- The parts of the state that the iterations below `i` depend on. -/
structure Below (i : Nat) (st st' : State) : Prop where
  conns : ∀ j < i, st'.ps.conns j = st.ps.conns j
  fds : ∀ j < i, st'.ps.fds j = st.ps.fds j

theorem Below.refl (i : Nat) (st : State) : Below i st st := ⟨fun _ _ => rfl, fun _ _ => rfl⟩

theorem below_setConn (e : ErrorObject) : Below i st ((st.setError e).setConn i c) :=
  ⟨fun _ hj => Function.update_of_ne (Nat.ne_of_lt hj) _ _, fun _ _ => rfl⟩

theorem freeBuffers_returns {h : Heap} (hrx : c.rxBuf.blocks ≠ []) (htx : c.txBuf.blocks ≠ [])
    (hnodup : c.blocks.Nodup) (hlive : ∀ b ∈ c.blocks, b ∈ h.live) :
    ∃ c' h', freeBuffers c h = .ok (c', h') ∧ c'.id = c.id := by
  obtain ⟨rx, xs, hrxbuf⟩ : ∃ rx xs, c.rxBuf = .block rx xs := by
    cases hbuf : c.rxBuf with
    | null => exact absurd (by rw [hbuf]; rfl) hrx
    | dangling => exact absurd (by rw [hbuf]; rfl) hrx
    | block rx xs => exact ⟨rx, xs, rfl⟩
  obtain ⟨tx, ys, htxbuf⟩ : ∃ tx ys, c.txBuf = .block tx ys := by
    cases hbuf : c.txBuf with
    | null => exact absurd (by rw [hbuf]; rfl) htx
    | dangling => exact absurd (by rw [hbuf]; rfl) htx
    | block tx ys => exact ⟨tx, ys, rfl⟩
  have hblocks : c.blocks = [c.id, rx, tx] := by simp [Connection.blocks, hrxbuf, htxbuf]
  rw [hblocks] at hnodup hlive
  have hne : tx ≠ rx := by
    rintro rfl
    simp at hnodup
  have hrxlive : rx ∈ h.live := hlive rx (by simp)
  have htxlive : tx ∈ (h.free rx).live := Heap.mem_free.mpr ⟨hne, hlive tx (by simp)⟩
  refine ⟨{ c with rxBuf := .dangling, txBuf := .dangling }, (h.free rx).free tx, ?_, rfl⟩
  simp only [freeBuffers, hrxbuf, htxbuf, iFree_block hrxlive, iFree_block htxlive, ok_bind]

/-- A removal that frees both buffers and closes the socket. -/
theorem removeClient_returns (lawful : Lawful actions) (owned : Owned st) (serves : Serves st i c)
    (hrx : c.rxBuf.blocks ≠ []) (htx : c.txBuf.blocks ≠ []) :
    ∃ s, removeClient actions true i st = .ok (success, s) := by
  obtain ⟨c', h', hfree, hid⟩ := freeBuffers_returns hrx htx (owned.nodup i c serves)
    (owned.live i c serves)
  have hstep := (local_free hfree (owned.nodup i c serves) (owned.live i c serves)).1
  obtain ⟨h'', hconn⟩ := lawful.free_ok h' c'.id (hstep.live c'.id List.mem_cons_self)
  have hat : nonNull (st.ps.conns i) = .ok c := nonNull_eq_ok.mpr serves.2.2
  simp only [removeClient, hat, hfree, ok_bind, Bool.true_eq_false, if_false, State.setConn,
    State.setHeap, hconn]
  exact ⟨_, rfl⟩

theorem removeClient_done {closed : Bool} {code : Int} (serves : Serves st i c)
    (hrun : removeClient actions closed i st = .ok (code, st')) :
    (c.rxBuf.blocks ≠ [] ∧ c.txBuf.blocks ≠ []) ∧ Below i st st' ∧
      ((closed = true ∧ code = success ∧ st'.ps.len = st.ps.len - 1 ∧ st'.e = st.e) ∨
        (closed = false ∧ code ≠ success ∧ st'.ps.len = st.ps.len)) := by
  obtain ⟨d, hd, hrun⟩ := bind_eq_ok.mp hrun
  obtain rfl := Option.some.inj (serves.2.2.symm.trans (nonNull_eq_ok.mp hd))
  obtain ⟨⟨c', h⟩, hfree, hrun⟩ := bind_eq_ok.mp hrun
  have hblocks : c.rxBuf.blocks ≠ [] ∧ c.txBuf.blocks ≠ [] := by
    obtain ⟨rx, xs, tx, ys, hrx, htx, -⟩ := freeBuffers_cases hfree
    rw [hrx, htx]
    exact ⟨List.cons_ne_nil _ _, List.cons_ne_nil _ _⟩
  have hconns : ∀ j < i, ∀ d, Function.update st.ps.conns i d j = st.ps.conns j :=
    fun j hj d => Function.update_of_ne (Nat.ne_of_lt hj) _ _
  have hfds : ∀ j < i, ∀ f, Function.update st.ps.fds i f j = st.ps.fds j :=
    fun j hj f => Function.update_of_ne (Nat.ne_of_lt hj) _ _
  refine ⟨hblocks, ?_⟩
  cases closed with
  | false =>
    obtain ⟨rfl, rfl⟩ := ok_pair_inj hrun
    exact ⟨⟨fun j hj => hconns j hj _, fun _ _ => rfl⟩, .inr ⟨rfl, errorCausef_io, rfl⟩⟩
  | true =>
    obtain ⟨h', hconn, hrun⟩ := bind_eq_ok.mp hrun
    obtain ⟨rfl, rfl⟩ := ok_pair_inj hrun
    refine ⟨⟨fun j hj => ?_, fun j hj => hfds j hj _⟩, .inl ⟨rfl, rfl, rfl, rfl⟩⟩
    show Function.update (Function.update st.ps.conns i (some c')) i _ j = _
    rw [Function.update_of_ne (Nat.ne_of_lt hj), hconns j hj]

/-- What the iteration for a connection does when it comes to its end. -/
structure Handled (a : Answers) (tainted : Prop) (ev : Events) (i : Nat) (c : Connection)
    (st st' : State) : Prop where
  completes : Completes a tainted ev i c
  below : Below i st st'
  error : st'.e.causeCode ≠ success ↔ tainted ∨ Fails a ev i

theorem broken_iff : (ev.pollerr || ev.pollhup) = true ↔ ev.broken := by
  simp [Events.broken]

theorem serves_setConn (serves : Serves st i c) (d : Connection) (e : ErrorObject) :
    Serves ((st.setError e).setConn i d) i d :=
  ⟨serves.1, serves.2.1, Function.update_self _ _ _⟩

theorem owned_setConn {d : Connection} {e : ErrorObject} (owned : Owned st)
    (serves : Serves st i c) (hblocks : d.blocks = c.blocks) :
    Owned ((st.setError e).setConn i d) :=
  owned.update serves (local_same owned serves hblocks rfl) rfl rfl

theorem serveConn_returns (lawful : Lawful actions) (owned : Owned st) (serves : Serves st i c)
    (htaint : st.e.causeCode ≠ success ↔ tainted) (hwhole : ¬ ev.broken)
    (completes : Completes a tainted ev i c) :
    ∃ s, serveConn actions a i ev st = .ok (none, s) := by
  have hat : nonNull (st.ps.conns i) = .ok c := nonNull_eq_ok.mpr serves.2.2
  by_cases hin : ev.pollin = true
  · obtain ⟨⟨code, d, e'⟩, hread⟩ :=
      (handleRead_returns (e := st.e)).mpr (completes.reads hwhole hin)
    obtain ⟨hcode, herror, hrx, htx⟩ := handleRead_code hread
    simp only [serveConn, hat, ok_bind, if_pos hin, hread]
    by_cases hfail : code ≠ 0
    · have hremoval : Removal a tainted ev i :=
        .inr ⟨hin, (herror.mp (hcode ▸ hfail)).imp_left htaint.mp⟩
      obtain ⟨hclosed, hrxc, htxc⟩ := completes.frees hremoval
      obtain ⟨s, hremove⟩ := removeClient_returns lawful
        (owned_setConn (e := e') owned serves (handleRead_blocks hread))
          (serves_setConn serves d e')
        (hrx ▸ hrxc) (htx ▸ htxc)
      simp only [if_pos hfail, hclosed, hremove, ok_bind]
      exact ⟨_, rfl⟩
    · simp only [if_neg hfail]
      exact ⟨_, rfl⟩
  · by_cases hout : ev.pollout = true
    · obtain ⟨⟨d, e'⟩, hwrite⟩ := (handleWrite_returns (e := st.e)).mpr
        (completes.writes hwhole (Bool.eq_false_iff.mpr hin) hout)
      simp only [serveConn, hat, ok_bind, if_neg hin, if_pos hout, hwrite]
      exact ⟨_, rfl⟩
    · simp only [serveConn, hat, ok_bind, if_neg hin, if_neg hout]
      exact ⟨_, rfl⟩

theorem handleEvent_returns (lawful : Lawful actions) (owned : Owned st) (serves : Serves st i c)
    (hev : (st.ps.fds i).revents = ev) (htaint : st.e.causeCode ≠ success ↔ tainted)
    (completes : Completes a tainted ev i c) :
    ∃ s, handleEvent actions a i st = .ok (none, s) := by
  have hi : i ≠ 0 := Nat.ne_of_gt serves.1
  by_cases hnone : ev = Events.none
  · simp only [handleEvent, hev, if_pos hnone]
    exact ⟨_, rfl⟩
  · simp only [handleEvent, hev, if_neg hnone, if_neg hi]
    by_cases hbroken : ev.broken
    · obtain ⟨hclosed, hrx, htx⟩ := completes.frees (.inl hbroken)
      obtain ⟨s, hremove⟩ := removeClient_returns lawful owned serves hrx htx
      simp only [if_pos (broken_iff.mpr hbroken), hclosed, hremove, ok_bind]
      exact ⟨_, rfl⟩
    · simp only [if_neg (mt broken_iff.mp hbroken)]
      exact serveConn_returns lawful owned serves htaint hbroken completes

theorem serveConn_done (serves : Serves st i c)
    (htaint : st.e.causeCode ≠ success ↔ tainted) (hwhole : ¬ ev.broken)
    (hrun : serveConn actions a i ev st = .ok (none, st')) :
    Handled a tainted ev i c st st' := by
  obtain ⟨d, hd, hrun⟩ := bind_eq_ok.mp hrun
  obtain rfl := Option.some.inj (serves.2.2.symm.trans (nonNull_eq_ok.mp hd))
  by_cases hin : ev.pollin = true
  · simp only [if_pos hin] at hrun
    obtain ⟨⟨code, d, e'⟩, hread, hrun⟩ := bind_eq_ok.mp hrun
    obtain ⟨rfl, herror, hrx, htx⟩ := handleRead_code hread
    have hreads : ReadFits (a.recv i) c := handleRead_returns.mp ⟨_, hread⟩
    have hremoval : Removal a tainted ev i ↔ e'.causeCode ≠ success := by
      rw [herror, htaint]
      exact ⟨fun h => (h.resolve_left hwhole).2, fun h => .inr ⟨hin, h⟩⟩
    have hfails : (tainted ∨ Fails a ev i) ↔ e'.causeCode ≠ success := by
      rw [herror, htaint]
      refine or_congr_right ⟨fun h => ?_, fun h => ⟨hwhole, .inl ⟨hin, h⟩⟩⟩
      rcases h.2 with ⟨-, hends⟩ | ⟨hout, -⟩
      · exact hends
      · cases hin.symm.trans hout
    have hwrites : ¬ ev.broken → ev.pollin = false → ev.pollout = true → WriteFits (a.send i) c :=
      fun _ hnot => absurd (hin.symm.trans hnot) Bool.noConfusion
    by_cases hfail : e'.causeCode ≠ 0
    · simp only [if_pos hfail] at hrun
      obtain ⟨⟨code', s⟩, hremove, hrun⟩ := bind_eq_ok.mp hrun
      obtain ⟨hblocks, hbelow, hclose⟩ := removeClient_done (serves_setConn serves d e') hremove
      obtain ⟨rfl, hreturned⟩ := finish_done hrun
      have hsame : Below i st st' := by
        refine ⟨fun j hj => ?_, fun j hj => ?_⟩
        · exact (hbelow.conns j hj).trans ((below_setConn e').conns j hj)
        · exact hbelow.fds j hj
      rcases hclose with ⟨hclosed, -, -, he⟩ | ⟨-, hcode, -⟩
      · refine ⟨⟨fun _ _ => hreads, hwrites, fun _ => ?_⟩, hsame, ?_⟩
        · exact ⟨hclosed, hrx ▸ hblocks.1, htx ▸ hblocks.2⟩
        · rw [hfails, he]
          rfl
      · exact absurd (hreturned.mp rfl) hcode
    · simp only [if_neg hfail] at hrun
      obtain ⟨-, rfl⟩ := ok_pair_inj hrun
      have hquiet : ¬ Removal a tainted ev i := mt hremoval.mp hfail
      exact ⟨⟨fun _ _ => hreads, hwrites, fun h => absurd h hquiet⟩, below_setConn e', hfails.symm⟩
  · have hin' : ev.pollin = false := Bool.eq_false_iff.mpr hin
    have hquiet : ¬ Removal a tainted ev i := by
      rintro (hbroken | ⟨hpollin, -⟩)
      · exact hwhole hbroken
      · exact hin hpollin
    have hfails : Fails a ev i ↔ ev.pollout = true ∧ a.send i = .failed := by
      refine ⟨fun h => ?_, fun h => ⟨hwhole, .inr ⟨hin', h⟩⟩⟩
      rcases h.2 with ⟨hpollin, -⟩ | ⟨-, hsend⟩
      · exact absurd hpollin hin
      · exact hsend
    simp only [if_neg hin] at hrun
    by_cases hout : ev.pollout = true
    · simp only [if_pos hout] at hrun
      obtain ⟨⟨d, e'⟩, hwrite, hrun⟩ := bind_eq_ok.mp hrun
      obtain ⟨-, rfl⟩ := ok_pair_inj hrun
      refine ⟨⟨fun _ h => absurd h hin, fun _ _ _ => ?_, fun h => absurd h hquiet⟩,
        below_setConn e', ?_⟩
      · exact handleWrite_returns.mp ⟨_, hwrite⟩
      · have herror := handleWrite_code hwrite
        rw [hfails, ← htaint]
        exact herror.trans (or_congr_right ⟨fun h => ⟨hout, h⟩, fun h => h.2⟩)
    · simp only [if_neg hout] at hrun
      obtain ⟨-, rfl⟩ := ok_pair_inj hrun
      refine ⟨⟨fun _ h => absurd h hin, fun _ _ h => absurd h hout, fun h => absurd h hquiet⟩,
        .refl i st, ?_⟩
      rw [htaint, hfails]
      exact ⟨.inl, fun h => h.resolve_right fun hsend => hout hsend.1⟩

theorem handleEvent_done (serves : Serves st i c) (hev : (st.ps.fds i).revents = ev)
    (htaint : st.e.causeCode ≠ success ↔ tainted)
    (hrun : handleEvent actions a i st = .ok (none, st')) : Handled a tainted ev i c st st' := by
  have hi : i ≠ 0 := Nat.ne_of_gt serves.1
  by_cases hnone : ev = Events.none
  · simp only [handleEvent, hev, if_pos hnone] at hrun
    obtain ⟨-, rfl⟩ := ok_pair_inj hrun
    subst hnone
    have hquiet : ¬ Removal a tainted Events.none i := by simp [Removal, Events.broken, Events.none]
    have hfails : ¬ Fails a Events.none i := by simp [Fails, Events.none]
    refine ⟨⟨fun _ => Bool.noConfusion, fun _ _ => Bool.noConfusion, fun h => absurd h hquiet⟩,
      .refl i st, ?_⟩
    rw [htaint]
    exact ⟨.inl, fun h => h.resolve_right hfails⟩
  · simp only [handleEvent, hev, if_neg hnone, if_neg hi] at hrun
    by_cases hbroken : ev.broken
    · simp only [if_pos (broken_iff.mpr hbroken)] at hrun
      obtain ⟨⟨code, s⟩, hremove, hrun⟩ := bind_eq_ok.mp hrun
      obtain ⟨hblocks, hbelow, hclose⟩ := removeClient_done serves hremove
      obtain ⟨rfl, hreturned⟩ := finish_done hrun
      rcases hclose with ⟨hclosed, -, -, he⟩ | ⟨-, hcode, -⟩
      · refine ⟨⟨fun h => absurd hbroken h, fun h => absurd hbroken h,
          fun _ => ⟨hclosed, hblocks⟩⟩, hbelow, ?_⟩
        rw [he, htaint]
        exact ⟨.inl, fun h => h.resolve_right fun hfails => hfails.1 hbroken⟩
      · exact absurd (hreturned.mp rfl) hcode
    · simp only [if_neg (mt broken_iff.mp hbroken)] at hrun
      exact serveConn_done serves htaint hbroken hrun

/-- What an iteration does from its call of `remove_client` on. -/
theorem Removes.handleEvent_eq (hpos : 0 < i) (removes : Removes a i st) :
    ∃ t, t.ps.len = st.ps.len ∧ handleEvent actions a i st = (do
      let (failed, s) ← removeClient actions (a.closed i) i t
      if failed ≠ 0 then .ok (some (errorTrace s.e), s) else .ok (none, s)) := by
  have hi : i ≠ 0 := Nat.ne_of_gt hpos
  cases removes with
  | broken hbroken =>
    have hsome : (st.ps.fds i).revents ≠ Events.none := by
      intro hnone
      rw [hnone] at hbroken
      rcases hbroken with h | h
      · cases h
      · cases h
    refine ⟨st, rfl, ?_⟩
    simp only [handleEvent, if_neg hsome, if_neg hi, if_pos (broken_iff.mpr hbroken)]
  | @read c c' e failed hwhole hin hat hread hfail =>
    have hsome : (st.ps.fds i).revents ≠ Events.none := by
      intro hnone
      rw [hnone] at hin
      cases hin
    refine ⟨(st.setError e).setConn i c', rfl, ?_⟩
    simp only [handleEvent, if_neg hsome, if_neg hi, if_neg (mt broken_iff.mp hwhole), serveConn,
      hat, ok_bind, if_pos hin, hread, if_pos hfail]

/-- Any other iteration takes no notice of what `close` would answer, and removes nobody. -/
theorem handleEvent_unremoved {closed : Nat → Bool} (serves : Serves st i c)
    (stays : ¬ Removes a i st) :
    handleEvent actions { a with closed := closed } i st = handleEvent actions a i st ∧
      ∀ returned s, handleEvent actions a i st = .ok (returned, s) → s.ps.len = st.ps.len := by
  have hi : i ≠ 0 := Nat.ne_of_gt serves.1
  have hwhole : ¬ (st.ps.fds i).revents.broken := fun h => stays (.broken h)
  have hat : nonNull (st.ps.conns i) = .ok c := nonNull_eq_ok.mpr serves.2.2
  by_cases hnone : (st.ps.fds i).revents = Events.none
  · simp only [handleEvent, if_pos hnone]
    refine ⟨trivial, fun returned s hrun => ?_⟩
    obtain ⟨-, rfl⟩ := ok_pair_inj hrun
    rfl
  · simp only [handleEvent, if_neg hnone, if_neg hi, if_neg (mt broken_iff.mp hwhole), serveConn,
      hat, ok_bind]
    by_cases hin : (st.ps.fds i).revents.pollin = true
    · simp only [if_pos hin]
      cases hread : handleRead (a.recv i) c st.e with
      | error f =>
        refine ⟨rfl, fun _ _ hrun => ?_⟩
        cases hrun
      | ok result =>
        obtain ⟨failed, c', e⟩ := result
        have hzero : ¬ failed ≠ 0 := fun hfail => stays (.read hwhole hin hat hread hfail)
        simp only [ok_bind, if_neg hzero]
        refine ⟨trivial, fun returned s hrun => ?_⟩
        obtain ⟨-, rfl⟩ := ok_pair_inj hrun
        rfl
    · simp only [if_neg hin]
      refine ⟨trivial, fun returned s hrun => ?_⟩
      split at hrun
      · obtain ⟨⟨c', e⟩, -, hrun⟩ := bind_eq_ok.mp hrun
        obtain ⟨-, rfl⟩ := ok_pair_inj hrun
        rfl
      · obtain ⟨-, rfl⟩ := ok_pair_inj hrun
        rfl

end Iteration

section Pass

variable {actions : ConnActions} {a : Answers} {revents : Nat → Events} {st served s s' : State}
  {i n : Nat}

/-- The state in which the iterations below `n` start. -/
structure At (a : Answers) (revents : Nat → Events) (served : State) (n : Nat) (s : State) :
    Prop where
  len : n ≤ s.ps.len
  bound : n ≤ served.ps.len
  conns : ∀ j < n, s.ps.conns j = served.ps.conns j
  fds : ∀ j < n, (s.ps.fds j).revents = revents j
  owned : Owned s
  error : s.e.causeCode ≠ success ↔ FailsFrom a revents served.ps.len n

theorem At.serves (h : At a revents served (i + 1) s) (hpos : 0 < i) :
    ∃ c, Serves s i c ∧ Serves served i c := by
  obtain ⟨c, hc⟩ := h.owned.conn i hpos h.len
  exact ⟨c, ⟨hpos, h.len, hc⟩, ⟨hpos, h.bound, h.conns i (Nat.lt_succ_self i) ▸ hc⟩⟩

theorem failsFrom_step (hbound : n < served.ps.len) :
    FailsFrom a revents served.ps.len n ↔
      FailsFrom a revents served.ps.len (n + 1) ∨ Fails a (revents n) n := by
  constructor
  · rintro ⟨j, hj, hlt, hfails⟩
    rcases Nat.eq_or_lt_of_le hj with rfl | hlater
    · exact .inr hfails
    · exact .inl ⟨j, hlater, hlt, hfails⟩
  · rintro (⟨j, hj, hlt, hfails⟩ | hfails)
    · exact ⟨j, Nat.le_of_succ_le hj, hlt, hfails⟩
    · exact ⟨n, le_refl n, hbound, hfails⟩

theorem At.next (lawful : Lawful actions) (framed : Framed actions)
    (h : At a revents served (i + 1) s) (hpos : 0 < i)
    (hrun : handleEvent actions a i s = .ok (none, s')) : At a revents served i s' := by
  obtain ⟨c, hserves, -⟩ := h.serves hpos
  obtain ⟨hmoves, hlen⟩ :=
    handleEvent_moves (P := fun _ _ => True) lawful False.elim hserves.2.1 hrun
  have hev : (s.ps.fds i).revents = revents i := h.fds i (Nat.lt_succ_self i)
  have handled := handleEvent_done hserves hev h.error hrun
  have hhere := h.len
  refine ⟨by omega, Nat.le_of_succ_le h.bound, fun j hj => ?_, fun j hj => ?_,
    h.owned.steps lawful framed hmoves.steps, ?_⟩
  · exact (handled.below.conns j hj).trans (h.conns j (Nat.lt_succ_of_lt hj))
  · rw [handled.below.fds j hj]
    exact h.fds j (Nat.lt_succ_of_lt hj)
  · rw [handled.error]
    exact (failsFrom_step h.bound).symm

/-- Every iteration that the loop has passed came to its end. -/
theorem Reaches.passed (lawful : Lawful actions) (framed : Framed actions)
    (reaches : Reaches actions a n st i s) (hpos : 0 < i) (h : At a revents served n st) :
    At a revents served i s ∧ ∀ j c, i ≤ j → j < n → Serves served j c →
      Completes a (FailsFrom a revents served.ps.len (j + 1)) (revents j) j c := by
  have hle : ∀ {m k t t'}, Reaches actions a m t k t' → k ≤ m := by
    intro m k t t' hreach
    induction hreach with
    | here => exact le_refl _
    | next _ _ ih => exact Nat.le_succ_of_le ih
  induction reaches with
  | here n st => exact ⟨h, fun j c hj hlt => absurd hlt (Nat.not_lt.mpr hj)⟩
  | @next n i st s s' hrun hrest ih =>
    have hn : 0 < n := Nat.lt_of_lt_of_le hpos (hle hrest)
    obtain ⟨hat, hpassed⟩ := ih hpos (h.next lawful framed hn hrun)
    refine ⟨hat, fun j c hj hlt hc => ?_⟩
    rcases Nat.eq_or_lt_of_le (Nat.le_of_lt_succ hlt) with rfl | hearlier
    · obtain ⟨d, hserves, hserved⟩ := h.serves hn
      obtain rfl := Option.some.inj (hserved.2.2.symm.trans hc.2.2)
      exact (handleEvent_done hserves (h.fds j (Nat.lt_succ_self j)) h.error hrun).completes
    · exact hpassed j c hj hearlier hc

/-- The loop comes to every index above which all iterations come to their end. -/
theorem reaches_of_complete (lawful : Lawful actions) (framed : Framed actions)
    (h : At a revents served n st) (hpos : 0 < i) (hi : i ≤ n)
    (complete : ∀ j c, i ≤ j → j < n → Serves served j c →
      Completes a (FailsFrom a revents served.ps.len (j + 1)) (revents j) j c) :
    ∃ s, Reaches actions a n st i s ∧ At a revents served i s := by
  induction n generalizing st with
  | zero => omega
  | succ n ih =>
    rcases Nat.eq_or_lt_of_le hi with rfl | hlt
    · exact ⟨st, .here _ st, h⟩
    · have hn : 0 < n := by omega
      obtain ⟨c, hserves, hserved⟩ := h.serves hn
      obtain ⟨s, hrun⟩ := handleEvent_returns lawful h.owned hserves (h.fds n (Nat.lt_succ_self n))
        h.error (complete n c (Nat.le_of_lt_succ hlt) (Nat.lt_succ_self n) hserved)
      obtain ⟨s', hreaches, hat⟩ := ih (h.next lawful framed hn hrun) (Nat.le_of_lt_succ hlt)
        fun j c hj hjn => complete j c hj (Nat.lt_succ_of_lt hjn)
      exact ⟨s', .next hrun hreaches, hat⟩

theorem executeConns_quiet {grants : Nat → Nat → Grant} (lawful : Lawful actions)
    (clear : st.e.causeCode = success)
    (hrun : executeConns actions grants n i st = .ok (success, s)) :
    s.e.causeCode = success := by
  induction n generalizing i st with
  | zero =>
    obtain ⟨-, rfl⟩ := ok_pair_inj hrun
    exact clear
  | succ n ih =>
    obtain ⟨⟨returned, t⟩, hone, hrun⟩ := bind_eq_ok.mp hrun
    obtain ⟨c, -, hone⟩ := bind_eq_ok.mp hone
    obtain ⟨⟨failed, h, c', e'⟩, hfunc, hone⟩ := bind_eq_ok.mp hone
    by_cases hfail : failed ≠ 0
    · simp only [if_pos hfail] at hone
      obtain ⟨rfl, rfl⟩ := ok_pair_inj hone
      obtain ⟨hcode, rfl⟩ := ok_pair_inj hrun
      exact hcode
    · simp only [if_neg hfail] at hone
      obtain ⟨rfl, rfl⟩ := ok_pair_inj hone
      obtain rfl := not_not.mp hfail
      obtain rfl := lawful.quiet _ _ _ _ _ _ _ hfunc
      refine ih ?_ hrun
      exact clear

/-- The state in which the loop starts. -/
theorem at_start (lawful : Lawful actions) (framed : Framed actions) (owned : Owned st)
    (clear : st.e.causeCode = success)
    (hrun : pservExecuteConns actions a.grants st = .ok (success, served)) :
    At a revents served served.ps.len (storeRevents revents served) := by
  have hsteps : Steps actions (fun _ _ => True) False st served :=
    (pservExecuteConns_moves (fun _ _ _ => trivial) hrun).1.steps
  have hserved : Owned served := owned.steps lawful framed hsteps
  have hquiet := executeConns_quiet lawful clear hrun
  refine ⟨le_refl _, le_refl _, fun _ _ => rfl, fun _ _ => rfl, hserved.idle rfl rfl rfl, ?_⟩
  refine iff_of_false (not_not.mpr hquiet) ?_
  rintro ⟨j, hj, hlt, -⟩
  exact absurd hlt (Nat.not_lt.mpr hj)

/-- `handle_read` returns SUCCESS for its own connection only as long as no
index above it has failed in the same pass. -/
theorem isolated_iff (lawful : Lawful actions) (framed : Framed actions) (owned : Owned st)
    (clear : st.e.causeCode = success) :
    Isolated actions a st ↔
      ∀ served revents, pservExecuteConns actions a.grants st = .ok (success, served) →
        a.poll = .ready revents → Undisturbed a revents served := by
  constructor
  · intro isolated served revents hserved hpoll i c hc hwhole hin hdata hfailed
    by_contra hnone
    obtain ⟨hfits, hnone⟩ := not_or.mp hnone
    have complete : ∀ j d, i + 1 ≤ j → j < served.ps.len → Serves served j d →
        Completes a (FailsFrom a revents served.ps.len (j + 1)) (revents j) j d := by
      intro j d hj _ hd
      by_contra hstop
      exact hnone ⟨j, d, hj, hd, hstop⟩
    have hstart : At a revents served served.ps.len (storeRevents revents served) :=
      at_start lawful framed owned clear hserved
    obtain ⟨s, hreaches, hat⟩ :=
      reaches_of_complete lawful framed hstart (Nat.succ_pos i) hc.2.1 complete
    obtain ⟨d, hserves, hd⟩ := hat.serves hc.1
    obtain rfl := Option.some.inj (hc.2.2.symm.trans hd.2.2)
    have hev : (s.ps.fds i).revents = revents i := hat.fds i (Nat.lt_succ_self i)
    rw [← hev] at hwhole hin
    obtain ⟨⟨failed, c', e⟩, hread⟩ := (handleRead_returns (e := s.e)).mpr (not_not.mp hfits)
    obtain ⟨rfl, herror, -⟩ := handleRead_code hread
    have hfail : e.causeCode ≠ success := herror.mpr (.inl (hat.error.mpr hfailed))
    rcases isolated i s hc.1 ⟨served, revents, hserved, hpoll, hreaches⟩
      (.read hwhole hin (nonNull_eq_ok.mpr hserves.2.2) hread hfail) with hbroken | ⟨-, hends⟩
    · exact hwhole hbroken
    · exact hdata hends
  · rintro undisturbed i s hpos ⟨served, revents, hserved, hpoll, hreaches⟩ removes
    have hstart : At a revents served served.ps.len (storeRevents revents served) :=
      at_start lawful framed owned clear hserved
    obtain ⟨hat, hpassed⟩ := hreaches.passed lawful framed (Nat.succ_pos i) hstart
    obtain ⟨c, hserves, hc⟩ := hat.serves hpos
    have hev : (s.ps.fds i).revents = revents i := hat.fds i (Nat.lt_succ_self i)
    cases removes with
    | broken hbroken => exact .inl hbroken
    | read hwhole hin hsome hread hfail =>
      obtain rfl := Option.some.inj (hserves.2.2.symm.trans (nonNull_eq_ok.mp hsome))
      obtain ⟨rfl, herror, -⟩ := handleRead_code hread
      refine .inr ⟨hin, ?_⟩
      by_contra hdata
      rw [hev] at hwhole hin
      have hfailed := hat.error.mp ((herror.mp hfail).resolve_right hdata)
      rcases undisturbed served revents hserved hpoll i c hc hwhole hin hdata hfailed with
        hfits | ⟨j, d, hj, hd, hstop⟩
      · exact hfits (handleRead_returns.mp ⟨_, hread⟩)
      · exact hstop (hpassed j d hj hd.2.1 hd)

end Pass

/-! ## Two clients -/

/-- A client that waits for its next request, with the buffers `id + 1` and `id + 2`. -/
def waitingClient (id : Nat) (fd : Int) : Connection :=
  ⟨id, .block (id + 1) [0, 0, 0, 0], 4, 0, .block (id + 2) [0, 0, 0, 1, 97], 0, 0, ⟨fd, [], []⟩⟩

def twoClients : State where
  ps := {
    fds := fun i => ⟨i, Events.none, Events.none⟩
    conns := fun i =>
      if i = 1 then some (waitingClient 0 1) else if i = 2 then some (waitingClient 3 2) else none
    len := 3
    cap := 101
    running := 1
    opened := true }
  heap := ⟨Finset.range 6, 6, fun _ h => Finset.mem_range.mp h⟩
  e := errorCreate

/-- The second client has closed its end, the first one sends a byte. -/
def oneLeaves : Answers where
  grants _ _ := ⟨true, fun _ => 0⟩
  poll := .ready fun i => if i = 0 then Events.none else { Events.none with pollin := true }
  recv i := if i = 2 then .data [] else .data [0]
  send _ := .failed
  closed _ := true
  accept := ⟨⟨true, fun _ => 0⟩, none, true, true, true⟩

theorem twoClients_serves {i : Nat} {c : Connection} (h : Serves twoClients i c) :
    (i = 1 ∧ c = waitingClient 0 1) ∨ (i = 2 ∧ c = waitingClient 3 2) := by
  obtain ⟨hpos, hlt, hat⟩ := h
  have hlt : i < 3 := hlt
  obtain rfl | rfl : i = 1 ∨ i = 2 := by omega
  · exact .inl ⟨rfl, (Option.some.inj hat).symm⟩
  · exact .inr ⟨rfl, (Option.some.inj hat).symm⟩

theorem twoClients_owned : Owned twoClients := by
  refine ⟨fun i hpos hlt => ?_, fun i c h => ?_, fun i c h => ?_, fun i j c d b hc hd hb hb' => ?_⟩
  · have hlt : i < 3 := hlt
    obtain rfl | rfl : i = 1 ∨ i = 2 := by omega
    · exact ⟨_, rfl⟩
    · exact ⟨_, rfl⟩
  · rcases twoClients_serves h with ⟨-, rfl⟩ | ⟨-, rfl⟩
    · decide
    · decide
  · rcases twoClients_serves h with ⟨-, rfl⟩ | ⟨-, rfl⟩
    · decide
    · decide
  · have apart : ∀ b ∈ (waitingClient 0 1).blocks, b ∉ (waitingClient 3 2).blocks := by decide
    rcases twoClients_serves hc with ⟨rfl, rfl⟩ | ⟨rfl, rfl⟩
    · rcases twoClients_serves hd with ⟨rfl, rfl⟩ | ⟨rfl, rfl⟩
      · rfl
      · exact absurd hb' (apart b hb)
    · rcases twoClients_serves hd with ⟨rfl, rfl⟩ | ⟨rfl, rfl⟩
      · exact absurd hb (apart b hb')
      · rfl

/-- The first client has closed its end, the second one sends a byte. -/
def otherLeaves : Answers :=
  { oneLeaves with recv := fun i => if i = 1 then .data [] else .data [0] }

theorem otherLeaves_undisturbed {served : State} {revents : Nat → Events}
    (hserved : pservExecuteConns (EchoServer.echoActions ⟨[], []⟩) otherLeaves.grants
      twoClients = .ok (success, served)) : Undisturbed otherLeaves revents served := by
  have hlen : served.ps.len = 3 := by
    have hall : ∃ s, pservExecuteConns (EchoServer.echoActions ⟨[], []⟩) otherLeaves.grants
        twoClients = .ok (success, s) ∧ s.ps.len = 3 := ⟨_, rfl, rfl⟩
    obtain ⟨s, hrun, hlen⟩ := hall
    obtain ⟨-, rfl⟩ := ok_pair_inj (hserved.symm.trans hrun)
    exact hlen
  intro i c hserves _ _ hdata hfailed
  obtain ⟨j, hj, hlt, hwhole, hfails⟩ := hfailed
  -- only index 1 fails, and no index with data is below it
  have hi : i ≠ 1 := by
    rintro rfl
    exact hdata (.inr rfl)
  have hpos := hserves.1
  omega

/-- The client that leaves is removed, and the one read before it stays. -/
theorem otherLeaves_isolated :
    (∃ s, Handles (EchoServer.echoActions ⟨[], []⟩) otherLeaves twoClients 1 s ∧
      Removes otherLeaves 1 s) ∧
    Isolated (EchoServer.echoActions ⟨[], []⟩) otherLeaves twoClients := by
  refine ⟨⟨_, ⟨_, _, rfl, rfl, .next rfl (.here _ _)⟩, ?_⟩, ?_⟩
  · exact .read (by rintro (h | h) <;> cases h) rfl rfl rfl (by decide)
  · exact (isolated_iff (EchoServer.echo_lawful _) (EchoServer.echo_framed _) twoClients_owned
      rfl).mpr fun _ _ hserved _ => otherLeaves_undisturbed hserved

/-- The client that sends a byte is removed with the one that left. -/
theorem sender_removed :
    Owned twoClients ∧ twoClients.e.causeCode = success ∧
      ¬ Isolated (EchoServer.echoActions ⟨[], []⟩) oneLeaves twoClients := by
  refine ⟨twoClients_owned, rfl, fun isolated => ?_⟩
  have hremoved : ∃ s, Handles (EchoServer.echoActions ⟨[], []⟩) oneLeaves twoClients 1 s ∧
      Removes oneLeaves 1 s ∧ (s.ps.fds 1).revents = { Events.none with pollin := true } :=
    ⟨_, ⟨_, _, rfl, rfl, .next rfl (.here _ _)⟩,
      .read (by rintro (h | h) <;> cases h) rfl rfl rfl (by decide), rfl⟩
  obtain ⟨s, handles, removes, hev⟩ := hremoved
  have hown := isolated 1 s Nat.one_pos handles removes
  rw [hev] at hown
  rcases hown with (herr | hhup) | ⟨-, hfailed | hnil⟩
  · cases herr
  · cases hhup
  · cases hfailed
  · cases hnil

end Polling
