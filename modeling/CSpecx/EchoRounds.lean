import CSpecx.EchoExchange

/-!
# One call on all connections

A call of `pserv_execute` that meets no error calls `echo_conn_func` once for
every connection and then gives each its turn, as `poll` says of it. At the end
it may accept one more connection; none is lost or moved.
-/

namespace EchoServer

open CExec Component Errors HeapBuffers Polling

/-- What a call does to one connection, written as for the only one. -/
def slot (a : Answers) (i : Nat) : Answers :=
  { a with
    poll := match a.poll with
      | .ready revents => .ready fun _ => revents i
      | result => result
    recv := fun _ => a.recv i
    send := fun _ => a.send i }

/-- The server between two calls. -/
structure Ready (st : State) : Prop where
  owned : Owned st
  some : 0 < st.ps.len
  room : st.ps.len ≤ st.ps.cap

/-- A client is waiting, and there is memory for its connection. -/
structure Accepts (a : Accept) (s : State) : Prop where
  sock : ∃ fd, a.sock = some fd
  granted : a.conn.granted = true ∧ a.fdsGranted = true ∧ a.connsGranted = true
  small : s.ps.len < s.ps.cap ∨ s.ps.cap * 16 < 2 ^ 32

/-- `poll` does not fail, reports no error and only what `events` asks for, no socket ends or
fails, and an accepted connection can be stored. -/
structure Calm (a : Answers) (s : State) : Prop where
  alive : a.poll ≠ .failed
  listens : ∀ revents, a.poll = .ready revents → revents 0 ≠ Events.none →
    (revents 0).pollin = true ∧ Accepts a.accept s
  quiet : ∀ revents, a.poll = .ready revents → ∀ i, 0 < i → i < s.ps.len → ¬ (revents i).broken
  honest : ∀ revents, a.poll = .ready revents → Honest s revents
  recv : ∀ revents, a.poll = .ready revents → ∀ i, 0 < i → i < s.ps.len →
    (revents i).pollin = true → ¬ Ends (a.recv i)
  send : ∀ revents, a.poll = .ready revents → ∀ i, 0 < i → i < s.ps.len →
    (revents i).pollout = true → a.send i ≠ .failed

/-- What the first loop leaves of a connection. -/
structure Served (ctx : EchoContext) (grants : Nat → Nat → Grant) (e : ErrorObject) (s : State)
    (i : Nat) (c c' : Connection) : Prop where
  func : ∃ h h', echoConnFunc ctx (grants i) h c e = .ok (success, h', c', e)
  conn : s.ps.conns i = some c'
  events : (s.ps.fds i).events = wanted c'
  sound : Sound c'

/-- No connection is lost, and at most one is new. -/
def Grown (st st' : State) : Prop :=
  st'.ps.len = st.ps.len ∨
    st'.ps.len = st.ps.len + 1 ∧ ∃ id fd, st'.ps.conns st.ps.len = some (.fresh id fd)

section Serving

variable {ctx : EchoContext} {grants : Nat → Nat → Grant} {st s : State} {e : ErrorObject}
  {i n : Nat} {c : Connection}

/-- The iteration for one connection. -/
theorem executeConn_round (owned : Owned st) (serves : Serves st i c) (he : st.e = e)
    (sound : Sound c) (inRange : InRange ctx c) (granted : ∀ k, (grants i k).granted = true) :
    ∃ s c', executeConn (echoActions ctx) (grants i) i st = .ok (none, s) ∧ Owned s ∧ s.e = e ∧
      Served ctx grants e s i c c' ∧ s.ps.len = st.ps.len ∧ s.ps.cap = st.ps.cap ∧
      ∀ j ≠ i, s.ps.conns j = st.ps.conns j ∧ s.ps.fds j = st.ps.fds j := by
  have fitting : Fitting ctx (grants i) c := ⟨granted, inRange⟩
  obtain ⟨h', c', e', hfunc⟩ :=
    echoConnFunc_returns (h := st.heap) (e := e) sound fitting (owned.live i c serves)
  have serving := echoConnFunc_serving hfunc
  obtain rfl := serving.quiet
  have hat : nonNull (st.ps.conns i) = .ok c := nonNull_eq_ok.mpr serves.2.2
  obtain ⟨f, hf⟩ : ∃ f : PollFd, f = { st.ps.fds i with events := wanted c' } := ⟨_, rfl⟩
  have hevents : f.events = wanted c' := by rw [hf]
  have hfunc' : (echoActions ctx).connFunc (grants i) st.heap c e' =
      .ok (success, h', c', e') := hfunc
  have hrun : executeConn (echoActions ctx) (grants i) i st =
      .ok (none, (((st.setHeap h').setError e').setConn i c').setFd i f) := by
    simp only [executeConn, hat, ok_bind, he, hfunc', hf]
    rfl
  have hmoves : Moves (echoActions ctx) (fun _ _ => True) False st _ :=
    (executeConn_moves serves.1 serves.2.1 (fun _ _ => trivial) hrun).1
  refine ⟨_, c', hrun, owned.steps (echo_lawful ctx) (echo_framed ctx) hmoves.steps, rfl,
    ⟨⟨st.heap, h', hfunc⟩, Function.update_self _ _ _, ?_, serving.sound sound fitting⟩, rfl, rfl,
    fun j hj => ⟨Function.update_of_ne hj _ _, Function.update_of_ne hj _ _⟩⟩
  exact (congrArg PollFd.events (Function.update_self _ _ _)).trans hevents

theorem executeConns_round (owned : Owned st) (hpos : 0 < i) (hlen : i + n ≤ st.ps.len)
    (he : st.e = e)
    (all : ∀ j c, i ≤ j → Serves st j c → Sound c ∧ InRange ctx c)
    (granted : ∀ j k, (grants j k).granted = true) :
    ∃ s, executeConns (echoActions ctx) grants n i st = .ok (success, s) ∧ Owned s ∧ s.e = e ∧
      s.ps.len = st.ps.len ∧ s.ps.cap = st.ps.cap ∧
      (∀ j c, i ≤ j → j < i + n → Serves st j c → ∃ c', Served ctx grants e s j c c') ∧
      ∀ j < i, s.ps.conns j = st.ps.conns j ∧ s.ps.fds j = st.ps.fds j := by
  induction n generalizing i st with
  | zero =>
    exact ⟨st, rfl, owned, he, rfl, rfl, fun j _ hj hlt => absurd hlt (by omega),
      fun _ _ => ⟨rfl, rfl⟩⟩
  | succ n ih =>
    obtain ⟨c, hc⟩ := owned.conn i hpos (by omega)
    have serves : Serves st i c := ⟨hpos, by omega, hc⟩
    obtain ⟨sound, inRange⟩ := all i c le_rfl serves
    obtain ⟨t, c', hone, owned', he', hserved, hlen', hcap', hothers⟩ :=
      executeConn_round owned serves he sound inRange (granted i)
    have hback : ∀ j d, i + 1 ≤ j → Serves t j d → Serves st j d := by
      intro j d hj hd
      refine ⟨hd.1, hlen' ▸ hd.2.1, ?_⟩
      rw [← (hothers j (by omega)).1]
      exact hd.2.2
    obtain ⟨s, hrest, owned'', he'', hslen, hscap, hserves, hbelow⟩ :=
      ih owned' (Nat.succ_pos i) (by omega) he' fun j d hj hd =>
        all j d (by omega) (hback j d hj hd)
    refine ⟨s, ?_, owned'', he'', hslen.trans hlen', hscap.trans hcap', fun j d hj hlt hd => ?_,
      fun j hj => ?_⟩
    · simp only [executeConns, hone, ok_bind]
      exact hrest
    · rcases Nat.eq_or_lt_of_le hj with rfl | hlater
      · obtain rfl := Option.some.inj (hc.symm.trans hd.2.2)
        obtain ⟨hconns, hfds⟩ := hbelow i (Nat.lt_succ_self i)
        exact ⟨c', hserved.func, hconns.trans hserved.conn, hfds ▸ hserved.events, hserved.sound⟩
      · refine hserves j d hlater (by omega) ⟨hd.1, hlen' ▸ hd.2.1, ?_⟩
        rw [(hothers j (by omega)).1]
        exact hd.2.2
    · obtain ⟨hconns, hfds⟩ := hbelow j (by omega)
      obtain ⟨hconns', hfds'⟩ := hothers j (by omega)
      exact ⟨hconns.trans hconns', hfds.trans hfds'⟩

/-- The pass over the connections serves each of them once and registers its events. -/
theorem pservExecuteConns_round (ready : Ready st)
    (all : ∀ i c, Serves st i c → Sound c ∧ InRange ctx c)
    (granted : ∀ i k, (grants i k).granted = true) :
    ∃ s, pservExecuteConns (echoActions ctx) grants (st.setError e) = .ok (success, s) ∧ Ready s ∧
      s.e = e ∧ s.ps.len = st.ps.len ∧
      (∀ i c, Serves st i c → ∃ c', Served ctx grants e s i c c') ∧
      ∀ i c, Serves s i c → Sound c ∧ (s.ps.fds i).events = wanted c := by
  have owned : Owned (st.setError e) := ready.owned.idle rfl rfl rfl
  have hsome := ready.some
  have hbound : 1 + (st.ps.len - 1) ≤ (st.setError e).ps.len := by
    show 1 + (st.ps.len - 1) ≤ st.ps.len
    omega
  obtain ⟨s, hrun, owned', he, hlen, hcap, hserves, -⟩ :=
    executeConns_round owned Nat.one_pos hbound rfl (fun j c _ hc => all j c hc) granted
  have hslen : s.ps.len = st.ps.len := hlen
  have hroom : s.ps.len ≤ s.ps.cap := hlen ▸ hcap ▸ ready.room
  have hserved : ∀ i c, Serves st i c → ∃ c', Served ctx grants e s i c c' := by
    intro i c hc
    have hlt := hc.2.1
    exact hserves i c hc.1 (by omega) hc
  refine ⟨s, hrun, ⟨owned', hlen ▸ hsome, hroom⟩, he, hslen, hserved, fun i d hd => ?_⟩
  have hlt : i < st.ps.len := hslen ▸ hd.2.1
  obtain ⟨c, hc⟩ := ready.owned.conn i hd.1 hlt
  obtain ⟨c', served⟩ := hserved i c ⟨hd.1, hlt, hc⟩
  obtain rfl := Option.some.inj (hd.2.2.symm.trans served.conn)
  exact ⟨served.sound, served.events⟩

end Serving

section Handling

variable {ctx : EchoContext} {a : Answers} {s t : State} {c : Connection} {e : ErrorObject}
  {i n : Nat} {revents : Nat → Events}

/-- A socket that does not end gives bytes, and the call goes on. -/
theorem handleRead_calm {r : RecvResult} (sound : Sound c) (hin : (wanted c).pollin = true)
    (clear : e.causeCode = success) (hends : ¬ Ends r) :
    ∃ c', handleRead r c e = .ok (success, c', e) := by
  obtain ⟨⟨code, c', e'⟩, hrun⟩ := (handleRead_returns (e := e)).mpr (readFits_wanted sound hin r)
  obtain ⟨-, ⟨-, -, hends', -⟩ | ⟨-, -, -, -, -, -, hcode, he, -⟩⟩ := handleRead_cases hrun
  · exact absurd hends' hends
  · subst he
    exact ⟨c', hrun.trans (by rw [hcode, clear])⟩

theorem handleWrite_calm {r : SendResult} (sound : Sound c) (hout : (wanted c).pollout = true)
    (hsent : r ≠ .failed) : ∃ c', handleWrite r c e = .ok (c', e) := by
  obtain ⟨⟨c', e'⟩, hrun⟩ := (handleWrite_returns (e := e)).mpr (writeFits_wanted sound hout r)
  obtain ⟨-, ⟨-, hfailed, -⟩ | ⟨-, -, -, -, -, he, -⟩⟩ := handleWrite_cases hrun
  · exact absurd hfailed hsent
  · subst he
    exact ⟨c', hrun⟩

/-- The state after one connection has had its turn. -/
structure After (s : State) (i : Nat) (c : Connection) (s' : State) : Prop where
  ps : s'.ps = { s.ps with conns := Function.update s.ps.conns i (some c) }
  e : s'.e = s.e

theorem after_same (hat : s.ps.conns i = some c) : After s i c s :=
  ⟨by rw [← hat, Function.update_eq_self], rfl⟩

/-- The branches behind `POLLERR` give the connection a turn. -/
theorem serveConn_round (ctx : EchoContext) (hat : s.ps.conns i = some c)
    (hpoll : a.poll = .ready revents) (clear : s.e.causeCode = success) (sound : Sound c)
    (hin : (revents i).pollin = true → (wanted c).pollin = true ∧ ¬ Ends (a.recv i))
    (hout : (revents i).pollout = true → (wanted c).pollout = true ∧ a.send i ≠ .failed) :
    ∃ s' c', serveConn (echoActions ctx) a i (revents i) s = .ok (none, s') ∧
      Turn (slot a i) s.e c c' ∧ After s i c' s' := by
  have hconn : nonNull (s.ps.conns i) = .ok c := nonNull_eq_ok.mpr hat
  have hslot : (slot a i).poll = .ready fun _ => revents i := by simp only [slot, hpoll]
  cases hinput : (revents i).pollin with
  | true =>
    obtain ⟨hwants, hends⟩ := hin hinput
    obtain ⟨c', hread⟩ := handleRead_calm sound hwants clear hends
    refine ⟨(s.setError s.e).setConn i c', c', ?_, .inr ⟨_, hslot, .inl ⟨hinput, hread⟩⟩, rfl, rfl⟩
    simp only [serveConn, hconn, ok_bind, hinput, if_true, hread]
    rfl
  | false =>
    cases houtput : (revents i).pollout with
    | true =>
      obtain ⟨hwants, hsent⟩ := hout houtput
      obtain ⟨c', hwrite⟩ := handleWrite_calm (e := s.e) sound hwants hsent
      refine ⟨(s.setError s.e).setConn i c', c', ?_,
        .inr ⟨_, hslot, .inr (.inl ⟨hinput, houtput, hwrite⟩)⟩, rfl, rfl⟩
      simp only [serveConn, hconn, ok_bind, hinput, houtput, if_true, Bool.false_eq_true, if_false,
        hwrite]
    | false =>
      refine ⟨s, c, ?_, .inr ⟨_, hslot, .inr (.inr ⟨hinput, houtput, rfl⟩)⟩, after_same hat⟩
      simp only [serveConn, hconn, ok_bind, hinput, houtput, Bool.false_eq_true, if_false]

/-- The iteration for a connection. -/
theorem handleEvent_round (ctx : EchoContext) (hpos : 0 < i) (hat : s.ps.conns i = some c)
    (hev : (s.ps.fds i).revents = revents i) (hpoll : a.poll = .ready revents)
    (clear : s.e.causeCode = success) (sound : Sound c) (hbroken : ¬ (revents i).broken)
    (hin : (revents i).pollin = true → (wanted c).pollin = true ∧ ¬ Ends (a.recv i))
    (hout : (revents i).pollout = true → (wanted c).pollout = true ∧ a.send i ≠ .failed) :
    ∃ s' c', handleEvent (echoActions ctx) a i s = .ok (none, s') ∧ Turn (slot a i) s.e c c' ∧
      After s i c' s' := by
  by_cases hnone : revents i = Events.none
  · have hslot : (slot a i).poll = .ready fun _ => revents i := by simp only [slot, hpoll]
    refine ⟨s, c, ?_, .inr ⟨_, hslot, .inr (.inr ⟨?_, ?_, rfl⟩)⟩, after_same hat⟩
    · simp only [handleEvent, hev, if_pos hnone]
    · rw [hnone]
      rfl
    · rw [hnone]
      rfl
  · obtain ⟨s', c', hrun, hturn⟩ :=
      serveConn_round ctx hat hpoll clear sound hin hout
    refine ⟨s', c', ?_, hturn⟩
    simp only [handleEvent, hev, if_neg hnone, if_neg (Nat.pos_iff_ne_zero.mp hpos),
      if_neg (mt broken_iff.mp hbroken), hrun]

/-- Enough room for one more connection, if need be after a reallocation. -/
theorem growIfNeeded_calm {x : Accept} (accepts : Accepts x s) (hpos : 0 < s.ps.len)
    (hroom : s.ps.len ≤ s.ps.cap) :
    ∃ t, growIfNeeded x s = .ok (success, t) ∧ t.ps.len < t.ps.cap ∧ t.ps.len = s.ps.len ∧
      t.ps.conns = s.ps.conns := by
  obtain ⟨-, hfds, hconns⟩ := accepts.granted
  by_cases hfree : s.ps.len < s.ps.cap
  · exact ⟨s, by simp only [growIfNeeded, if_pos hfree], hfree, rfl, rfl⟩
  · have hsmall := accepts.small.resolve_left hfree
    have hcap : u32 (s.ps.cap * 2) = s.ps.cap * 2 := Nat.mod_eq_of_lt (by omega)
    have hgrow : ∀ g, g = true → growArray g (s.ps.cap * 2) s = .ok (true, s) := by
      rintro g rfl
      have hnew : 0 < s.ps.cap * 2 := by omega
      have hbytes : s.ps.cap * 2 * 8 < 2 ^ 32 := by omega
      simp only [growArray, assert_pos hnew, assert_pos hbytes, ok_bind, if_true]
    refine ⟨{ s with ps := { s.ps with cap := s.ps.cap * 2 } }, ?_, ?_, rfl, rfl⟩
    · simp only [growIfNeeded, if_neg hfree, hcap, hgrow _ hfds, hgrow _ hconns, ok_bind,
        Bool.true_eq_false, if_false]
    · show s.ps.len < s.ps.cap * 2
      omega

theorem addConn_grown (hroom : s.ps.len < s.ps.cap) : ∃ s', addConn c s = .ok s' ∧
    s'.ps.len = s.ps.len + 1 ∧ s'.ps.cap = s.ps.cap ∧
      s'.ps.conns = Function.update s.ps.conns s.ps.len (some c) := by
  obtain ⟨t, ht⟩ : ∃ t,
    t = (s.setFd s.ps.len ⟨c.sock.fd, Events.none, Events.none⟩).setConn s.ps.len c := ⟨_, rfl⟩
  have hrun : addConn c s = .ok { t with ps := { t.ps with len := t.ps.len + 1 } } := by
    simp only [addConn, access_pos hroom, ok_bind, ht]
  subst ht
  exact ⟨_, hrun, rfl, rfl, rfl⟩

/-- The iteration for the listening socket accepts a client or does nothing. -/
theorem handleEvent_listens (ctx : EchoContext) (hev : (s.ps.fds 0).revents = revents 0)
    (hpos : 0 < s.ps.len) (hroom : s.ps.len ≤ s.ps.cap)
    (listens : revents 0 ≠ Events.none → (revents 0).pollin = true ∧ Accepts a.accept s) :
    ∃ s', handleEvent (echoActions ctx) a 0 s = .ok (none, s') ∧ Grown s s' ∧
      s'.ps.len ≤ s'.ps.cap ∧ ∀ j < s.ps.len, s'.ps.conns j = s.ps.conns j := by
  by_cases hnone : revents 0 = Events.none
  · refine ⟨s, ?_, .inl rfl, hroom, fun _ _ => rfl⟩
    simp only [handleEvent, hev, if_pos hnone]
  · obtain ⟨hin, accepts⟩ := listens hnone
    obtain ⟨fd, hfd⟩ := accepts.sock
    obtain ⟨t, hgrow, hcap, hlen, hconns⟩ :=
      growIfNeeded_calm (s := (s.setHeap s.heap.grow).setError s.e)
      ⟨accepts.sock, accepts.granted, accepts.small⟩ hpos hroom
    obtain ⟨s', hadd, hlen', hcap', hconns'⟩ := addConn_grown (c := .fresh s.heap.next fd) hcap
    have halloc : (echoActions ctx).connAlloc a.accept.conn s.heap s.e =
        .ok (some s.heap.next, s.heap.grow, s.e) := by
      have hfits : 1 * 40 < 2 ^ 32 := by decide
      show echoConnAlloc a.accept.conn s.heap s.e = _
      simp only [echoConnAlloc, iMalloc, assert_pos Nat.one_pos,
        assert_pos (show 0 < 40 by decide), if_pos hfits, if_pos accepts.granted.1,
        ok_bind, if_true]
    have hsuccess : ¬ success ≠ 0 := fun h => h rfl
    have htlen : t.ps.len = s.ps.len := hlen
    rw [hconns, htlen] at hconns'
    refine ⟨s', ?_, .inr ⟨by rw [hlen', htlen], s.heap.next, fd, ?_⟩, ?_, fun j hj => ?_⟩
    · simp only [handleEvent, hev, if_neg hnone, if_true, assert_pos hin, ok_bind, handleAccept,
        halloc, acceptConn, hfd, hgrow, if_neg hsuccess, hadd]
    · rw [hconns', Function.update_self]
    · rw [hlen', hcap']
      exact hcap
    · rw [hconns', Function.update_of_ne (Nat.ne_of_lt hj)]
      rfl

theorem Calm.after {s' : State} (calm : Calm a s) (after : After s i c s') : Calm a s' where
  alive := calm.alive
  listens revents hpoll hev := by
    obtain ⟨hin, accepts⟩ := calm.listens revents hpoll hev
    refine ⟨hin, accepts.sock, accepts.granted, ?_⟩
    rw [after.ps]
    exact accepts.small
  quiet revents hpoll := by
    rw [after.ps]
    exact calm.quiet revents hpoll
  honest revents hpoll j := by
    rw [after.ps]
    exact calm.honest revents hpoll j
  recv revents hpoll := by
    rw [after.ps]
    exact calm.recv revents hpoll
  send revents hpoll := by
    rw [after.ps]
    exact calm.send revents hpoll

/-- The loop from the last connection down to the listening socket. The invariant is that the
indices the loop has not come to are as `poll` left them. -/
theorem pollLoop_round (ctx : EchoContext) (hlen : n < s.ps.len) (hpoll : a.poll = .ready revents)
    (calm : Calm a s) (room : s.ps.len ≤ s.ps.cap) (clear : s.e.causeCode = success)
    (fds : ∀ j, (s.ps.fds j).revents = revents j)
    (conns : ∀ j, 0 < j → j ≤ n →
      ∃ c, s.ps.conns j = some c ∧ Sound c ∧ (s.ps.fds j).events = wanted c) :
    ∃ code s', pollLoop (echoActions ctx) a (n + 1) s = .ok (code, s') ∧ Grown s s' ∧
      s'.ps.len ≤ s'.ps.cap ∧
      (∀ j c, 0 < j → j ≤ n → s.ps.conns j = some c →
        ∃ c', s'.ps.conns j = some c' ∧ Turn (slot a j) s.e c c') ∧
      ∀ j, n < j → j < s.ps.len → s'.ps.conns j = s.ps.conns j := by
  induction n generalizing s with
  | zero =>
    obtain ⟨s', hone, hgrown, hroom, hold⟩ := handleEvent_listens ctx (fds 0) hlen room
      (calm.listens revents hpoll)
    refine ⟨s'.ps.running, s', ?_, hgrown, hroom, fun j c hpos hj => absurd hpos (by omega),
      fun j _ hj => hold j hj⟩
    simp only [pollLoop, hone, ok_bind]
  | succ n ih =>
    obtain ⟨c, hat, sound, hwanted⟩ := conns (n + 1) (Nat.succ_pos n) le_rfl
    have hhonest := calm.honest revents hpoll (n + 1)
    rw [hwanted] at hhonest
    obtain ⟨t, c', hone, turn, after⟩ := handleEvent_round ctx (Nat.succ_pos n) hat
      (fds (n + 1)) hpoll clear sound (calm.quiet revents hpoll _ (Nat.succ_pos n) hlen)
      (fun hin => ⟨hhonest.1 hin, calm.recv revents hpoll _ (Nat.succ_pos n) hlen hin⟩)
      (fun hout => ⟨hhonest.2 hout, calm.send revents hpoll _ (Nat.succ_pos n) hlen hout⟩)
    have htlen : t.ps.len = s.ps.len := by rw [after.ps]
    have htcap : t.ps.cap = s.ps.cap := by rw [after.ps]
    have htfds : t.ps.fds = s.ps.fds := by rw [after.ps]
    have htconns : t.ps.conns = Function.update s.ps.conns (n + 1) (some c') := by rw [after.ps]
    have htself : t.ps.conns (n + 1) = some c' := by rw [htconns, Function.update_self]
    have htother : ∀ j ≠ n + 1, t.ps.conns j = s.ps.conns j := by
      intro j hj
      rw [htconns, Function.update_of_ne hj]
    obtain ⟨code, s', hrest, hgrown, hroom, hturns, habove⟩ := ih (s := t)
      (htlen ▸ Nat.lt_of_succ_lt hlen) (calm.after after) (htlen ▸ htcap ▸ room)
      (after.e ▸ clear) (fun j => htfds ▸ fds j) (fun j hpos hj => by
        obtain ⟨d, hd, hsound⟩ := conns j hpos (by omega)
        exact ⟨d, (htother j (by omega)).trans hd, htfds ▸ hsound⟩)
    have hkept : s'.ps.conns (n + 1) = some c' :=
      (habove _ (Nat.lt_succ_self n) (htlen ▸ hlen)).trans htself
    refine ⟨code, s', ?_, ?_, hroom, fun j d hpos hj hd => ?_, fun j hj hjlen => ?_⟩
    · simp only [pollLoop, hone, ok_bind] at hrest ⊢
      exact hrest
    · rw [Grown, htlen] at hgrown
      exact hgrown
    · rcases Nat.lt_or_eq_of_le hj with hlt | rfl
      · rw [← after.e]
        exact hturns j d hpos (by omega) ((htother j (by omega)).trans hd)
      · obtain rfl := Option.some.inj (hat.symm.trans hd)
        exact ⟨c', hkept, turn⟩
    · rw [habove j (by omega) (htlen ▸ hjlen), htother j (by omega)]

/-- The answers to `poll` give each connection a turn, and perhaps add one. -/
theorem pollAndHandle_round (ctx : EchoContext) (ready : Ready s) (calm : Calm a s)
    (clear : s.e.causeCode = success)
    (served : ∀ i c, Serves s i c → Sound c ∧ (s.ps.fds i).events = wanted c) :
    ∃ code s', pollAndHandle (echoActions ctx) a s = .ok (code, s') ∧ Ready s' ∧ Grown s s' ∧
      ∀ i c, Serves s i c → ∃ c', s'.ps.conns i = some c' ∧ Turn (slot a i) s.e c c' := by
  cases hpoll : a.poll with
  | failed => exact absurd hpoll calm.alive
  | idle =>
    refine ⟨s.ps.running, s, by simp only [pollAndHandle, hpoll], ready, .inl rfl, fun i c hc =>
      ⟨c, hc.2.2, .inl ⟨by simp only [slot, hpoll], rfl⟩⟩⟩
  | ready revents =>
    obtain ⟨n, hn⟩ : ∃ n, s.ps.len = n + 1 := Nat.exists_eq_succ_of_ne_zero ready.some.ne'
    have hlt : n < (storeRevents revents s).ps.len := by
      show n < s.ps.len
      omega
    have hcalm : Calm a (storeRevents revents s) :=
      ⟨calm.alive, fun r hr hev => ⟨(calm.listens r hr hev).1, (calm.listens r hr hev).2.sock,
        (calm.listens r hr hev).2.granted, (calm.listens r hr hev).2.small⟩,
        calm.quiet, calm.honest, calm.recv, calm.send⟩
    obtain ⟨code, s', hloop, hgrown, hroom, hturns, -⟩ :=
      pollLoop_round ctx hlt hpoll hcalm ready.room clear (fun _ => rfl) fun j hpos hj => by
        obtain ⟨c, hc⟩ := ready.owned.conn j hpos (by omega)
        exact ⟨c, hc, served j c ⟨hpos, by omega, hc⟩⟩
    have hrun : pollAndHandle (echoActions ctx) a s = .ok (code, s') := by
      simp only [pollAndHandle, hpoll, hn]
      exact hloop
    have hsteps : Steps (echoActions ctx) (fun _ _ => True) False s s' :=
      (pollAndHandle_moves (echo_lawful ctx) False.elim hrun).steps
    have hsome : 0 < s'.ps.len := by
      have hpos : 0 < (storeRevents revents s).ps.len := ready.some
      rcases hgrown with hlen | ⟨hlen, -⟩ <;> omega
    have howned : Owned s' := ready.owned.steps (echo_lawful ctx) (echo_framed ctx) hsteps
    refine ⟨code, s', hrun, ⟨howned, hsome, hroom⟩, hgrown, fun i c hc => ?_⟩
    have hlast := hc.2.1
    exact hturns i c hc.1 (by omega) hc.2.2

/-- A call that meets no error serves every connection once and gives each of them its turn. -/
theorem pservExecute_round {st : State} (ready : Ready st) (clear : e.causeCode = success)
    (all : ∀ i c, Serves st i c → Sound c ∧ InRange ctx c)
    (granted : ∀ i k, (a.grants i k).granted = true)
    (calm : ∀ served, pservExecuteConns (echoActions ctx) a.grants (st.setError e) =
      .ok (success, served) → Calm a served) :
    ∃ code st', pservExecute (echoActions ctx) a (st.setError e) = .ok (code, st') ∧ Ready st' ∧
      Grown st st' ∧ ∀ i c, Serves st i c → ∃ h h' c' c'', st'.ps.conns i = some c'' ∧
        echoConnFunc ctx (a.grants i) h c e = .ok (success, h', c', e) ∧
        Turn (slot a i) e c' c'' := by
  obtain ⟨s, hserve, ready', he, hlen, hserved, hsound⟩ :=
    pservExecuteConns_round (e := e) ready all granted
  obtain ⟨code, st', hpoll, ready'', hgrown, hturns⟩ :=
    pollAndHandle_round ctx ready' (calm s hserve) (he ▸ clear) hsound
  have hsuccess : ¬ success ≠ 0 := fun h => h rfl
  refine ⟨code, st', ?_, ready'', ?_, fun i c hc => ?_⟩
  · simp only [pservExecute, hserve, ok_bind, if_neg hsuccess]
    exact hpoll
  · rw [Grown, hlen] at hgrown
    exact hgrown
  · obtain ⟨c', hserved'⟩ := hserved i c hc
    obtain ⟨h, h', hfunc⟩ := hserved'.func
    obtain ⟨c'', hconn, hturn⟩ := hturns i c' ⟨hc.1, hlen ▸ hc.2.1, hserved'.conn⟩
    exact ⟨h, h', c', c'', hconn, hfunc, he ▸ hturn⟩

end Handling

end EchoServer
