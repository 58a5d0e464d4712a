import CSpecx.EchoClient
import CSpecx.EchoReplies

/-!
# One call on one connection

A call of `pserv_execute` on a server with a single connection calls
`echo_conn_func` once and then reads, writes or does neither, as `poll` says.
-/

namespace EchoServer

open CExec Component Errors HeapBuffers Polling

/-- The only connection of the server. -/
structure Solo (st : State) (c : Connection) : Prop where
  len : st.ps.len = 2
  conn : st.ps.conns 1 = some c
  owned : Owned st

theorem Solo.serves {st : State} {c : Connection} (solo : Solo st c) : Serves st 1 c :=
  ⟨Nat.one_pos, by rw [solo.len]; decide, solo.conn⟩

/-- What the loop does to the connection behind `echo_conn_func`. -/
def Turn (a : Answers) (e : ErrorObject) (c c' : Connection) : Prop :=
  (a.poll = .idle ∧ c' = c) ∨ ∃ revents, a.poll = .ready revents ∧
    (((revents 1).pollin = true ∧ handleRead (a.recv 1) c e = .ok (success, c', e)) ∨
      ((revents 1).pollin = false ∧ (revents 1).pollout = true ∧
        handleWrite (a.send 1) c e = .ok (c', e)) ∨
      ((revents 1).pollin = false ∧ (revents 1).pollout = false ∧ c' = c))

/-- `poll` does not fail and reports no error, nothing on the listening socket
and only what `events` asks for; what the sockets return is not an end or a failure. -/
structure Smooth (a : Answers) (served : State) : Prop where
  alive : a.poll ≠ .failed
  quiet : ∀ revents, a.poll = .ready revents → revents 0 = Events.none ∧ ¬ (revents 1).broken
  honest : ∀ revents, a.poll = .ready revents → Honest served revents
  recv : ∀ revents, a.poll = .ready revents → (revents 1).pollin = true → ¬ Ends (a.recv 1)
  send : ∀ revents, a.poll = .ready revents → (revents 1).pollout = true → a.send 1 ≠ .failed

section Calls

variable {ctx : EchoContext} {a : Answers} {st s : State} {c c' : Connection} {e : ErrorObject}
  {revents : Nat → Events}

/-- The iteration for the connection. -/
theorem handleEvent_turn (ctx : EchoContext) (hat : s.ps.conns 1 = some c)
    (hev : (s.ps.fds 1).revents = revents 1)
    (hpoll : a.poll = .ready revents) (clear : s.e.causeCode = success) (sound : Sound c)
    (hwanted : (s.ps.fds 1).events = wanted c) (honest : Honest s revents)
    (hbroken : ¬ (revents 1).broken)
    (hrecv : (revents 1).pollin = true → ¬ Ends (a.recv 1))
    (hsend : (revents 1).pollout = true → a.send 1 ≠ .failed) :
    ∃ s' c', handleEvent (echoActions ctx) a 1 s = .ok (none, s') ∧ Turn a s.e c c' ∧
      s'.ps.conns 1 = some c' ∧ s'.ps.len = s.ps.len ∧ s'.ps.fds = s.ps.fds ∧
      s'.ps.running = s.ps.running := by
  have hconn : nonNull (s.ps.conns 1) = .ok c := nonNull_eq_ok.mpr hat
  by_cases hnone : revents 1 = Events.none
  · refine ⟨s, c, ?_, .inr ⟨revents, hpoll, .inr (.inr ?_)⟩, hat, rfl, rfl, rfl⟩
    · simp only [handleEvent, hev, if_pos hnone]
    · rw [hnone]
      exact ⟨rfl, rfl, rfl⟩
  · have hserve : handleEvent (echoActions ctx) a 1 s =
        serveConn (echoActions ctx) a 1 (revents 1) s := by
      simp only [handleEvent, hev, if_neg hnone, if_neg Nat.one_ne_zero,
        if_neg (mt broken_iff.mp hbroken)]
    rw [hserve]
    by_cases hin : (revents 1).pollin = true
    · have hwants : (wanted c).pollin = true := hwanted ▸ (honest 1).1 hin
      obtain ⟨⟨code, c', e'⟩, hread⟩ :=
        (handleRead_returns (e := s.e)).mpr (readFits_wanted sound hwants (a.recv 1))
      obtain ⟨hcode, herror, -⟩ := handleRead_code hread
      have hsuccess : e'.causeCode = success := by
        by_contra hfail
        rcases herror.mp hfail with htaint | hends
        · exact htaint clear
        · exact hrecv hin hends
      have hzero : code = success := hcode.trans hsuccess
      have he : e' = s.e := by
        obtain ⟨-, ⟨-, -, -, msg, he⟩ | ⟨got, p, -, -, -, -, -, he, -⟩⟩ := handleRead_cases hread
        · rw [he] at hsuccess
          exact absurd hsuccess errorCausef_io
        · exact he
      subst hzero he
      refine ⟨(s.setError s.e).setConn 1 c', c', ?_, .inr ⟨revents, hpoll, .inl ⟨hin, hread⟩⟩,
        State.setConn_self _ _ _, rfl, rfl, rfl⟩
      simp only [serveConn, hconn, ok_bind, if_pos hin, hread]
      rfl
    · have hin' : (revents 1).pollin = false := Bool.eq_false_iff.mpr hin
      by_cases hout : (revents 1).pollout = true
      · have hwants : (wanted c).pollout = true := hwanted ▸ (honest 1).2 hout
        obtain ⟨⟨c', e'⟩, hwrite⟩ :=
          (handleWrite_returns (e := s.e)).mpr (writeFits_wanted sound hwants (a.send 1))
        have he : e' = s.e := by
          obtain ⟨-, ⟨-, hfailed, -⟩ | ⟨n, bytes, -, -, -, he, -⟩⟩ := handleWrite_cases hwrite
          · exact absurd hfailed (hsend hout)
          · exact he
        subst he
        refine ⟨(s.setError s.e).setConn 1 c', c', ?_,
          .inr ⟨revents, hpoll, .inr (.inl ⟨hin', hout, hwrite⟩)⟩, State.setConn_self _ _ _, rfl,
          rfl, rfl⟩
        simp only [serveConn, hconn, ok_bind, if_neg hin, if_pos hout, hwrite]
      · have hout' : (revents 1).pollout = false := Bool.eq_false_iff.mpr hout
        refine ⟨s, c, ?_, .inr ⟨revents, hpoll, .inr (.inr ⟨hin', hout', rfl⟩)⟩, hat, rfl, rfl, rfl⟩
        simp only [serveConn, hconn, ok_bind, if_neg hin, if_neg hout]

/-- The pass over the connections serves the connection and registers its events. -/
theorem pservExecuteConns_solo (solo : Solo st c) (sound : Sound c) (inRange : InRange ctx c)
    (granted : ∀ k, (a.grants 1 k).granted = true) :
    ∃ h' c' s, echoConnFunc ctx (a.grants 1) st.heap c e = .ok (success, h', c', e) ∧
      pservExecuteConns (echoActions ctx) a.grants (st.setError e) = .ok (success, s) ∧
      Sound c' ∧ s.ps.conns 1 = some c' ∧ (s.ps.fds 1).events = wanted c' ∧ s.ps.len = 2 ∧
      s.e = e := by
  have fitting : Fitting ctx (a.grants 1) c := ⟨granted, inRange⟩
  obtain ⟨h', c', e', hfunc⟩ :=
    echoConnFunc_returns (h := st.heap) (e := e) sound fitting (solo.owned.live 1 c solo.serves)
  have serving := echoConnFunc_serving hfunc
  obtain rfl := serving.quiet
  obtain ⟨f, hf⟩ : ∃ f : PollFd, f = { st.ps.fds 1 with events := wanted c' } := ⟨_, rfl⟩
  obtain ⟨s, hs⟩ : ∃ s, s = ((((st.setError e').setHeap h').setError e').setConn 1 c').setFd 1 f :=
    ⟨_, rfl⟩
  have hat : nonNull ((st.setError e').ps.conns 1) = .ok c := nonNull_eq_ok.mpr solo.conn
  have hlen : (st.setError e').ps.len - 1 = 1 := by
    rw [show (st.setError e').ps.len = 2 from solo.len]
  have hfunc' : (echoActions ctx).connFunc (a.grants 1) (st.setError e').heap c
      (st.setError e').e = .ok (success, h', c', e') := hfunc
  have hserved : pservExecuteConns (echoActions ctx) a.grants (st.setError e') =
      .ok (success, s) := by
    rw [pservExecuteConns, hlen]
    simp only [executeConns, executeConn, hat, ok_bind, hfunc', hs, hf]
    rfl
  refine ⟨h', c', s, hfunc, hserved, serving.sound sound fitting, ?_, ?_, ?_, ?_⟩
  · rw [hs]
    exact State.setConn_self (((st.setError e').setHeap h').setError e') 1 c'
  · have hfd : s.ps.fds 1 = f := by
      rw [hs]
      exact State.setFd_self _ _ _
    rw [hfd, hf]
  · rw [hs]
    exact solo.len
  · rw [hs]
    rfl

/-- A call that meets no error serves the connection once and gives it one turn. -/
theorem pservExecute_turn (solo : Solo st c) (sound : Sound c) (inRange : InRange ctx c)
    (clear : e.causeCode = success)
    (smooth : ∀ served, pservExecuteConns (echoActions ctx) a.grants (st.setError e) =
      .ok (success, served) → Smooth a served) (granted : ∀ i k, (a.grants i k).granted = true) :
    ∃ code h' c' c'' st', pservExecute (echoActions ctx) a (st.setError e) = .ok (code, st') ∧
      echoConnFunc ctx (a.grants 1) st.heap c e = .ok (success, h', c', e) ∧
      Turn a e c' c'' ∧ Solo st' c'' := by
  obtain ⟨h', c', s, hfunc, hserved, sound', hsconn, hsevents, hslen, hse⟩ :=
    pservExecuteConns_solo (e := e) solo sound inRange (granted 1)
  have hsmooth := smooth s hserved
  have hsuccess : ¬ success ≠ 0 := fun h => h rfl
  -- the call keeps the ownership whatever it does
  have hsolo : ∀ code st' c'', pservExecute (echoActions ctx) a (st.setError e) = .ok (code, st') →
      st'.ps.len = 2 → st'.ps.conns 1 = some c'' → Solo st' c'' := by
    intro code st' c'' hrun hlen' hconn'
    have hsteps : Steps (echoActions ctx) (fun _ _ => True) False (st.setError e) st' :=
      (pservExecute_moves (echo_lawful ctx) False.elim (fun _ _ _ => trivial) hrun).steps
    have howned : Owned (st.setError e) := solo.owned.idle rfl rfl rfl
    exact ⟨hlen', hconn', howned.steps (echo_lawful ctx) (echo_framed ctx) hsteps⟩
  have hexecute : pservExecute (echoActions ctx) a (st.setError e) =
      pollAndHandle (echoActions ctx) a s := by
    simp only [pservExecute, hserved, ok_bind, if_neg hsuccess]
  cases hpoll : a.poll with
  | failed => exact absurd hpoll hsmooth.alive
  | idle =>
    have hrun : pservExecute (echoActions ctx) a (st.setError e) = .ok (s.ps.running, s) := by
      rw [hexecute]
      simp only [pollAndHandle, hpoll]
    exact ⟨_, h', c', c', s, hrun, hfunc, .inl ⟨hpoll, rfl⟩, hsolo _ _ _ hrun hslen hsconn⟩
  | ready revents =>
    obtain ⟨hzero, hbroken⟩ := hsmooth.quiet revents hpoll
    obtain ⟨s', c'', hone, hturn, hconn', hlen', hfds', -⟩ := handleEvent_turn ctx
      (s := storeRevents revents s) hsconn rfl hpoll (hse ▸ clear) sound' hsevents
      (hsmooth.honest revents hpoll) hbroken (hsmooth.recv revents hpoll)
        (hsmooth.send revents hpoll)
    have hlisten : handleEvent (echoActions ctx) a 0 s' = .ok (none, s') := by
      have hev : (s'.ps.fds 0).revents = Events.none := by
        rw [hfds']
        exact hzero
      simp only [handleEvent, hev, if_true]
    have hrun : pservExecute (echoActions ctx) a (st.setError e) = .ok (s'.ps.running, s') := by
      have htwo : (storeRevents revents s).ps.len = 2 := hslen
      rw [hexecute]
      simp only [pollAndHandle, hpoll]
      rw [hslen]
      simp only [pollLoop, hone, ok_bind, hlisten]
    have he : (storeRevents revents s).e = e := hse
    rw [he] at hturn
    exact ⟨_, h', c', c'', s', hrun, hfunc, hturn, hsolo _ _ _ hrun (hlen'.trans hslen) hconn'⟩

end Calls

end EchoServer
