import CSpecx.EchoExchange

/-!
# The calls of a client

A client and a server whose only connection is the client's, in any order of
steps. The calls that have returned got their replies, the work is bounded, and
while a call has not returned some step makes progress.
-/

namespace EchoServer

open CExec Component Errors HeapBuffers Polling

structure Net where
  client : Client
  st : State

/-- A call of `pserv_execute` without errors: `recv` delivers bytes that the
client has written, and `send` takes at least one byte. -/
structure Passes (ctx : EchoContext) (x : Net) (e : ErrorObject) (a : Answers) : Prop where
  clear : e.causeCode = success
  granted : ∀ i k, (a.grants i k).granted = true
  smooth : ∀ served, pservExecuteConns (echoActions ctx) a.grants (x.st.setError e) =
    .ok (success, served) → Smooth a served
  arrives : ∀ c revents bytes, x.st.ps.conns 1 = some c → a.poll = .ready revents →
    (revents 1).pollin = true → a.recv 1 = .data bytes →
    c.sock.received ++ bytes <+: x.client.sock.written
  takes : ∀ revents n, a.poll = .ready revents → (revents 1).pollout = true →
    a.send 1 = .sent n → 0 < n

inductive Net.Step (ctx : EchoContext) (x : Net) : Net → Prop where
  | send (n : Nat) (hpos : 0 < n) (hoffers : x.client.offers ≠ []) :
      Net.Step ctx x { x with client := x.client.send n }
  | recv (c : Connection) (bytes : List UInt8) (hconn : x.st.ps.conns 1 = some c)
      (hwants : 0 < x.client.wants) (hne : bytes ≠ [])
      (harrives : x.client.sock.received ++ bytes <+: c.sock.written) :
      Net.Step ctx x { x with client := x.client.recv bytes }
  | pass (e : ErrorObject) (a : Answers) (code : Int) (st' : State) (passes : Passes ctx x e a)
      (hrun : pservExecute (echoActions ctx) a (x.st.setError e) = .ok (code, st')) :
      Net.Step ctx x { x with st := st' }

/-- Neither the client nor the connection has changed. -/
def Same (x y : Net) : Prop := y.client = x.client ∧ y.st.ps.conns 1 = x.st.ps.conns 1

/-- A run, with the number of its steps that change something. -/
inductive Net.Run (ctx : EchoContext) (x : Net) : Nat → Net → Prop where
  | start : Net.Run ctx x 0 x
  | rest {n : Nat} {y z : Net} : Net.Run ctx x n y → Net.Step ctx y z → Same y z →
      Net.Run ctx x n z
  | work {n : Nat} {y z : Net} : Net.Run ctx x n y → Net.Step ctx y z → ¬ Same y z →
      Net.Run ctx x (n + 1) z

/-- The client before its first call. -/
def Client.connected (msgs : List (List UInt8)) (len : Nat) (fd : Int) : Client :=
  ⟨msgs, .writeSize 0, [], len, ⟨fd, [], []⟩⟩

/-- The client and the connection are in an exchange that has come to `n` at least. -/
def Talking (ctx : EchoContext) (msgs : List (List UInt8)) (len n : Nat) (x : Net) : Prop :=
  ∃ c past extra sent got rest unsent, Solo x.st c ∧
    Exchange ctx msgs x.client c past extra sent got rest unsent ∧ x.client.len = len ∧
    n ≤ workDone x.client c (past ++ extra).length

section Runs

variable {ctx : EchoContext} {msgs : List (List UInt8)} {len n : Nat} {x y : Net} {e : ErrorObject}
  {a : Answers} {c : Connection} {past extra : List (List UInt8)}
  {sent got rest unsent : List UInt8}

/-- A permitted call of `pserv_execute` returns and takes its turn in the exchange. -/
theorem Exchange.pass (ex : Exchange ctx msgs x.client c past extra sent got rest unsent)
    (solo : Solo x.st c) (fits : Fits ctx len msgs) (passes : Passes ctx x e a) :
    ∃ code st' h' c' c'' extra' rest' unsent',
      pservExecute (echoActions ctx) a (x.st.setError e) = .ok (code, st') ∧ Solo st' c'' ∧
      echoConnFunc ctx (a.grants 1) x.st.heap c e = .ok (success, h', c', e) ∧
      Exchange ctx msgs x.client c'' past extra' sent got rest' unsent' ∧
      ((c' = c ∧ extra' = extra) ∨ workDone x.client c (past ++ extra).length <
        workDone x.client c' (past ++ extra').length) ∧
      Turn a e c' c'' ∧ (c'' = c' ∨ ∀ k, workDone x.client c' k < workDone x.client c'' k) := by
  obtain ⟨code, h', c', c'', st', hrun, hfunc, turn, solo'⟩ :=
    pservExecute_turn solo ex.holds.sound (ex.fitting fits (passes.granted 1)).2 passes.clear
      passes.smooth passes.granted
  obtain ⟨extra', rest', unsent', ex', hsock, hserve⟩ :=
    ex.serve fits (passes.granted 1) (echoConnFunc_serving hfunc)
  obtain ⟨rest'', unsent'', ex'', hturn⟩ := ex'.turn passes.clear turn
    (fun revents bytes hpoll hin hr => by
      rw [hsock]
      exact passes.arrives c revents bytes solo.conn hpoll hin hr)
    passes.takes
  refine ⟨code, st', h', c', c'', extra', rest'', unsent'', hrun, solo', hfunc, ex'',
    ?_, turn, hturn⟩
  rcases hserve with ⟨hsame, -, hextra⟩ | ⟨-, hwork⟩
  · exact .inl ⟨hsame, hextra⟩
  · exact .inr (by omega)

/-- A step keeps the exchange, and one that changes something does some work. -/
theorem Talking.step (talking : Talking ctx msgs len n x) (fits : Fits ctx len msgs)
    (step : Net.Step ctx x y) :
    Talking ctx msgs len n y ∧ (¬ Same x y → Talking ctx msgs len (n + 1) y) := by
  obtain ⟨c, past, extra, sent, got, rest, unsent, solo, ex, hlen, hwork⟩ := talking
  cases step with
  | send k hpos hoffers =>
    obtain ⟨sent', ex', hmore⟩ := ex.send hpos hoffers
    have hlt : n < workDone (x.client.send k) c (past ++ extra).length := hwork.trans_lt (hmore _)
    exact ⟨⟨c, past, extra, sent', got, rest, unsent, solo, ex', hlen, hlt.le⟩,
      fun _ => ⟨c, past, extra, sent', got, rest, unsent, solo, ex', hlen, hlt⟩⟩
  | recv d bytes hconn hwants hne harrives =>
    obtain rfl : d = c := Option.some.inj (hconn.symm.trans solo.conn)
    obtain ⟨past', extra', sent', got', ex', hlen', hsame, hmore⟩ :=
      ex.recv (hlen ▸ fits) hwants hne harrives
    have hlt : n < workDone (x.client.recv bytes) d (past' ++ extra').length := by
      rw [hsame]
      exact hwork.trans_lt (hmore _)
    have hlen'' : (x.client.recv bytes).len = len := hlen'.trans hlen
    exact ⟨⟨d, past', extra', sent', got', rest, unsent, solo, ex', hlen'', hlt.le⟩,
      fun _ => ⟨d, past', extra', sent', got', rest, unsent, solo, ex', hlen'', hlt⟩⟩
  | pass e a code st' passes hrun =>
    obtain ⟨code', st'', -, c', c'', extra', rest', unsent', hrun', solo', -, ex',
        hserve, -, hturn⟩ :=
      ex.pass solo fits passes
    obtain ⟨-, rfl⟩ := ok_pair_inj (hrun.symm.trans hrun')
    have hless : c'' = c' ∨ workDone x.client c' (past ++ extra').length <
        workDone x.client c'' (past ++ extra').length := hturn.imp_right fun h => h _
    have hkept : n ≤ workDone x.client c'' (past ++ extra').length := by
      rcases hserve with ⟨rfl, rfl⟩ | hserve
      · rcases hless with rfl | hless <;> omega
      · rcases hless with rfl | hless <;> omega
    refine ⟨⟨c'', past, extra', sent, got, rest', unsent', solo', ex', hlen, hkept⟩, fun hchange =>
      ⟨c'', past, extra', sent, got, rest', unsent', solo', ex', hlen, ?_⟩⟩
    rcases hserve with ⟨rfl, rfl⟩ | hserve
    · rcases hless with rfl | hless
      · exact absurd ⟨rfl, solo'.conn.trans solo.conn.symm⟩ hchange
      · show n + 1 ≤ workDone x.client c'' _
        omega
    · show n + 1 ≤ workDone x.client c'' _
      rcases hless with rfl | hless <;> omega

theorem Talking.run (talking : Talking ctx msgs len 0 x) (fits : Fits ctx len msgs)
    (run : Net.Run ctx x n y) : Talking ctx msgs len n y := by
  induction run with
  | start => exact talking
  | rest _ step _ ih => exact (ih.step fits step).1
  | work _ step hchange ih => exact (ih.step fits step).2 hchange

/-! ## Progress -/

/-- A call in which no event is pending. -/
def idles : Answers where
  grants _ _ := ⟨true, fun _ => 0⟩
  poll := .idle
  recv _ := .failed
  send _ := .failed
  closed _ := true
  accept := ⟨⟨true, fun _ => 0⟩, none, true, true, true⟩

theorem passes_idles : Passes ctx x errorCreate idles where
  clear := rfl
  granted _ _ := rfl
  smooth _ _ :=
    ⟨PollResult.noConfusion, fun _ => PollResult.noConfusion, fun _ => PollResult.noConfusion,
      fun _ => PollResult.noConfusion, fun _ => PollResult.noConfusion⟩
  arrives _ _ _ _ := PollResult.noConfusion
  takes _ _ := PollResult.noConfusion

theorem passes_sends {s : State} {bytes : List UInt8} (hconn : x.st.ps.conns 1 = some c)
    (hserved : pservExecuteConns (echoActions ctx) (sends bytes).grants
      (x.st.setError errorCreate) = .ok (success, s))
    (hwanted : (s.ps.fds 1).events.pollin = true) (hne : bytes ≠ [])
    (harrives : c.sock.received ++ bytes <+: x.client.sock.written) :
    Passes ctx x errorCreate (sends bytes) where
  clear := rfl
  granted _ _ := rfl
  smooth served hrun := by
    obtain ⟨-, rfl⟩ := ok_pair_inj (hserved.symm.trans hrun)
    refine ⟨PollResult.noConfusion, ?_, ?_, ?_, ?_⟩
    · rintro revents hpoll
      obtain rfl := PollResult.ready.inj hpoll
      exact ⟨rfl, fun hbroken => hbroken.elim Bool.noConfusion Bool.noConfusion⟩
    · rintro revents hpoll i
      obtain rfl := PollResult.ready.inj hpoll
      by_cases hi : i = 1
      · subst hi
        exact ⟨fun _ => hwanted, Bool.noConfusion⟩
      · simp only [if_neg hi]
        exact ⟨Bool.noConfusion, Bool.noConfusion⟩
    · rintro revents - - (hfailed | hdata)
      · cases hfailed
      · exact hne (RecvResult.data.inj hdata)
    · intro revents hpoll hout
      obtain rfl := PollResult.ready.inj hpoll
      cases hout
  arrives d revents bytes' hconn' _ _ hdata := by
    obtain rfl : d = c := Option.some.inj (hconn'.symm.trans hconn)
    obtain rfl := RecvResult.data.inj hdata
    exact harrives
  takes revents n hpoll hout := by
    obtain rfl := PollResult.ready.inj hpoll
    cases hout

theorem passes_takes {s : State} (hserved : pservExecuteConns (echoActions ctx) (takes 1).grants
      (x.st.setError errorCreate) = .ok (success, s))
    (hwanted : (s.ps.fds 1).events.pollout = true) : Passes ctx x errorCreate (takes 1) where
  clear := rfl
  granted _ _ := rfl
  smooth served hrun := by
    obtain ⟨-, rfl⟩ := ok_pair_inj (hserved.symm.trans hrun)
    refine ⟨PollResult.noConfusion, ?_, ?_, ?_, ?_⟩
    · rintro revents hpoll
      obtain rfl := PollResult.ready.inj hpoll
      exact ⟨rfl, fun hbroken => hbroken.elim Bool.noConfusion Bool.noConfusion⟩
    · rintro revents hpoll i
      obtain rfl := PollResult.ready.inj hpoll
      by_cases hi : i = 1
      · subst hi
        exact ⟨Bool.noConfusion, fun _ => hwanted⟩
      · simp only [if_neg hi]
        exact ⟨Bool.noConfusion, Bool.noConfusion⟩
    · intro revents hpoll hin
      obtain rfl := PollResult.ready.inj hpoll
      cases hin
    · exact fun _ _ _ => SendResult.noConfusion
  arrives _ revents _ _ hpoll hin := by
    obtain rfl := PollResult.ready.inj hpoll
    cases hin
  takes _ _ _ _ hsent := by
    obtain rfl := SendResult.sent.inj hsent
    exact Nat.one_pos

/-- A call whose turn changes the connection. -/
theorem Exchange.moves {h' : Heap} {c' : Connection}
    (ex : Exchange ctx msgs x.client c past extra sent got rest unsent) (solo : Solo x.st c)
    (fits : Fits ctx len msgs) (passes : Passes ctx x e a)
    (hfunc : echoConnFunc ctx (a.grants 1) x.st.heap c e = .ok (success, h', c', e))
    (hturn : ∀ c'', Turn a e c' c'' → c'' ≠ c) : ∃ y, Net.Step ctx x y ∧ ¬ Same x y := by
  obtain ⟨code, st', _, d, c'', _, _, _, hrun, solo', hfunc', -, -, turn, -⟩ :=
    ex.pass solo fits passes
  have hsame := Except.ok.inj (hfunc.symm.trans hfunc')
  simp only [Prod.mk.injEq, true_and, and_true] at hsame
  obtain ⟨-, rfl⟩ := hsame
  refine ⟨{ x with st := st' }, .pass e a code st' passes hrun, fun hsame => hturn c'' turn ?_⟩
  exact Option.some.inj (solo'.conn.symm.trans (hsame.2.trans solo.conn))

/-- While a call has not returned, the client or the server can make progress. -/
theorem Exchange.progress (ex : Exchange ctx msgs x.client c past extra sent got rest unsent)
    (solo : Solo x.st c) (fits : Fits ctx x.client.len msgs) (hcalls : x.client.calls ≠ []) :
    ∃ y, Net.Step ctx x y ∧ ¬ Same x y := by
  obtain ⟨m, more, hcalls⟩ := List.exists_cons_of_ne_nil hcalls
  rcases calling_writing ex.calling hcalls with ⟨hoffers, -⟩ | ⟨-, hwants, -⟩
  · obtain ⟨-, -, hmore⟩ := ex.send Nat.one_pos hoffers
    refine ⟨_, .send 1 Nat.one_pos hoffers, fun hsame => (hmore 0).ne ?_⟩
    exact congrArg (workDone · c 0) hsame.1.symm
  · by_cases hread : x.client.sock.received = c.sock.written
    · have hgranted : ∀ k, (idles.grants 1 k).granted = true := fun _ => rfl
      obtain ⟨h', c', s, hfunc, hserved, -, -, hevents, -, -⟩ :=
        pservExecuteConns_solo (a := idles) (e := errorCreate) solo ex.holds.sound
          (ex.fitting fits hgranted).2 hgranted
      obtain ⟨_, _, _, -, -, hserve⟩ := ex.serve fits hgranted (echoConnFunc_serving hfunc)
      rcases hserve with ⟨rfl, hwait, -⟩ | ⟨hstage, -⟩
      · -- nothing to do for the server but to read or to write
        by_cases hall : c'.sock.received = x.client.sock.written
        · have hout := ex.waiting fits hwait hwants hread hall
          have hpasses : Passes ctx x errorCreate (takes 1) := passes_takes hserved (hevents ▸ hout)
          refine ex.moves solo fits hpasses hfunc fun c'' turn heq => ?_
          rcases turn with ⟨hpoll, -⟩ | ⟨revents, hpoll, hread | ⟨-, hout, hwrite⟩ | ⟨-, hout, -⟩⟩
          · cases hpoll
          · obtain rfl := PollResult.ready.inj hpoll
            cases hread.1
          · obtain ⟨_, -, hmore⟩ := ex.write rfl hwrite fun n => hpasses.takes revents n hpoll hout
            exact (hmore 0).ne (heq ▸ rfl)
          · obtain rfl := PollResult.ready.inj hpoll
            cases hout
        · obtain ⟨bytes, hbytes⟩ := ex.up
          have hne : bytes ≠ [] := by
            rintro rfl
            exact hall (by rw [← hbytes, List.append_nil])
          have harrives : c'.sock.received ++ bytes <+: x.client.sock.written :=
            hbytes ▸ List.prefix_refl _
          have hin : (wanted c').pollin = true := by
            have hroom : 0 < c'.rxCap ∧ c'.rxLen ≠ c'.rxCap := by omega
            simpa [wanted] using hroom
          have hpasses : Passes ctx x errorCreate (sends bytes) :=
            passes_sends solo.conn hserved (hevents ▸ hin) hne harrives
          refine ex.moves solo fits hpasses hfunc fun c'' turn heq => ?_
          rcases turn with ⟨hpoll, -⟩ | ⟨revents, hpoll, ⟨hin, hread⟩ | ⟨hin, -⟩ | ⟨hin, -⟩⟩
          · cases hpoll
          · obtain ⟨_, -, hmore⟩ := ex.read hread fun bytes' =>
              hpasses.arrives _ revents bytes' solo.conn hpoll hin
            exact (hmore 0).ne (heq ▸ rfl)
          · obtain rfl := PollResult.ready.inj hpoll
            cases hin
          · obtain rfl := PollResult.ready.inj hpoll
            cases hin
      · refine ex.moves solo fits passes_idles hfunc fun c'' turn heq => ?_
        rcases turn with ⟨-, rfl⟩ | ⟨_, hpoll, -⟩
        · exact hstage (congrArg EchoServer.stage heq)
        · cases hpoll
    · obtain ⟨bytes, hbytes⟩ := ex.down
      have hne : bytes ≠ [] := by
        rintro rfl
        exact hread (by rw [← hbytes, List.append_nil])
      have harrives : x.client.sock.received ++ bytes <+: c.sock.written :=
        hbytes ▸ List.prefix_refl _
      obtain ⟨-, -, -, -, -, -, -, hmore⟩ := ex.recv fits hwants hne harrives
      refine ⟨_, .recv c bytes solo.conn hwants hne harrives, fun hsame => (hmore 0).ne ?_⟩
      exact congrArg (workDone · c 0) hsame.1.symm

theorem connected_talking {st : State} {id : Nat} {fd fd' : Int} (solo : Solo st (.fresh id fd)) :
    Talking ctx msgs len 0 ⟨.connected msgs len fd', st⟩ := by
  refine ⟨.fresh id fd, [], [], [], [], [], [], solo, ?_, rfl, Nat.zero_le _⟩
  constructor
  · rfl
  · rfl
  · exact calling_start rfl
  · exact .inl rfl
  · rfl
  · rfl
  · exact ⟨sound_fresh, rfl, rfl⟩
  · rfl
  · rfl
  · exact List.nil_prefix
  · exact List.nil_prefix

/-- From any state of a run the calls can go on until the last one has returned. -/
theorem Net.Run.finishes {st : State} {id : Nat} {fd fd' : Int} (fits : Fits ctx len msgs)
    (solo : Solo st (.fresh id fd)) (run : Net.Run ctx ⟨.connected msgs len fd', st⟩ n x) :
    ∃ k y, Net.Run ctx ⟨.connected msgs len fd', st⟩ k y ∧ y.client.calls = [] := by
  obtain ⟨most, hmost⟩ : ∃ most, ∀ k y, Net.Run ctx ⟨.connected msgs len fd', st⟩ k y →
      k ≤ most := by
    refine ⟨2 * (frames msgs).length + 2 * (answers ctx msgs).length + 3 * msgs.length + 3,
      fun k y run => ?_⟩
    obtain ⟨c, past, extra, sent, got, rest, unsent, -, ex, -, hwork⟩ :=
      (connected_talking solo).run fits run
    exact hwork.trans ex.bound
  induction hleft : most - n using Nat.strong_induction_on generalizing n x with
  | _ left ih =>
    by_cases hcalls : x.client.calls = []
    · exact ⟨n, x, run, hcalls⟩
    · obtain ⟨c, past, extra, sent, got, rest, unsent, solo', ex, hlen, -⟩ :=
        (connected_talking solo).run fits run
      obtain ⟨y, step, hchange⟩ := ex.progress solo' (hlen ▸ fits) hcalls
      have hle := hmost _ _ (run.work step hchange)
      exact ih (most - (n + 1)) (by omega) (run.work step hchange) rfl

/-- In every run the calls that have returned got their replies in order, the number of
steps that change something is bounded, every call of `pserv_execute` returns, and some step
makes progress until the last call has returned. -/
theorem calls_echoed {st : State} {id : Nat} {fd fd' : Int} (fits : Fits ctx len msgs)
    (solo : Solo st (.fresh id fd)) (run : Net.Run ctx ⟨.connected msgs len fd', st⟩ n x) :
    (∃ done, msgs = done ++ x.client.calls ∧ x.client.results = done.map (result ctx)) ∧
      n ≤ 2 * (frames msgs).length + 2 * (answers ctx msgs).length + 3 * msgs.length + 3 ∧
      (∀ e a, Passes ctx x e a →
        ∃ code st', pservExecute (echoActions ctx) a (x.st.setError e) = .ok (code, st')) ∧
      (x.client.calls ≠ [] → ∃ y, Net.Step ctx x y ∧ ¬ Same x y) := by
  obtain ⟨c, past, extra, sent, got, rest, unsent, solo', ex, hlen, hwork⟩ :=
    (connected_talking solo).run fits run
  refine ⟨⟨past, ex.split, ex.results⟩, hwork.trans ex.bound, fun e a passes => ?_,
    fun hcalls => ?_⟩
  · obtain ⟨code, st', -, -, -, -, -, -, hrun, -⟩ := ex.pass solo' fits passes
    exact ⟨code, st', hrun⟩
  · exact ex.progress solo' (hlen ▸ fits) hcalls

end Runs

/-- A client connects, and its call returns with the reply. -/
theorem calls_echoed_returned :
    ∃ st n x, Net.Run ⟨[91], [93]⟩ ⟨.connected [[97]] 3 5, st⟩ n x ∧ x.client.calls = [] ∧
      x.client.results = [result ⟨[91], [93]⟩ [97]] ∧ n ≤ 30 := by
  obtain ⟨st, hrun, hlen, hconn⟩ : ∃ st, pservExecute (echoActions ⟨[91], [93]⟩) connects
      (started.setError errorCreate) = .ok (1, st) ∧ st.ps.len = 2 ∧
      st.ps.conns 1 = some (.fresh 0 4) := ⟨_, rfl, rfl, rfl⟩
  have hsteps : Steps (echoActions ⟨[91], [93]⟩) (fun _ _ => True) False
      (started.setError errorCreate) st :=
    (pservExecute_moves (echo_lawful _) False.elim (fun _ _ _ => trivial) hrun).steps
  have solo : Solo st (.fresh 0 4) :=
    ⟨hlen, hconn, opened_owned.steps (echo_lawful _) (echo_framed _) hsteps⟩
  have fits : Fits ⟨[91], [93]⟩ 3 [[97]] := by
    refine ⟨by decide, fun m hm => ?_⟩
    rw [List.mem_singleton.mp hm]
    exact ⟨by decide, by decide, by decide⟩
  have fresh : Net.Run ⟨[91], [93]⟩ ⟨.connected [[97]] 3 5, st⟩ 0 ⟨.connected [[97]] 3 5, st⟩ :=
    .start
  obtain ⟨n, x, run, hcalls⟩ := fresh.finishes fits solo
  obtain ⟨⟨done, hdone, hresults⟩, hle, -⟩ := calls_echoed fits solo run
  rw [hcalls, List.append_nil] at hdone
  subst hdone
  exact ⟨st, n, x, run, hcalls, hresults, hle⟩

end EchoServer
