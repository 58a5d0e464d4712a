import CSpecx.EchoCalls
import CSpecx.EchoRounds

/-!
# Many clients

Any number of clients and the server that accepts them, in any order of steps.
The calls of each client that have returned got the replies to its own
messages, and no client can keep an accepted one from making progress.
-/

namespace EchoServer

open CExec Component Errors HeapBuffers Polling

/-- Client `i` gets connection `i`; the indices are counted from 1. -/
structure Crowd where
  clients : Nat → Client
  st : State

namespace Crowd

def conn (x : Crowd) (i : Nat) : Option Connection :=
  if i < x.st.ps.len then x.st.ps.conns i else none

/-- The server's end of client `i`. Nothing has passed it before it is accepted. -/
def server (x : Crowd) (i : Nat) : Connection := (x.conn i).getD (.fresh 0 0)

def accepted (x : Crowd) (i : Nat) : Nat := if i < x.st.ps.len then 1 else 0

/-- A call of `pserv_execute` without errors: `recv` delivers bytes that the
client has written, and `send` takes at least one byte. -/
structure Passes (ctx : EchoContext) (x : Crowd) (e : ErrorObject) (a : Answers) : Prop where
  clear : e.causeCode = success
  granted : ∀ i k, (a.grants i k).granted = true
  calm : ∀ served, pservExecuteConns (echoActions ctx) a.grants (x.st.setError e) =
    .ok (success, served) → Calm a served
  arrives : ∀ i revents bytes, 0 < i → i < x.st.ps.len → a.poll = .ready revents →
    (revents i).pollin = true → a.recv i = .data bytes →
    (x.server i).sock.received ++ bytes <+: (x.clients i).sock.written
  takes : ∀ i revents n, a.poll = .ready revents → (revents i).pollout = true →
    a.send i = .sent n → 0 < n

inductive Step (ctx : EchoContext) (x : Crowd) : Crowd → Prop where
  | send (i n : Nat) (hpos : 0 < n) (hoffers : (x.clients i).offers ≠ []) :
      Step ctx x { x with clients := Function.update x.clients i ((x.clients i).send n) }
  | recv (i : Nat) (bytes : List UInt8) (hwants : 0 < (x.clients i).wants) (hne : bytes ≠ [])
      (harrives : (x.clients i).sock.received ++ bytes <+: (x.server i).sock.written) :
      Step ctx x { x with clients := Function.update x.clients i ((x.clients i).recv bytes) }
  | pass (e : ErrorObject) (a : Answers) (code : Int) (st' : State) (passes : Passes ctx x e a)
      (hrun : pservExecute (echoActions ctx) a (x.st.setError e) = .ok (code, st')) :
      Step ctx x { x with st := st' }

/-- Neither client `i` nor its connection has changed. -/
def SameAt (i : Nat) (x y : Crowd) : Prop := y.clients i = x.clients i ∧ y.conn i = x.conn i

/-- A run, with the number of its steps that change something for client `i`. -/
inductive Run (ctx : EchoContext) (i : Nat) (x : Crowd) : Nat → Crowd → Prop where
  | start : Run ctx i x 0 x
  | rest {n : Nat} {y z : Crowd} : Run ctx i x n y → Step ctx y z → SameAt i y z → Run ctx i x n z
  | work {n : Nat} {y z : Crowd} : Run ctx i x n y → Step ctx y z → ¬ SameAt i y z →
      Run ctx i x (n + 1) z

end Crowd

/-- Client `i` and its connection are in an exchange that has come to `n` at least. -/
def Linked (ctx : EchoContext) (msgs : List (List UInt8)) (len i n : Nat) (x : Crowd) : Prop :=
  ∃ past extra sent got rest unsent,
    Exchange ctx msgs (x.clients i) (x.server i) past extra sent got rest unsent ∧
    (x.clients i).len = len ∧
    n ≤ workDone (x.clients i) (x.server i) (past ++ extra).length + x.accepted i

section Exchanges

variable {ctx : EchoContext} {msgs : List (List UInt8)} {client : Client} {c c' c'' : Connection}
  {past extra : List (List UInt8)} {sent got rest unsent : List UInt8} {len i : Nat}
  {grants : Nat → Grant} {h h' : Heap} {e : ErrorObject} {a : Answers}

/-- A connection that is accepted takes the place of none. -/
theorem Exchange.accepted {id id' : Nat} {fd fd' : Int}
    (ex : Exchange ctx msgs client (.fresh id fd) past extra sent got rest unsent) :
    Exchange ctx msgs client (.fresh id' fd') past extra sent got rest unsent :=
  ⟨ex.split, ex.results, ex.calling, ex.current, ex.written, ex.received,
    ⟨sound_fresh, ex.holds.rest_eq, ex.holds.unsent_eq⟩, ex.consumed, ex.answered, ex.up, ex.down⟩

/-- What a call does for one connection of many. -/
theorem Exchange.round (ex : Exchange ctx msgs client c past extra sent got rest unsent)
    (fits : Fits ctx len msgs) (granted : ∀ k, (grants k).granted = true)
    (clear : e.causeCode = success)
    (hfunc : echoConnFunc ctx grants h c e = .ok (success, h', c', e))
    (turn : Turn (slot a i) e c' c'')
    (harrives : ∀ revents bytes, a.poll = .ready revents → (revents i).pollin = true →
      a.recv i = .data bytes → c.sock.received ++ bytes <+: client.sock.written)
    (htakes : ∀ revents n, a.poll = .ready revents → (revents i).pollout = true →
      a.send i = .sent n → 0 < n) :
    ∃ extra' rest' unsent', Exchange ctx msgs client c'' past extra' sent got rest' unsent' ∧
      ((c'' = c ∧ extra' = extra) ∨ workDone client c (past ++ extra).length <
        workDone client c'' (past ++ extra').length) := by
  obtain ⟨extra', rest', unsent', ex', hsock, hserve⟩ :=
    ex.serve fits granted (echoConnFunc_serving hfunc)
  have hready : ∀ revents, (slot a i).poll = .ready revents →
      ∃ revents', a.poll = .ready revents' ∧ revents 1 = revents' i := by
    intro revents hpoll
    cases hpoll' : a.poll with
    | failed => simp only [slot, hpoll', reduceCtorEq] at hpoll
    | idle => simp only [slot, hpoll', reduceCtorEq] at hpoll
    | ready revents' =>
      simp only [slot, hpoll'] at hpoll
      exact ⟨revents', rfl, (congrFun (PollResult.ready.inj hpoll) 1).symm⟩
  obtain ⟨rest'', unsent'', ex'', hturn⟩ := ex'.turn clear turn
    (fun revents bytes hpoll hin hr => by
      obtain ⟨revents', hpoll', heq⟩ := hready revents hpoll
      rw [hsock]
      exact harrives revents' bytes hpoll' (heq ▸ hin) hr)
    (fun revents n hpoll hout hs => by
      obtain ⟨revents', hpoll', heq⟩ := hready revents hpoll
      exact htakes revents' n hpoll' (heq ▸ hout) hs)
  refine ⟨extra', rest'', unsent'', ex'', ?_⟩
  rcases hserve with ⟨rfl, -, rfl⟩ | ⟨-, hwork⟩
  · rcases hturn with rfl | hmore
    · exact .inl ⟨rfl, rfl⟩
    · exact .inr (hmore _)
  · rcases hturn with rfl | hmore
    · exact .inr (by omega)
    · have hlater := hmore (past ++ extra').length
      exact .inr (by omega)

/-- Something is left to do for one of the two ends. -/
theorem Exchange.next (ex : Exchange ctx msgs client c past extra sent got rest unsent)
    (fits : Fits ctx len msgs) (granted : ∀ k, (grants k).granted = true)
    (serving : Serving ctx grants h c e success h' c' e) (hcalls : client.calls ≠ []) :
    client.offers ≠ [] ∨
      (∃ bytes, 0 < client.wants ∧ bytes ≠ [] ∧ client.sock.received ++ bytes <+: c.sock.written) ∨
      stage c' ≠ stage c ∨
      (c' = c ∧ (wanted c).pollout = true) ∨
      (c' = c ∧ (wanted c).pollin = true ∧
        ∃ bytes, bytes ≠ [] ∧ c.sock.received ++ bytes <+: client.sock.written) := by
  obtain ⟨m, more, hcalls⟩ := List.exists_cons_of_ne_nil hcalls
  rcases calling_writing ex.calling hcalls with ⟨hoffers, -⟩ | ⟨-, hwants, -⟩
  · exact .inl hoffers
  · by_cases hread : client.sock.received = c.sock.written
    · obtain ⟨_, _, _, -, -, hserve⟩ := ex.serve fits granted serving
      rcases hserve with ⟨hsame, hwait, -⟩ | ⟨hstage, -⟩
      · by_cases hall : c.sock.received = client.sock.written
        · exact .inr (.inr (.inr (.inl ⟨hsame, ex.waiting fits hwait hwants hread hall⟩)))
        · obtain ⟨bytes, hbytes⟩ := ex.up
          have hne : bytes ≠ [] := by
            rintro rfl
            exact hall (by rw [← hbytes, List.append_nil])
          have hroom : 0 < c.rxCap ∧ c.rxLen ≠ c.rxCap := by omega
          have hin : (wanted c).pollin = true := by simpa [wanted] using hroom
          exact .inr (.inr (.inr (.inr ⟨hsame, hin, bytes, hne, hbytes ▸ List.prefix_refl _⟩)))
      · exact .inr (.inr (.inl hstage))
    · obtain ⟨bytes, hbytes⟩ := ex.down
      have hne : bytes ≠ [] := by
        rintro rfl
        exact hread (by rw [← hbytes, List.append_nil])
      exact .inr (.inl ⟨bytes, hwants, hne, hbytes ▸ List.prefix_refl _⟩)

end Exchanges

/-- The server between two calls, and every client in its exchange. -/
structure Convened (ctx : EchoContext) (msgs : Nat → List (List UInt8)) (len : Nat → Nat)
    (x : Crowd) : Prop where
  ready : Ready x.st
  linked : ∀ i, 0 < i → Linked ctx (msgs i) (len i) i 0 x

section Runs

variable {ctx : EchoContext} {msgs : Nat → List (List UInt8)} {len : Nat → Nat} {i j n : Nat}
  {x y : Crowd} {e : ErrorObject} {a : Answers} {st' : State} {c c' c'' : Connection}
  {ms : List (List UInt8)} {l : Nat}

theorem conn_of_serves (serves : Serves x.st i c) : x.conn i = some c ∧ x.server i = c := by
  have hconn : x.conn i = some c := by
    rw [Crowd.conn, if_pos serves.2.1]
    exact serves.2.2
  exact ⟨hconn, by rw [Crowd.server, hconn]; rfl⟩

theorem accepted_of_lt (hlt : i < x.st.ps.len) : x.accepted i = 1 := if_pos hlt

theorem conn_of_le (hle : x.st.ps.len ≤ i) :
    x.conn i = none ∧ x.server i = .fresh 0 0 ∧ x.accepted i = 0 := by
  have hconn : x.conn i = none := if_neg (Nat.not_lt.mpr hle)
  exact ⟨hconn, by rw [Crowd.server, hconn]; rfl, if_neg (Nat.not_lt.mpr hle)⟩

/-- A permitted call returns and gives every connection its turn. -/
theorem Convened.pass (convened : Convened ctx msgs len x)
    (fits : ∀ i, Fits ctx (len i) (msgs i)) (passes : Crowd.Passes ctx x e a) :
    ∃ code st', pservExecute (echoActions ctx) a (x.st.setError e) = .ok (code, st') ∧ Ready st' ∧
      Grown x.st st' ∧ ∀ i c, Serves x.st i c → ∃ h h' c' c'', st'.ps.conns i = some c'' ∧
        echoConnFunc ctx (a.grants i) h c e = .ok (success, h', c', e) ∧
        Turn (slot a i) e c' c'' := by
  refine pservExecute_round convened.ready passes.clear
    (fun i c hc => ?_) passes.granted passes.calm
  obtain ⟨past, extra, sent, got, rest, unsent, ex, -⟩ := convened.linked i hc.1
  rw [(conn_of_serves hc).2] at ex
  exact ⟨ex.holds.sound, (ex.fitting (fits i) (passes.granted i)).2⟩

/-- What a call does to the exchange of one client. -/
theorem Linked.pass (linked : Linked ctx ms l i n x) (fits : Fits ctx l ms) (ready : Ready x.st)
    (hpos : 0 < i) (passes : Crowd.Passes ctx x e a) (grown : Grown x.st st')
    (turns : ∀ c, Serves x.st i c → ∃ h h' c' c'', st'.ps.conns i = some c'' ∧
      echoConnFunc ctx (a.grants i) h c e = .ok (success, h', c', e) ∧ Turn (slot a i) e c' c'') :
    Linked ctx ms l i n { x with st := st' } ∧
      (¬ Crowd.SameAt i x { x with st := st' } →
        Linked ctx ms l i (n + 1) { x with st := st' }) := by
  obtain ⟨past, extra, sent, got, rest, unsent, ex, hlen, hwork⟩ := linked
  rcases Nat.lt_or_ge i x.st.ps.len with hlt | hge
  · obtain ⟨c, hc⟩ := ready.owned.conn i hpos hlt
    have serves : Serves x.st i c := ⟨hpos, hlt, hc⟩
    obtain ⟨hconn, hserver⟩ := conn_of_serves serves
    obtain ⟨h, h', c', c'', hc'', hfunc, turn⟩ := turns c serves
    have hlt' : i < st'.ps.len := by
      rcases grown with hsame | ⟨hmore, -⟩ <;> omega
    obtain ⟨hconn', hserver'⟩ := conn_of_serves (x := { x with st := st' }) ⟨hpos, hlt', hc''⟩
    have harrives := fun revents bytes => passes.arrives i revents bytes hpos hlt
    rw [hserver] at ex harrives hwork
    rw [accepted_of_lt hlt] at hwork
    obtain ⟨extra', rest', unsent', ex', hmore⟩ :=
      ex.round fits (passes.granted i) passes.clear hfunc turn harrives (passes.takes i)
    have haccepted : Crowd.accepted { x with st := st' } i = 1 := accepted_of_lt hlt'
    rw [← hserver'] at ex'
    refine ⟨⟨past, extra', sent, got, rest', unsent', ex', hlen, ?_⟩, fun hchange =>
      ⟨past, extra', sent, got, rest', unsent', ex', hlen, ?_⟩⟩
    · rw [hserver', haccepted]
      rcases hmore with ⟨rfl, rfl⟩ | hmore
      · exact hwork
      · exact hwork.trans (Nat.add_le_add_right hmore.le 1)
    · rw [hserver', haccepted]
      rcases hmore with ⟨rfl, rfl⟩ | hmore
      · exact absurd ⟨rfl, hconn'.trans hconn.symm⟩ hchange
      · exact Nat.succ_le_of_lt (hwork.trans_lt (Nat.add_lt_add_right hmore 1))
  · obtain ⟨hconn, hserver, haccepted⟩ := conn_of_le hge
    rw [hserver] at ex hwork
    rw [haccepted] at hwork
    rcases Nat.lt_or_ge i st'.ps.len with hlt' | hge'
    · -- the client has just been accepted
      rcases grown with hsame | ⟨hmore, id, fd, hnew⟩
      · omega
      · obtain rfl : i = x.st.ps.len := by omega
        obtain ⟨-, hserver'⟩ := conn_of_serves (x := { x with st := st' }) ⟨hpos, hlt', hnew⟩
        have haccepted' : Crowd.accepted { x with st := st' } x.st.ps.len = 1 := accepted_of_lt hlt'
        have ex' : Exchange ctx ms (x.clients x.st.ps.len) (.fresh id fd) past extra sent got rest
          unsent := ex.accepted
        rw [← hserver'] at ex'
        have hmore : n + 1 ≤ workDone (x.clients x.st.ps.len)
            (Crowd.server { x with st := st' } x.st.ps.len) (past ++ extra).length +
              Crowd.accepted { x with st := st' } x.st.ps.len := by
          rw [hserver', haccepted']
          exact Nat.succ_le_succ hwork
        exact ⟨⟨past, extra, sent, got, rest, unsent, ex', hlen, Nat.le_of_succ_le hmore⟩, fun _ =>
          ⟨past, extra, sent, got, rest, unsent, ex', hlen, hmore⟩⟩
    · obtain ⟨hconn', hserver', haccepted'⟩ := conn_of_le (x := { x with st := st' }) hge'
      refine ⟨⟨past, extra, sent, got, rest, unsent, ?_, hlen, ?_⟩, fun hchange =>
        absurd ⟨rfl, hconn'.trans hconn.symm⟩ hchange⟩
      · rw [hserver']
        exact ex
      · rw [hserver', haccepted']
        exact hwork

/-- The exchange of a client that has changed, with the same server. -/
theorem linked_at {client : Client} {past extra : List (List UInt8)}
    {sent got rest unsent : List UInt8}
    (ex : Exchange ctx ms client (x.server i) past extra sent got rest unsent)
    (hlen : client.len = l)
    (hwork : n ≤ workDone client (x.server i) (past ++ extra).length + x.accepted i)
    (hst : y.st = x.st) (hclient : y.clients i = client) : Linked ctx ms l i n y := by
  have hserver : y.server i = x.server i := by
    rw [Crowd.server, Crowd.conn, hst]
    rfl
  have haccepted : y.accepted i = x.accepted i := by
    rw [Crowd.accepted, hst]
    rfl
  refine ⟨past, extra, sent, got, rest, unsent, ?_, ?_, ?_⟩
  · rw [hclient, hserver]
    exact ex
  · rw [hclient]
    exact hlen
  · rw [hclient, hserver, haccepted]
    exact hwork

/-- A step of another client. -/
theorem Linked.other (linked : Linked ctx ms l i n x) (hst : y.st = x.st)
    (hclient : y.clients i = x.clients i) : Linked ctx ms l i n y ∧ Crowd.SameAt i x y := by
  obtain ⟨past, extra, sent, got, rest, unsent, ex, hlen, hwork⟩ := linked
  refine ⟨linked_at ex hlen hwork hst hclient, hclient, ?_⟩
  rw [Crowd.conn, hst]
  rfl

/-- A step keeps the exchange of every client, and one that changes something for a client
does some of its work. -/
theorem Linked.step (linked : Linked ctx (msgs i) (len i) i n x)
    (convened : Convened ctx msgs len x)
    (fits : ∀ i, Fits ctx (len i) (msgs i)) (hpos : 0 < i) (step : Crowd.Step ctx x y) :
    Linked ctx (msgs i) (len i) i n y ∧
      (¬ Crowd.SameAt i x y → Linked ctx (msgs i) (len i) i (n + 1) y) := by
  cases step with
  | send j k hk hoffers =>
    by_cases hj : i = j
    · subst hj
      obtain ⟨past, extra, sent, got, rest, unsent, ex, hlen, hwork⟩ := linked
      obtain ⟨sent', ex', hmore⟩ := ex.send hk hoffers
      have hlt := hwork.trans_lt
        (Nat.add_lt_add_right (hmore (past ++ extra).length) (x.accepted i))
      exact ⟨linked_at ex' hlen hlt.le rfl (Function.update_self _ _ _), fun _ =>
        linked_at ex' hlen hlt rfl (Function.update_self _ _ _)⟩
    · obtain ⟨linked', hsame⟩ := linked.other (y := { x with
        clients := Function.update x.clients j ((x.clients j).send k) }) rfl
        (Function.update_of_ne hj _ _)
      exact ⟨linked', fun hchange => absurd hsame hchange⟩
  | recv j bytes hwants hne harrives =>
    by_cases hj : i = j
    · subst hj
      obtain ⟨past, extra, sent, got, rest, unsent, ex, hlen, hwork⟩ := linked
      obtain ⟨past', extra', sent', got', ex', hlen', hsame, hmore⟩ :=
        ex.recv (hlen ▸ fits i) hwants hne harrives
      have hlt := hwork.trans_lt
        (Nat.add_lt_add_right (hmore (past ++ extra).length) (x.accepted i))
      rw [← hsame] at hlt
      exact ⟨linked_at ex' (hlen'.trans hlen) hlt.le rfl (Function.update_self _ _ _), fun _ =>
        linked_at ex' (hlen'.trans hlen) hlt rfl (Function.update_self _ _ _)⟩
    · obtain ⟨linked', hsame⟩ := linked.other (y := { x with
        clients := Function.update x.clients j ((x.clients j).recv bytes) }) rfl
        (Function.update_of_ne hj _ _)
      exact ⟨linked', fun hchange => absurd hsame hchange⟩
  | pass e a code st' passes hrun =>
    obtain ⟨code', st'', hrun', -, hgrown, hturns⟩ := convened.pass fits passes
    obtain ⟨-, rfl⟩ := ok_pair_inj (hrun.symm.trans hrun')
    exact linked.pass (fits i) convened.ready hpos passes hgrown (hturns i)

theorem Convened.step (convened : Convened ctx msgs len x) (fits : ∀ i, Fits ctx (len i) (msgs i))
    (step : Crowd.Step ctx x y) : Convened ctx msgs len y := by
  refine ⟨?_, fun i hpos => ((convened.linked i hpos).step convened fits hpos step).1⟩
  cases step with
  | send => exact convened.ready
  | recv => exact convened.ready
  | pass e a code st' passes hrun =>
    obtain ⟨code', st'', hrun', ready, -⟩ := convened.pass fits passes
    obtain ⟨-, rfl⟩ := ok_pair_inj (hrun.symm.trans hrun')
    exact ready

theorem Convened.run (convened : Convened ctx msgs len x) (fits : ∀ i, Fits ctx (len i) (msgs i))
    (hpos : 0 < i) (run : Crowd.Run ctx i x n y) :
    Convened ctx msgs len y ∧ Linked ctx (msgs i) (len i) i n y := by
  induction run with
  | start => exact ⟨convened, convened.linked i hpos⟩
  | rest _ step _ ih => exact ⟨ih.1.step fits step, (ih.2.step ih.1 fits hpos step).1⟩
  | work _ step hchange ih => exact ⟨ih.1.step fits step, (ih.2.step ih.1 fits hpos step).2 hchange⟩

/-! ## Progress -/

def input : Events := { Events.none with pollin := true }

def output : Events := { Events.none with pollout := true }

/-- A call in which `poll` reports `ev` for one connection and nothing else. -/
def only (i : Nat) (ev : Events) (bytes : List UInt8) : Answers :=
  { idles with
    poll := .ready fun j => if j = i then ev else Events.none
    recv := fun _ => .data bytes
    send := fun _ => .sent 1 }

theorem only_self {ev : Events} {bytes : List UInt8} {revents : Nat → Events}
    (hpoll : (only i ev bytes).poll = .ready revents) : revents i = ev := by
  obtain rfl := PollResult.ready.inj hpoll
  exact if_pos rfl

theorem only_other {ev : Events} {bytes : List UInt8} {revents : Nat → Events} (hj : j ≠ i)
    (hpoll : (only i ev bytes).poll = .ready revents) : revents j = Events.none := by
  obtain rfl := PollResult.ready.inj hpoll
  exact if_neg hj

theorem only_slot {ev : Events} {bytes : List UInt8} {revents : Nat → Events}
    (hpoll : (slot (only i ev bytes) i).poll = .ready revents) : revents 1 = ev := by
  obtain rfl := PollResult.ready.inj hpoll
  exact if_pos rfl

theorem calm_idles {s : State} : Calm idles s :=
  ⟨PollResult.noConfusion, fun _ => PollResult.noConfusion, fun _ => PollResult.noConfusion,
    fun _ => PollResult.noConfusion, fun _ => PollResult.noConfusion,
    fun _ => PollResult.noConfusion⟩

theorem calm_only {s : State} {ev : Events} {bytes : List UInt8} (hpos : 0 < i) (hne : bytes ≠ [])
    (hbroken : ¬ ev.broken) (hin : ev.pollin = true → (s.ps.fds i).events.pollin = true)
    (hout : ev.pollout = true → (s.ps.fds i).events.pollout = true) : Calm (only i ev bytes) s where
  alive := PollResult.noConfusion
  listens revents hpoll hev := absurd (only_other (Nat.ne_of_lt hpos) hpoll) hev
  quiet revents hpoll j _ _ := by
    by_cases hj : j = i
    · subst hj
      exact only_self hpoll ▸ hbroken
    · rw [only_other hj hpoll]
      exact fun hnone => hnone.elim Bool.noConfusion Bool.noConfusion
  honest revents hpoll j := by
    by_cases hj : j = i
    · subst hj
      exact only_self hpoll ▸ ⟨hin, hout⟩
    · rw [only_other hj hpoll]
      exact ⟨Bool.noConfusion, Bool.noConfusion⟩
  recv revents hpoll j _ _ _ hends := by
    rcases hends with hfailed | hdata
    · cases hfailed
    · exact hne (RecvResult.data.inj hdata)
  send _ _ _ _ _ _ := SendResult.noConfusion

theorem passes_only {s : State} {ev : Events} {bytes : List UInt8}
    (hserve : pservExecuteConns (echoActions ctx) idles.grants (x.st.setError errorCreate) =
      .ok (success, s)) (calm : Calm (only i ev bytes) s)
    (harrives : ev.pollin = true →
      (x.server i).sock.received ++ bytes <+: (x.clients i).sock.written) :
    Crowd.Passes ctx x errorCreate (only i ev bytes) where
  clear := rfl
  granted _ _ := rfl
  calm served hrun := by
    obtain ⟨-, rfl⟩ := ok_pair_inj (hserve.symm.trans hrun)
    exact calm
  arrives j revents bytes' _ _ hpoll hin hdata := by
    obtain rfl := RecvResult.data.inj hdata
    by_cases hj : j = i
    · subst hj
      exact harrives (only_self hpoll ▸ hin)
    · rw [only_other hj hpoll] at hin
      cases hin
  takes _ _ _ _ _ hsent := by
    obtain rfl := SendResult.sent.inj hsent
    exact Nat.one_pos

/-- The pass over the connections, and what a call then does to one of them. -/
theorem Convened.serve (convened : Convened ctx msgs len x) (fits : ∀ i, Fits ctx (len i) (msgs i))
    (serves : Serves x.st i c) :
    ∃ s c', pservExecuteConns (echoActions ctx) idles.grants (x.st.setError errorCreate) =
        .ok (success, s) ∧ Served ctx idles.grants errorCreate s i c c' ∧
      ∀ a, a.grants = idles.grants → Calm a s → ∃ code st' c'',
        pservExecute (echoActions ctx) a (x.st.setError errorCreate) = .ok (code, st') ∧
        st'.ps.conns i = some c'' ∧ i < st'.ps.len ∧ Turn (slot a i) errorCreate c' c'' := by
  have hgranted : ∀ i k, (idles.grants i k).granted = true := fun _ _ => rfl
  have hall : ∀ j d, Serves x.st j d → Sound d ∧ InRange ctx d := by
    intro j d hd
    obtain ⟨past, extra, sent, got, rest, unsent, ex, -⟩ := convened.linked j hd.1
    rw [(conn_of_serves hd).2] at ex
    exact ⟨ex.holds.sound, (ex.fitting (fits j) (hgranted j)).2⟩
  obtain ⟨s, hserve, ready', he, hlen, hserved, hsound⟩ :=
    pservExecuteConns_round (e := errorCreate) convened.ready hall hgranted
  obtain ⟨c', served⟩ := hserved i c serves
  refine ⟨s, c', hserve, served, fun a ha calm => ?_⟩
  have hlt : i < s.ps.len := hlen ▸ serves.2.1
  obtain ⟨code, st', hpoll, -, hgrown, hturns⟩ :=
    pollAndHandle_round ctx ready' calm (he ▸ rfl) hsound
  obtain ⟨c'', hconn, hturn⟩ := hturns i c' ⟨serves.1, hlt, served.conn⟩
  have hsuccess : ¬ success ≠ 0 := fun h => h rfl
  refine ⟨code, st', c'', ?_, hconn, ?_, he ▸ hturn⟩
  · simp only [pservExecute, ha, hserve, ok_bind, if_neg hsuccess]
    exact hpoll
  · rcases hgrown with hsame | ⟨hmore, -⟩ <;> omega

/-- While a call of an accepted client has not returned, a step makes progress for it. -/
theorem Convened.progress (convened : Convened ctx msgs len x)
    (fits : ∀ i, Fits ctx (len i) (msgs i)) (hpos : 0 < i) (hlt : i < x.st.ps.len)
    (hcalls : (x.clients i).calls ≠ []) : ∃ y, Crowd.Step ctx x y ∧ ¬ Crowd.SameAt i x y := by
  obtain ⟨c, hc⟩ := convened.ready.owned.conn i hpos hlt
  have serves : Serves x.st i c := ⟨hpos, hlt, hc⟩
  obtain ⟨hconn, hserver⟩ := conn_of_serves serves
  obtain ⟨past, extra, sent, got, rest, unsent, ex, hlen, -⟩ := convened.linked i hpos
  rw [hserver] at ex
  obtain ⟨s, c', hserve, served, hcall⟩ := convened.serve fits serves
  obtain ⟨h, h', hfunc⟩ := served.func
  have hgranted : ∀ k, (idles.grants i k).granted = true := fun _ => rfl
  -- a permitted call that leaves another connection is such a step
  have hmoves : ∀ a, a.grants = idles.grants → Calm a s → Crowd.Passes ctx x errorCreate a →
      (∀ c'', Turn (slot a i) errorCreate c' c'' → c'' ≠ c) →
      ∃ y, Crowd.Step ctx x y ∧ ¬ Crowd.SameAt i x y := by
    intro a ha calm passes hturn
    obtain ⟨code, st', c'', hrun, hconn'', hlt', turn⟩ := hcall a ha calm
    obtain ⟨hconn', -⟩ := conn_of_serves (x := { x with st := st' }) ⟨hpos, hlt', hconn''⟩
    refine ⟨_, .pass errorCreate a code st' passes hrun, fun hsame => hturn c'' turn ?_⟩
    exact Option.some.inj (hconn'.symm.trans (hsame.2.trans hconn))
  rcases ex.next (fits i) hgranted (echoConnFunc_serving hfunc) hcalls with
    hoffers | ⟨bytes, hwants, hne, harrives⟩ | hstage | ⟨rfl, hout⟩ |
      ⟨rfl, hin, bytes, hne, harrives⟩
  · obtain ⟨-, -, hmore⟩ := ex.send Nat.one_pos hoffers
    refine ⟨_, .send i 1 Nat.one_pos hoffers, fun hsame => (hmore 0).ne ?_⟩
    have hclient : (x.clients i).send 1 = x.clients i :=
      (Function.update_self i _ x.clients).symm.trans hsame.1
    rw [hclient]
  · obtain ⟨-, -, -, -, -, -, -, hmore⟩ := ex.recv (hlen ▸ fits i) hwants hne harrives
    refine ⟨_, .recv i bytes hwants hne (hserver ▸ harrives), fun hsame => (hmore 0).ne ?_⟩
    have hclient : (x.clients i).recv bytes = x.clients i :=
      (Function.update_self i _ x.clients).symm.trans hsame.1
    rw [hclient]
  · refine hmoves idles rfl calm_idles ⟨rfl, fun _ _ => rfl, fun _ _ => calm_idles,
      fun _ _ _ _ _ => PollResult.noConfusion, fun _ _ _ => PollResult.noConfusion⟩
      fun c'' turn heq => ?_
    rcases turn with ⟨-, rfl⟩ | ⟨_, hpoll, -⟩
    · exact hstage (congrArg EchoServer.stage heq)
    · cases hpoll
  · have hcalm : Calm (only i output [0]) s :=
      calm_only hpos (List.cons_ne_nil _ _)
        (fun hbroken => hbroken.elim Bool.noConfusion Bool.noConfusion) Bool.noConfusion
        fun _ => served.events ▸ hout
    have hpasses : Crowd.Passes ctx x errorCreate (only i output [0]) :=
      passes_only hserve hcalm Bool.noConfusion
    refine hmoves (only i output [0]) rfl hcalm hpasses fun c'' turn heq => ?_
    rcases turn with ⟨hpoll, -⟩ | ⟨revents, hpoll, ⟨hin, -⟩ | ⟨-, -, hwrite⟩ | ⟨-, hout', -⟩⟩
    · cases hpoll
    · rw [only_slot hpoll] at hin
      cases hin
    · obtain ⟨_, -, hmore⟩ := ex.write rfl hwrite fun n hsent =>
        (SendResult.sent.inj hsent) ▸ Nat.one_pos
      exact (hmore 0).ne (heq ▸ rfl)
    · rw [only_slot hpoll] at hout'
      cases hout'
  · have hcalm : Calm (only i input bytes) s :=
      calm_only hpos hne (fun hbroken => hbroken.elim Bool.noConfusion Bool.noConfusion)
        (fun _ => served.events ▸ hin) Bool.noConfusion
    have hpasses : Crowd.Passes ctx x errorCreate (only i input bytes) :=
      passes_only hserve hcalm fun _ => hserver.symm ▸ harrives
    refine hmoves (only i input bytes) rfl hcalm hpasses fun c'' turn heq => ?_
    rcases turn with ⟨hpoll, -⟩ | ⟨revents, hpoll, ⟨-, hread⟩ | ⟨hin', -⟩ | ⟨hin', -⟩⟩
    · cases hpoll
    · obtain ⟨_, -, hmore⟩ := ex.read hread fun bytes' hdata =>
        (RecvResult.data.inj hdata) ▸ harrives
      exact (hmore 0).ne (heq ▸ rfl)
    · rw [only_slot hpoll] at hin'
      cases hin'
    · rw [only_slot hpoll] at hin'
      cases hin'

theorem opened_convened {fd : Int} {fd' : Nat → Int} {conns : Nat → Option Connection}
    {fds : Nat → PollFd} {h : Heap} :
    Convened ctx msgs len
      ⟨fun i => .connected (msgs i) (len i) (fd' i), opened fd conns fds h e⟩ := by
  refine ⟨⟨opened_owned, Nat.one_pos, show 1 ≤ 101 by decide⟩, fun i hpos => ?_⟩
  obtain ⟨-, hserver, -⟩ := conn_of_le (i := i)
    (x := ⟨fun i => .connected (msgs i) (len i) (fd' i), opened fd conns fds h e⟩) hpos
  refine ⟨[], [], [], [], [], [], ?_, rfl, Nat.zero_le _⟩
  rw [hserver]
  constructor
  · rfl
  · rfl
  · exact calling_start rfl
  · exact .inl rfl
  · rfl
  · rfl
  · exact ⟨sound_fresh, rfl, rfl⟩
  · rfl
  · rfl
  · exact List.nil_prefix
  · exact List.nil_prefix

/-- In every run the calls of each client that have returned got their replies in order, the
number of steps that change something for it is bounded, every call of `pserv_execute`
returns, and once it is accepted some step makes progress for it until its last call has
returned, whatever the other clients do. -/
theorem crowd_echoed {fd : Int} {fd' : Nat → Int} {conns : Nat → Option Connection}
    {fds : Nat → PollFd} {h : Heap} (fits : ∀ i, Fits ctx (len i) (msgs i)) (hpos : 0 < i)
    (run : Crowd.Run ctx i
      ⟨fun i => .connected (msgs i) (len i) (fd' i), opened fd conns fds h e⟩ n x) :
    (∃ done, msgs i = done ++ (x.clients i).calls ∧
        (x.clients i).results = done.map (result ctx)) ∧
      n ≤ 2 * (frames (msgs i)).length + 2 * (answers ctx (msgs i)).length +
        3 * (msgs i).length + 4 ∧
      (∀ e a, Crowd.Passes ctx x e a →
        ∃ code st', pservExecute (echoActions ctx) a (x.st.setError e) = .ok (code, st')) ∧
      (i < x.st.ps.len → (x.clients i).calls ≠ [] →
        ∃ y, Crowd.Step ctx x y ∧ ¬ Crowd.SameAt i x y) := by
  obtain ⟨convened, past, extra, sent, got, rest, unsent, ex, -, hwork⟩ :=
    opened_convened.run fits hpos run
  refine ⟨⟨past, ex.split, ex.results⟩, ?_, fun e a passes => ?_, fun hlt hcalls => ?_⟩
  · have haccepted : x.accepted i ≤ 1 := by
      rw [Crowd.accepted]
      split_ifs <;> omega
    have hbound := ex.bound
    omega
  · obtain ⟨code, st', hrun, -⟩ := convened.pass fits passes
    exact ⟨code, st', hrun⟩
  · exact convened.progress fits hpos hlt hcalls

end Runs

theorem calm_connects {s : State} (hroom : s.ps.len < s.ps.cap)
    (hlisten : (s.ps.fds 0).events.pollin = true) : Calm connects s where
  alive := PollResult.noConfusion
  listens revents hpoll _ := by
    obtain rfl := PollResult.ready.inj hpoll
    exact ⟨rfl, ⟨4, rfl⟩, ⟨rfl, rfl, rfl⟩, .inl hroom⟩
  quiet revents hpoll j hpos _ := by
    obtain rfl := PollResult.ready.inj hpoll
    simp only [if_neg hpos.ne']
    exact fun hnone => hnone.elim Bool.noConfusion Bool.noConfusion
  honest revents hpoll j := by
    obtain rfl := PollResult.ready.inj hpoll
    by_cases hj : j = 0
    · subst hj
      exact ⟨fun _ => hlisten, Bool.noConfusion⟩
    · simp only [if_neg hj]
      exact ⟨Bool.noConfusion, Bool.noConfusion⟩
  recv revents hpoll j hpos _ hin := by
    obtain rfl := PollResult.ready.inj hpoll
    simp only [if_neg hpos.ne'] at hin
    cases hin
  send revents hpoll j hpos _ hout := by
    obtain rfl := PollResult.ready.inj hpoll
    simp only [if_neg hpos.ne'] at hout
    cases hout

theorem passes_connects {ctx : EchoContext} {x : Crowd} {s : State}
    (hserve : pservExecuteConns (echoActions ctx) connects.grants (x.st.setError errorCreate) =
      .ok (success, s)) (hroom : s.ps.len < s.ps.cap)
    (hlisten : (s.ps.fds 0).events.pollin = true) : Crowd.Passes ctx x errorCreate connects where
  clear := rfl
  granted _ _ := rfl
  calm served hrun := by
    obtain ⟨-, rfl⟩ := ok_pair_inj (hserve.symm.trans hrun)
    exact calm_connects hroom hlisten
  arrives _ _ _ _ _ _ _ := RecvResult.noConfusion
  takes _ _ _ _ _ := SendResult.noConfusion

/-- Two clients connect, and a step makes progress for the second one. -/
theorem crowd_echoed_two :
    ∃ x, Crowd.Run ⟨[91], [93]⟩ 2 ⟨fun _ => .connected [[97]] 3 5, started⟩ 1 x ∧
      ∃ y, Crowd.Step ⟨[91], [93]⟩ x y ∧ ¬ Crowd.SameAt 2 x y := by
  obtain ⟨s, st, hserve, hrun, hroom, hlisten, hlen, hconns⟩ : ∃ s st,
      pservExecuteConns (echoActions ⟨[91], [93]⟩) connects.grants (started.setError errorCreate) =
        .ok (success, s) ∧
      pservExecute (echoActions ⟨[91], [93]⟩) connects (started.setError errorCreate) =
        .ok (1, st) ∧
      s.ps.len < s.ps.cap ∧ (s.ps.fds 0).events.pollin = true ∧ st.ps.len = 2 ∧
      ∃ s' st', pservExecuteConns (echoActions ⟨[91], [93]⟩) connects.grants
          (st.setError errorCreate) = .ok (success, s') ∧
        pservExecute (echoActions ⟨[91], [93]⟩) connects (st.setError errorCreate) = .ok (1, st') ∧
        s'.ps.len < s'.ps.cap ∧ (s'.ps.fds 0).events.pollin = true ∧ st'.ps.len = 3 ∧
        (st'.ps.conns 2).isSome = true :=
    ⟨_, _, rfl, rfl, by decide, rfl, rfl, _, _, rfl, rfl, by decide, rfl, rfl, rfl⟩
  obtain ⟨s', st', hserve', hrun', hroom', hlisten', hlen', hsome⟩ := hconns
  have run : Crowd.Run ⟨[91], [93]⟩ 2 ⟨fun _ => .connected [[97]] 3 5, started⟩ 1
      ⟨fun _ => .connected [[97]] 3 5, st'⟩ := by
    refine .work (.rest .start (.pass errorCreate connects 1 st ?_ hrun) ⟨rfl, ?_⟩)
      (.pass errorCreate connects 1 st' ?_ hrun') fun hsame => ?_
    · exact passes_connects hserve hroom hlisten
    · rw [(conn_of_le (x := ⟨_, st⟩) (i := 2) hlen.le).1]
      rfl
    · exact passes_connects hserve' hroom' hlisten'
    · have hnone := hsame.2.trans (conn_of_le (x := ⟨_, st⟩) (i := 2) hlen.le).1
      rw [Crowd.conn, if_pos (show 2 < st'.ps.len by omega)] at hnone
      rw [hnone] at hsome
      cases hsome
  have fits : ∀ _ : Nat, Fits ⟨[91], [93]⟩ 3 [[97]] := by
    refine fun _ => ⟨by decide, fun m hm => ?_⟩
    rw [List.mem_singleton.mp hm]
    exact ⟨by decide, by decide, by decide⟩
  have hlt : 2 < st'.ps.len := by omega
  exact ⟨_, run, (crowd_echoed fits Nat.two_pos run).2.2.2 hlt (List.cons_ne_nil _ _)⟩

end EchoServer
