import CSpecx.EchoBounds
import CSpecx.PollingAlignment

/-!
# One pass over the poll array

Which branch of `pserv_execute` runs on which connection. The loop goes down, so
the entry that takes the place of a removed one was handled before.
-/

namespace Polling

open CExec Component Errors HeapBuffers

/-- The branches of the loop that do something with a connection. -/
inductive Branch where
  | hangup
  | read
  | write
  deriving DecidableEq, Repr

/-- The branch that `revents` leads to; `POLLNVAL` alone leads to none. -/
def Events.branch (ev : Events) : Option Branch :=
  if ev.pollerr || ev.pollhup then some .hangup
  else if ev.pollin then some .read
  else if ev.pollout then some .write
  else Option.none

/-- What a branch does at index `i`. -/
def Branch.run (actions : ConnActions) (a : Answers) (i : Nat) (st : State) :
    Branch → Outcome (Option Int × State)
  | .hangup => do
    let (failed, st) ← removeClient actions (a.closed i) i st
    if failed ≠ 0 then .ok (some (errorTrace st.e), st) else .ok (none, st)
  | .read => do
    let c ← nonNull (st.ps.conns i)
    let (failed, c, e) ← handleRead (a.recv i) c st.e
    let st := (st.setError e).setConn i c
    if failed ≠ 0 then do
      let (failed, st) ← removeClient actions (a.closed i) i st
      if failed ≠ 0 then .ok (some (errorTrace st.e), st) else .ok (none, st)
    else .ok (none, st)
  | .write => do
    let c ← nonNull (st.ps.conns i)
    let (c, e) ← handleWrite (a.send i) c st.e
    .ok (none, (st.setError e).setConn i c)

/-- The branch that the iteration at `i` runs, with the structure it runs on. -/
def visit (i : Nat) (st : State) : List (Branch × Nat) :=
  match (st.ps.fds i).revents.branch, st.ps.conns i with
  | some b, some c => if i = 0 then [] else [(b, c.id)]
  | _, _ => []

/-- What the iterations below `n` run, in their order. -/
def visits (actions : ConnActions) (a : Answers) : Nat → State → List (Branch × Nat)
  | 0, _ => []
  | i + 1, st => visit i st ++
    match handleEvent actions a i st with
    | .ok (none, s) => visits actions a i s
    | _ => []

/-- The visits of a pass in which no index changes before its turn. -/
def planned (st : State) : Nat → List (Branch × Nat)
  | 0 => []
  | i + 1 => visit i st ++ planned st i

section Branches

variable {actions : ConnActions} {a : Answers} {st st' s : State} {i n : Nat} {c : Connection}
  {returned : Option Int} {code : Int} {b : Branch}

/-- The iteration for a connection is its branch. -/
theorem handleEvent_branch (hpos : 0 < i) (hb : (st.ps.fds i).revents.branch = some b) :
    handleEvent actions a i st = b.run actions a i st := by
  have hi : i ≠ 0 := Nat.ne_of_gt hpos
  have hsome : (st.ps.fds i).revents ≠ Events.none := by
    intro hnone
    rw [hnone] at hb
    cases hb
  simp only [handleEvent, if_neg hsome, if_neg hi]
  unfold Events.branch at hb
  by_cases hbroken : ((st.ps.fds i).revents.pollerr || (st.ps.fds i).revents.pollhup) = true
  · rw [if_pos hbroken] at hb
    obtain rfl := Option.some.inj hb
    rw [if_pos hbroken]
    rfl
  · rw [if_neg hbroken] at hb
    rw [if_neg hbroken]
    by_cases hin : (st.ps.fds i).revents.pollin = true
    · rw [if_pos hin] at hb
      obtain rfl := Option.some.inj hb
      simp only [serveConn, if_pos hin]
      rfl
    · rw [if_neg hin] at hb
      by_cases hout : (st.ps.fds i).revents.pollout = true
      · rw [if_pos hout] at hb
        obtain rfl := Option.some.inj hb
        simp only [serveConn, if_neg hin, if_pos hout]
        rfl
      · rw [if_neg hout] at hb
        cases hb

/-- Without a branch the iteration changes nothing. -/
theorem handleEvent_unmoved (serves : Serves st i c)
    (hb : (st.ps.fds i).revents.branch = none) : handleEvent actions a i st = .ok (none, st) := by
  have hi : i ≠ 0 := Nat.ne_of_gt serves.1
  by_cases hnone : (st.ps.fds i).revents = Events.none
  · simp only [handleEvent, if_pos hnone]
  · have hat : nonNull (st.ps.conns i) = .ok c := nonNull_eq_ok.mpr serves.2.2
    unfold Events.branch at hb
    split at hb
    · cases hb
    · rename_i hbroken
      split at hb
      · cases hb
      · rename_i hin
        split at hb
        · cases hb
        · rename_i hout
          simp only [handleEvent, if_neg hnone, if_neg hi, if_neg hbroken, serveConn, hat, ok_bind,
            if_neg hin, if_neg hout]

/-- A connection's iteration ends the call only when a `close` fails. -/
theorem handleEvent_continues (serves : Serves st i c) (hclosed : a.closed i = true)
    (hrun : handleEvent actions a i st = .ok (returned, st')) : returned = none := by
  have removal : ∀ {t t' : State} {d : Connection}, Serves t i d →
      (do
        let (failed, st) ← removeClient actions (a.closed i) i t
        if failed ≠ 0 then .ok (some (errorTrace st.e), st) else .ok (none, st) :
        Outcome (Option Int × State)) = .ok (returned, t') → returned = none := by
    intro t t' d ht hremoval
    obtain ⟨⟨failed, s⟩, hremove, hremoval⟩ := bind_eq_ok.mp hremoval
    obtain ⟨-, -, ⟨-, hcode, -⟩ | ⟨hopen, -⟩⟩ := removeClient_done ht hremove
    · exact (finish_done hremoval).2.mpr hcode
    · rw [hclosed] at hopen
      cases hopen
  cases hb : (st.ps.fds i).revents.branch with
  | none =>
    rw [handleEvent_unmoved serves hb] at hrun
    exact (ok_pair_inj hrun).1.symm
  | some b =>
    rw [handleEvent_branch serves.1 hb] at hrun
    cases b with
    | hangup => exact removal serves hrun
    | read =>
      obtain ⟨d, hd, hrun⟩ := bind_eq_ok.mp hrun
      obtain ⟨⟨code, d', e'⟩, -, hrun⟩ := bind_eq_ok.mp hrun
      by_cases hfail : code ≠ 0
      · simp only [if_pos hfail] at hrun
        exact removal (serves_setConn serves d' e') hrun
      · simp only [if_neg hfail] at hrun
        exact (ok_pair_inj hrun).1.symm
    | write =>
      obtain ⟨d, hd, hrun⟩ := bind_eq_ok.mp hrun
      obtain ⟨⟨d', e'⟩, -, hrun⟩ := bind_eq_ok.mp hrun
      exact (ok_pair_inj hrun).1.symm

end Branches

/-- What a pass over the connections of `served` does. -/
structure Visited (actions : ConnActions) (a : Answers) (revents : Nat → Events)
    (served : State) : Prop where
  turn : ∀ i c, Serves served i c →
    ∃ s s', Reaches actions a served.ps.len (storeRevents revents served) (i + 1) s ∧
      Serves s i c ∧ handleEvent actions a i s = .ok (none, s') ∧
      (∀ b, (revents i).branch = some b → b.run actions a i s = .ok (none, s')) ∧
      ((revents i).branch = none → s' = s)
  once : ∀ i c, Serves served i c →
    (visits actions a served.ps.len (storeRevents revents served)).filter (fun x => x.2 = c.id) =
      (revents i).branch.toList.map fun b => (b, c.id)
  polled : ∀ x ∈ visits actions a served.ps.len (storeRevents revents served),
    ∃ i c, Serves served i c ∧ (revents i).branch = some x.1 ∧ x.2 = c.id

section Passes

variable {actions : ConnActions} {a : Answers} {st st₀ st' s : State} {i n : Nat}
  {c : Connection} {code : Int} {revents : Nat → Events}

theorem visit_of_serves (serves : Serves st i c) :
    visit i st = (st.ps.fds i).revents.branch.toList.map fun b => (b, c.id) := by
  have hi : i ≠ 0 := Nat.ne_of_gt serves.1
  unfold visit
  rw [serves.2.2]
  cases (st.ps.fds i).revents.branch with
  | none => rfl
  | some b => exact if_neg hi

theorem visit_zero : visit 0 st = [] := by
  unfold visit
  split
  · rfl
  · rfl

theorem visit_below (below : Below n st₀ st) (hi : i < n) : visit i st = visit i st₀ := by
  unfold visit
  rw [below.conns i hi, below.fds i hi]

theorem mem_visit {x : Branch × Nat} (hx : x ∈ visit i st) :
    0 < i ∧ (st.ps.fds i).revents.branch = some x.1 ∧ ∃ c, st.ps.conns i = some c ∧ x.2 = c.id := by
  unfold visit at hx
  split at hx
  · rename_i b c hb hc
    by_cases hi : i = 0
    · rw [if_pos hi] at hx
      cases hx
    · rw [if_neg hi, List.mem_singleton] at hx
      subst hx
      exact ⟨Nat.pos_of_ne_zero hi, hb, c, hc, rfl⟩
  · cases hx

/-- An iteration leaves the lower indices alone. -/
theorem handleEvent_next (lawful : Lawful actions) (framed : Framed actions) (owned : Owned st)
    (hclosed : ∀ j, a.closed j = true) (hpos : 0 < i) (hlen : i < st.ps.len)
    {returned : Option Int} (hrun : handleEvent actions a i st = .ok (returned, s)) :
    returned = none ∧ Below i st s ∧ Owned s ∧ i ≤ s.ps.len := by
  obtain ⟨c, hc⟩ := owned.conn i hpos hlen
  have serves : Serves st i c := ⟨hpos, hlen, hc⟩
  obtain rfl := handleEvent_continues serves (hclosed i) hrun
  obtain ⟨hmoves, hshort⟩ :=
    handleEvent_moves (P := fun _ _ => True) lawful False.elim hlen hrun
  have handled := handleEvent_done serves rfl Iff.rfl hrun
  exact ⟨rfl, handled.below, owned.steps lawful framed hmoves.steps, by omega⟩

theorem Below.trans (h : Below n st₀ st) (h' : Below n st s) : Below n st₀ s :=
  ⟨fun j hj => (h'.conns j hj).trans (h.conns j hj), fun j hj => (h'.fds j hj).trans (h.fds j hj)⟩

theorem Below.anti (h : Below n st₀ st) (hi : i ≤ n) : Below i st₀ st :=
  ⟨fun j hj => h.conns j (Nat.lt_of_lt_of_le hj hi), fun j hj => h.fds j (Nat.lt_of_lt_of_le hj hi)⟩

/-- Each index is visited as it was before the loop. -/
theorem visits_planned (lawful : Lawful actions) (framed : Framed actions) (owned : Owned st)
    (hclosed : ∀ j, a.closed j = true) (hn : n ≤ st.ps.len) (below : Below n st₀ st)
    (hrun : pollLoop actions a n st = .ok (code, st')) :
    visits actions a n st = planned st₀ n := by
  induction n generalizing st with
  | zero => rfl
  | succ n ih =>
    obtain ⟨⟨returned, s⟩, hone, hrun⟩ := bind_eq_ok.mp hrun
    have hhere := visit_below below (Nat.lt_succ_self n)
    by_cases hzero : n = 0
    · subst hzero
      simp only [visits, planned, hhere, visit_zero, List.nil_append, hone]
      split
      · rfl
      · rfl
    · obtain ⟨rfl, hbelow, howned, hlen⟩ :=
        handleEvent_next lawful framed owned hclosed (Nat.pos_of_ne_zero hzero) hn hone
      have hrest := ih howned hlen ((below.anti (Nat.le_succ n)).trans hbelow) hrun
      simp only [visits, planned, hhere, hone, hrest]

/-- The loop comes to every connection. -/
theorem pollLoop_reaches (lawful : Lawful actions) (framed : Framed actions) (owned : Owned st)
    (hclosed : ∀ j, a.closed j = true) (hn : n ≤ st.ps.len) (hi : i < n) (hpos : 0 < i)
    (hrun : pollLoop actions a n st = .ok (code, st')) :
    ∃ s s', Reaches actions a n st (i + 1) s ∧ i < s.ps.len ∧ Below (i + 1) st s ∧
      handleEvent actions a i s = .ok (none, s') := by
  induction n generalizing st with
  | zero => omega
  | succ n ih =>
    obtain ⟨⟨returned, s⟩, hone, hrun⟩ := bind_eq_ok.mp hrun
    obtain ⟨rfl, hbelow, howned, hlen⟩ :=
      handleEvent_next lawful framed owned hclosed (by omega) hn hone
    rcases Nat.eq_or_lt_of_le (Nat.le_of_lt_succ hi) with rfl | hlt
    · exact ⟨st, s, .here _ st, hn, .refl _ st, hone⟩
    · obtain ⟨t, t', hreaches, htlen, ht, hevent⟩ := ih howned hlen hlt hrun
      exact ⟨t, t', .next hone hreaches, htlen, (hbelow.anti hlt).trans ht, hevent⟩

theorem planned_polled {x : Branch × Nat} (hx : x ∈ planned st n) (hn : n ≤ st.ps.len) :
    ∃ i c, i < n ∧ Serves st i c ∧ (st.ps.fds i).revents.branch = some x.1 ∧ x.2 = c.id := by
  induction n with
  | zero => cases hx
  | succ n ih =>
    rcases List.mem_append.mp hx with hhere | hrest
    · obtain ⟨hpos, hb, c, hc, hid⟩ := mem_visit hhere
      exact ⟨n, c, Nat.lt_succ_self n, ⟨hpos, hn, hc⟩, hb, hid⟩
    · obtain ⟨i, c, hi, hc, hb, hid⟩ := ih hrest (Nat.le_of_succ_le hn)
      exact ⟨i, c, Nat.lt_succ_of_lt hi, hc, hb, hid⟩

/-- Two indices never hold the same structure. -/
theorem Owned.distinct (owned : Owned st) {j : Nat} {d : Connection} (hc : Serves st i c)
    (hd : Serves st j d) (hid : c.id = d.id) : i = j :=
  owned.apart i j c d c.id hc hd List.mem_cons_self (hid ▸ List.mem_cons_self)

theorem planned_once (owned : Owned st) (serves : Serves st i c) (hn : n ≤ st.ps.len) :
    (planned st n).filter (fun x => x.2 = c.id) = if i < n then visit i st else [] := by
  induction n with
  | zero => rfl
  | succ n ih =>
    have hrest := ih (Nat.le_of_succ_le hn)
    simp only [planned, List.filter_append, hrest]
    by_cases hhere : i = n
    · subst hhere
      rw [if_neg (Nat.lt_irrefl i), if_pos (Nat.lt_succ_self i), List.append_nil,
        List.filter_eq_self]
      intro x hx
      obtain ⟨-, -, d, hd, hid⟩ := mem_visit hx
      obtain rfl := Option.some.inj (serves.2.2.symm.trans hd)
      exact decide_eq_true hid
    · have hother : (visit n st).filter (fun x => x.2 = c.id) = [] := by
        rw [List.filter_eq_nil_iff]
        intro x hx hsame
        obtain ⟨hpos, -, d, hd, hid⟩ := mem_visit hx
        have hserves : Serves st n d := ⟨hpos, hn, hd⟩
        exact hhere (owned.distinct serves hserves ((of_decide_eq_true hsame).symm.trans hid))
      rw [hother, List.nil_append]
      exact if_congr (by omega) rfl rfl

/-- Every connection of the poll has its turn, and no other has one. -/
theorem pass_visited (lawful : Lawful actions) (framed : Framed actions) (owned : Owned st)
    (hclosed : ∀ j, a.closed j = true)
    (hrun : pollLoop actions a st.ps.len (storeRevents revents st) = .ok (code, st')) :
    Visited actions a revents st := by
  have hstore : Owned (storeRevents revents st) := owned.idle rfl rfl rfl
  have hlen : st.ps.len ≤ (storeRevents revents st).ps.len := le_refl _
  have hvisits := visits_planned lawful framed hstore hclosed hlen (Below.refl _ _) hrun
  constructor
  · intro i c hc
    obtain ⟨s, s', hreaches, hslen, hbelow, hevent⟩ :=
      pollLoop_reaches lawful framed hstore hclosed hlen hc.2.1 hc.1 hrun
    have hconns := hbelow.conns i (Nat.lt_succ_self i)
    have hfds := hbelow.fds i (Nat.lt_succ_self i)
    have hserves : Serves s i c := ⟨hc.1, hslen, hconns.trans hc.2.2⟩
    have hrevents : (s.ps.fds i).revents = revents i := congrArg PollFd.revents hfds
    refine ⟨s, s', hreaches, hserves, hevent, fun b hb => ?_, fun hb => ?_⟩
    · rw [← hrevents] at hb
      exact (handleEvent_branch hc.1 hb).symm.trans hevent
    · rw [← hrevents] at hb
      have hstay := (handleEvent_unmoved hserves hb).symm.trans hevent
      exact (ok_pair_inj hstay).2.symm
  · intro i c hc
    have hserves : Serves (storeRevents revents st) i c := hc
    rw [hvisits, planned_once hstore hserves hlen, if_pos hc.2.1, visit_of_serves hserves]
    rfl
  · intro x hx
    rw [hvisits] at hx
    obtain ⟨i, c, -, hc, hb, hid⟩ := planned_polled hx hlen
    exact ⟨i, c, hc, hb, hid⟩

end Passes

/-! ## Runs -/

section Runs

variable {actions : ConnActions} {P : (Nat → Grant) → Connection → Prop}
  {fd : Int} {conns : Nat → Option Connection} {fds : Nat → PollFd} {h : Heap} {e₀ : ErrorObject}

/-- In every state the arrays are aligned and hold the live connections, each
once; a call that polls handles each of its connections by the one branch that
`revents` selects, and nothing else. -/
theorem aligned_and_visited (lawful : Lawful actions) (framed : Framed actions)
    (steady : Steady actions) :
    (∀ s, Reached actions P True (opened fd conns fds h e₀) s →
      Aligned s ∧ (∀ i, 0 < i → i < s.ps.len → ∃ c, Serves s i c) ∧
        (∀ i j c d, Serves s i c → Serves s j d → c.id = d.id → i = j) ∧
        (∃ live, Live actions P True (opened fd conns fds h e₀) s live) ∧
        ∀ live, Live actions P True (opened fd conns fds h e₀) s live →
          ∀ id, id ∈ live ↔ Stored s id) ∧
      ∀ tr st e a code st' served revents,
        Trace (server actions P True) (opened fd conns fds h e₀) tr st →
        (server actions P True).pre st (e, a) →
        pservExecute actions a (st.setError e) = .ok (code, st') →
        pservExecuteConns actions a.grants (st.setError e) = .ok (success, served) →
        a.poll = .ready revents → Visited actions a revents served := by
  constructor
  · intro s reached
    have owned := Owned.reached lawful framed reached
    refine ⟨opened_aligned.reached lawful steady reached, fun i hpos hlt => ?_,
      fun i j c d hc hd hid => owned.distinct hc hd hid, Live.exists (reached.steps lawful),
      fun live hlive => ?_⟩
    · obtain ⟨c, hc⟩ := owned.conn i hpos hlt
      exact ⟨c, hpos, hlt, hc⟩
    · have hempty : ∀ id, ¬ Stored (opened fd conns fds h e₀) id :=
        fun id hstored => let ⟨_, _, hc, _⟩ := hstored; opened_serves hc
      exact (hlive.stored lawful framed steady opened_owned Nat.one_pos hempty).2
  · intro tr st e a code st' served revents run pre hrun hserved hpoll
    have owned := Owned.reached lawful framed (.served run pre hserved)
    have hclosed : ∀ j, a.closed j = true := pre.2 trivial
    have hloop : pollLoop actions a served.ps.len (storeRevents revents served) =
        .ok (code, st') := by
      simp only [pservExecute, hserved, ok_bind, pollAndHandle, hpoll] at hrun
      exact hrun
    exact pass_visited lawful framed owned hclosed hloop

end Runs

/-! ## A client of the echo server -/

theorem echo_steady (ctx : EchoServer.EchoContext) : Steady (EchoServer.echoActions ctx) := by
  intro grants h c e code h' c' e' hrun
  have serving := EchoServer.echoConnFunc_serving hrun
  cases serving <;> exact ⟨rfl, rfl⟩

/-- A client connects and sends a byte. -/
theorem client_visited :
    ∃ st served, Aligned st ∧
      Visited (EchoServer.echoActions ⟨[], []⟩) (EchoServer.sends [0])
        (fun i => if i = 1 then { Events.none with pollin := true } else Events.none) served ∧
      ∃ c, Serves served 1 c := by
  obtain ⟨st, served, st', hconnects, hserved, hsends, hconn⟩ : ∃ st served st',
      pservExecute (EchoServer.echoActions ⟨[], []⟩) EchoServer.connects
        (EchoServer.started.setError errorCreate) = .ok (1, st) ∧
      pservExecuteConns (EchoServer.echoActions ⟨[], []⟩) (EchoServer.sends [0]).grants
        (st.setError errorCreate) = .ok (success, served) ∧
      pservExecute (EchoServer.echoActions ⟨[], []⟩) (EchoServer.sends [0])
        (st.setError errorCreate) = .ok (1, st') ∧ ∃ c, Serves served 1 c :=
    ⟨_, _, _, rfl, rfl, rfl, _, Nat.one_pos, Nat.lt_succ_self 1, rfl⟩
  have run : Trace (server (EchoServer.echoActions ⟨[], []⟩) (fun _ _ => True) True)
      EchoServer.started [((errorCreate, EchoServer.connects), 1)] st :=
    .cons ⟨fun _ _ _ => trivial, fun _ _ => rfl⟩ hconnects (.nil st)
  obtain ⟨aligned, visited⟩ := @aligned_and_visited (EchoServer.echoActions ⟨[], []⟩)
    (fun _ _ => True) 3 (fun _ => none) (fun _ => ⟨0, Events.none, Events.none⟩)
    EchoServer.emptyHeap errorCreate (EchoServer.echo_lawful ⟨[], []⟩)
    (EchoServer.echo_framed ⟨[], []⟩) (echo_steady ⟨[], []⟩)
  exact ⟨st, served, (aligned st (.ended run)).1, visited _ st _ _ _ st' served _ run
    ⟨fun _ _ _ => trivial, fun _ _ => rfl⟩ hsends hserved rfl, hconn⟩

/-- `poll` reports `POLLNVAL` for the first client, and nothing else. -/
def reportsInvalid : Answers :=
  { EchoServer.connects with
    poll := .ready fun i => if i = 1 then { Events.none with pollnval := true } else Events.none }

/-- A connection whose `revents` is not zero is handled by no branch. -/
theorem invalid_unhandled :
    ∃ st served code st' c,
      Trace (server (EchoServer.echoActions ⟨[], []⟩) (fun _ _ => True) True) EchoServer.started
        [((errorCreate, EchoServer.connects), 1)] st ∧
      (server (EchoServer.echoActions ⟨[], []⟩) (fun _ _ => True) True).pre st
        (errorCreate, reportsInvalid) ∧
      pservExecute (EchoServer.echoActions ⟨[], []⟩) reportsInvalid (st.setError errorCreate) =
        .ok (code, st') ∧
      pservExecuteConns (EchoServer.echoActions ⟨[], []⟩) reportsInvalid.grants
        (st.setError errorCreate) = .ok (success, served) ∧
      Serves served 1 c ∧
      ∃ revents, reportsInvalid.poll = .ready revents ∧ revents 1 ≠ Events.none ∧
        visits (EchoServer.echoActions ⟨[], []⟩) reportsInvalid served.ps.len
          (storeRevents revents served) = [] :=
  ⟨_, _, _, _, _, .cons ⟨fun _ _ _ => trivial, fun _ _ => rfl⟩ rfl (.nil _),
    ⟨fun _ _ _ => trivial, fun _ _ => rfl⟩, rfl, rfl, ⟨Nat.one_pos, Nat.lt_succ_self 1, rfl⟩,
    _, rfl, by decide, rfl⟩

end Polling
