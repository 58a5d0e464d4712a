import CSpecx.Component
import CSpecx.PollingIsolation

/-!
# Runs of the polling server

A run is a sequence of `pserv_execute` calls from an opened server. Each call
brings its own error object and its own answers of the system calls.
-/

namespace Polling

open CExec Component Errors HeapBuffers

/-- The calls in which `conn_func` meets `P` on every connection, and in which
every `close` of a connection succeeds if `closes`. -/
def server (actions : ConnActions) (P : (Nat → Grant) → Connection → Prop) (closes : Prop) :
    Interface State (ErrorObject × Answers) Int where
  pre st x := (∀ i c, Serves st i c → P (x.2.grants i) c) ∧ (closes → ∀ i, x.2.closed i = true)
  step st x := pservExecute actions x.2 (st.setError x.1)

/-- The state behind `pserv_open`. -/
def opened (fd : Int) (conns : Nat → Option Connection) (fds : Nat → PollFd) (h : Heap)
    (e : ErrorObject) : State := ⟨pservOpened fd conns fds, h, e⟩

/-- The states at the end of a run, after the connections are served in a further
call, and before each iteration of its loop. -/
inductive Reached (actions : ConnActions) (P : (Nat → Grant) → Connection → Prop) (closes : Prop)
    (st₀ : State) : State → Prop where
  | ended {tr : List ((ErrorObject × Answers) × Int)} {st : State} :
      Trace (server actions P closes) st₀ tr st → Reached actions P closes st₀ st
  | served {tr : List ((ErrorObject × Answers) × Int)} {st s : State} {e : ErrorObject}
      {a : Answers} {code : Int} : Trace (server actions P closes) st₀ tr st →
      (server actions P closes).pre st (e, a) →
      pservExecuteConns actions a.grants (st.setError e) = .ok (code, s) →
      Reached actions P closes st₀ s
  | handling {tr : List ((ErrorObject × Answers) × Int)} {st s : State} {e : ErrorObject}
      {a : Answers} {i : Nat} : Trace (server actions P closes) st₀ tr st →
      (server actions P closes).pre st (e, a) → Handles actions a (st.setError e) i s →
      Reached actions P closes st₀ s

/-- `poll` reports `POLLIN` and `POLLOUT` where `events` asks for them. -/
def Honest (served : State) (revents : Nat → Events) : Prop :=
  ∀ i, ((revents i).pollin = true → (served.ps.fds i).events.pollin = true) ∧
    ((revents i).pollout = true → (served.ps.fds i).events.pollout = true)

/-- `conn_func` returns success on every connection that it meets in `I`. -/
def Total (actions : ConnActions) (P : (Nat → Grant) → Connection → Prop)
    (I : Connection → Prop) : Prop :=
  ∀ grants h c e, I c → P grants c → c.blocks.Nodup → (∀ b ∈ c.blocks, b ∈ h.live) →
    ∃ h' c' e', actions.connFunc grants h c e = .ok (success, h', c', e')

section Runs

variable {actions : ConnActions} {P : (Nat → Grant) → Connection → Prop} {closes : Prop}
  {I : Connection → Prop} {st st' s : State} {a : Answers} {i n : Nat} {c : Connection}
  {tr : List ((ErrorObject × Answers) × Int)} {fd : Int} {conns : Nat → Option Connection}
  {fds : Nat → PollFd} {h : Heap} {e : ErrorObject}

theorem server_moves (lawful : Lawful actions) (run : Trace (server actions P closes) st tr st') :
    Moves actions P closes st st' := by
  induction run with
  | nil => exact .refl
  | @cons s s' s'' x r tr hpre hstep _ ih =>
    have hstart : Move actions P closes s (s.setError x.1) := .quiet rfl rfl
    exact (Relation.ReflTransGen.head hstart
      (pservExecute_moves lawful hpre.2 hpre.1 hstep)).trans ih

theorem reaches_moves (lawful : Lawful actions) (hclosed : closes → ∀ j, a.closed j = true)
    (reaches : Reaches actions a n st i s) (hn : n ≤ st.ps.len) : Moves actions P closes st s := by
  induction reaches with
  | here => exact .refl
  | @next n i st t s hrun _ ih =>
    obtain ⟨hmoves, hlen⟩ := handleEvent_moves lawful hclosed hn hrun
    exact hmoves.trans (ih (by omega))

theorem Reached.moves (lawful : Lawful actions) (reached : Reached actions P closes st s) :
    Moves actions P closes st s := by
  cases reached with
  | ended run => exact server_moves lawful run
  | @served tr st' s e a code run pre hrun =>
    have hstart : Move actions P closes st' (st'.setError e) := .quiet rfl rfl
    have meets : ∀ i c, Serves (st'.setError e) i c → P (a.grants i) c := pre.1
    exact (server_moves lawful run).trans (.head hstart (pservExecuteConns_moves meets hrun).1)
  | @handling tr st' s e a i run pre handles =>
    obtain ⟨served, revents, hrun, -, reaches⟩ := handles
    have hstart : Move actions P closes st' (st'.setError e) := .quiet rfl rfl
    have meets : ∀ i c, Serves (st'.setError e) i c → P (a.grants i) c := pre.1
    have hloop : Moves actions P closes (storeRevents revents served) s :=
      reaches_moves lawful pre.2 reaches (le_refl _)
    exact (server_moves lawful run).trans
      (.head hstart ((pservExecuteConns_moves meets hrun).1.trans (.head (.stored revents) hloop)))

theorem Reached.steps (lawful : Lawful actions) (reached : Reached actions P closes st s) :
    Steps actions P closes st s := (reached.moves lawful).steps

theorem opened_serves : ¬ Serves (opened fd conns fds h e) i c := by
  rintro ⟨hpos, hlt, -⟩
  have hlt : i < 1 := hlt
  omega

theorem opened_owned : Owned (opened fd conns fds h e) :=
  ⟨fun i hpos hlt => absurd (show i < 1 from hlt) (by omega), fun _ _ hc => absurd hc opened_serves,
    fun _ _ hc => absurd hc opened_serves, fun _ _ _ _ _ hc => absurd hc opened_serves⟩

/-- An invariant of single connections holds in every state. -/
theorem Keeps.reached (keeps : Keeps actions P closes I) (lawful : Lawful actions)
    (reached : Reached actions P closes (opened fd conns fds h e) s) : AllServed I s :=
  keeps.steps (reached.steps lawful) fun _ _ hc => absurd hc opened_serves

theorem Owned.reached (lawful : Lawful actions) (framed : Framed actions)
    (reached : Reached actions P closes (opened fd conns fds h e) s) : Owned s :=
  opened_owned.steps lawful framed (reached.steps lawful)

/-! ## Calls that return -/

/-- One connection is served, and `poll` is asked for what it wants. -/
theorem executeConn_returns {grants : Nat → Grant} (total : Total actions P I) (owned : Owned st)
    (serves : Serves st i c) (hI : I c) (meets : P grants c) :
    ∃ s c', executeConn actions grants i st = .ok (none, s) ∧ s.ps.conns i = some c' ∧
      (s.ps.fds i).events = wanted c' ∧ (∀ j ≠ i, s.ps.fds j = st.ps.fds j) := by
  obtain ⟨h', c', e', hfunc⟩ := total grants st.heap c st.e hI meets (owned.nodup i c serves)
    (owned.live i c serves)
  have hat : nonNull (st.ps.conns i) = .ok c := nonNull_eq_ok.mpr serves.2.2
  obtain ⟨f, hf⟩ : ∃ f : PollFd, f = { st.ps.fds i with events := wanted c' } := ⟨_, rfl⟩
  have hevents : f.events = wanted c' := by rw [hf]
  refine ⟨(((st.setHeap h').setError e').setConn i c').setFd i f, c', ?_,
    Function.update_self _ _ _, ?_, fun j hj => Function.update_of_ne hj _ _⟩
  · simp only [executeConn, hat, ok_bind, hfunc, hf]
    rfl
  · exact (congrArg PollFd.events (Function.update_self _ _ _)).trans hevents

/-- Every connection is served, and `poll` is asked for what it then wants. -/
theorem executeConns_returns {grants : Nat → Nat → Grant} (framed : Framed actions)
    (lawful : Lawful actions) (total : Total actions P I) (owned : Owned st) (hpos : 0 < i)
    (hlen : i + n ≤ st.ps.len)
    (all : ∀ j c, i ≤ j → Serves st j c → I c ∧ P (grants j) c) :
    ∃ s, executeConns actions grants n i st = .ok (success, s) ∧
      (∀ j c, i ≤ j → j < i + n → s.ps.conns j = some c → (s.ps.fds j).events = wanted c) ∧
      (∀ j < i, s.ps.fds j = st.ps.fds j ∧ s.ps.conns j = st.ps.conns j) := by
  induction n generalizing i st with
  | zero => exact ⟨st, rfl, fun j c hj hlt => absurd hlt (by omega), fun _ _ => ⟨rfl, rfl⟩⟩
  | succ n ih =>
    obtain ⟨c, hc⟩ := owned.conn i hpos (by omega)
    have hserves : Serves st i c := ⟨hpos, by omega, hc⟩
    obtain ⟨hI, meets⟩ := all i c (le_refl i) hserves
    obtain ⟨t, c', hone, hat, hwants, hfds⟩ := executeConn_returns total owned hserves hI meets
    have meets' : ∀ d, st.ps.conns i = some d → P (grants i) d := by
      intro d hd
      obtain rfl := Option.some.inj (hc.symm.trans hd)
      exact meets
    obtain ⟨hmoves, hlen', hothers⟩ : Moves actions P False st t ∧ _ ∧ _ :=
      executeConn_moves hpos (by omega) meets' hone
    have all' : ∀ j d, i + 1 ≤ j → Serves t j d → I d ∧ P (grants j) d := by
      intro j d hj hd
      refine all j d (by omega) ⟨hd.1, hlen' ▸ hd.2.1, ?_⟩
      rw [← hothers j (by omega)]
      exact hd.2.2
    obtain ⟨s, hrest, hasked, hbelow⟩ :=
      ih (owned.steps lawful framed hmoves.steps) (Nat.succ_pos i) (by omega) all'
    refine ⟨s, ?_, fun j d hj hlt hd => ?_, fun j hj => ?_⟩
    · simp only [executeConns, hone, ok_bind]
      exact hrest
    · rcases Nat.eq_or_lt_of_le hj with rfl | hlater
      · obtain ⟨hsfds, hsconns⟩ := hbelow i (Nat.lt_succ_self i)
        rw [hsconns, hat] at hd
        obtain rfl := Option.some.inj hd
        rw [hsfds, hwants]
      · exact hasked j d hlater (by omega) hd
    · obtain ⟨hsfds, hsconns⟩ := hbelow j (Nat.lt_succ_of_lt hj)
      exact ⟨hsfds.trans (hfds j (Nat.ne_of_lt hj)), hsconns.trans (hothers j (Nat.ne_of_lt hj))⟩

theorem pservExecuteConns_returns {grants : Nat → Nat → Grant} (framed : Framed actions)
    (lawful : Lawful actions) (total : Total actions P I) (owned : Owned st)
    (all : AllServed I st) (meets : ∀ i c, Serves st i c → P (grants i) c) :
    ∃ s, pservExecuteConns actions grants st = .ok (success, s) ∧
      ∀ i c, Serves s i c → (s.ps.fds i).events = wanted c := by
  by_cases hlen : 0 < st.ps.len
  · obtain ⟨s, hrun, hasked, -⟩ := executeConns_returns framed lawful total owned
      Nat.one_pos (n := st.ps.len - 1) (by omega) fun j c _ hc => ⟨all j c hc, meets j c hc⟩
    have hmoves : Moves actions P False st s ∧ s.ps.len = st.ps.len :=
      pservExecuteConns_moves meets hrun
    have hslen := hmoves.2
    refine ⟨s, hrun, fun i c hc => ?_⟩
    have hlt := hc.2.1
    exact hasked i c hc.1 (by omega) hc.2.2
  · have hnone : st.ps.len - 1 = 0 := by omega
    refine ⟨st, by simp only [pservExecuteConns, hnone, executeConns], fun i c hc => ?_⟩
    exact absurd hc.2.1 (by omega)

/-- The iterations above an index leave its connection and its events alone. -/
theorem Reaches.unchanged (lawful : Lawful actions) (framed : Framed actions)
    (reaches : Reaches actions a n st i s) (hpos : 0 < i) (owned : Owned st)
    (hn : n ≤ st.ps.len) : Below i st s ∧ Owned s ∧ i ≤ s.ps.len ∧ i ≤ n := by
  induction reaches with
  | here n st => exact ⟨.refl n st, owned, hn, le_refl n⟩
  | @next n i st t s hrun hrest ih =>
    by_cases hzero : n = 0
    · subst hzero
      cases hrest with
      | here => exact absurd hpos (Nat.lt_irrefl 0)
    · obtain ⟨c, hc⟩ := owned.conn n (by omega) hn
      have hserves : Serves st n c := ⟨by omega, hn, hc⟩
      obtain ⟨hmoves, hlen⟩ :=
        handleEvent_moves (P := fun _ _ => True) lawful False.elim hn hrun
      have handled := handleEvent_done hserves rfl Iff.rfl hrun
      obtain ⟨hbelow, howned, hlen', hle⟩ :=
        ih hpos (owned.steps lawful framed hmoves.steps) (by omega)
      refine ⟨⟨fun j hj => ?_, fun j hj => ?_⟩, howned, hlen', Nat.le_succ_of_le hle⟩
      · exact (hbelow.conns j hj).trans (handled.below.conns j (by omega))
      · exact (hbelow.fds j hj).trans (handled.below.fds j (by omega))

/-- A connection that the loop handles is as `pserv_execute_conns` left it. -/
theorem handled_serves (lawful : Lawful actions) (framed : Framed actions) (owned : Owned st)
    {revents : Nat → Events}
    (reaches : Reaches actions a st.ps.len (storeRevents revents st) (i + 1) s)
    (serves : Serves s i c) :
    Serves st i c ∧ (s.ps.fds i).revents = revents i ∧ Owned s := by
  have howned : Owned (storeRevents revents st) := owned.idle rfl rfl rfl
  obtain ⟨hbelow, hs, -, hle⟩ :=
    reaches.unchanged lawful framed (Nat.succ_pos i) howned (le_refl _)
  have hconns := hbelow.conns i (Nat.lt_succ_self i)
  have hfds := hbelow.fds i (Nat.lt_succ_self i)
  exact ⟨⟨serves.1, hle, hconns ▸ serves.2.2⟩, congrArg PollFd.revents hfds, hs⟩

end Runs

end Polling
