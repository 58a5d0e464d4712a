import CSpecx.PollingRuns

/-!
# The parallel arrays of the polling server

The poll array and the connection array stay aligned through every removal,
accept and growth. The live connections are those that were accepted and not
removed since.
-/

namespace Polling

open CExec Component Errors HeapBuffers

structure Aligned (st : State) : Prop where
  fds : ∀ i c, Serves st i c → (st.ps.fds i).fd = c.sock.fd
  len_le : st.ps.len ≤ st.ps.cap
  pos : 0 < st.ps.len

/-- `conn_func` leaves the structure and the socket of its connection in place. -/
def Steady (actions : ConnActions) : Prop :=
  ∀ grants h c e code h' c' e', actions.connFunc grants h c e = .ok (code, h', c', e') →
    c'.id = c.id ∧ c'.sock.fd = c.sock.fd

def Stored (st : State) (id : Nat) : Prop := ∃ i c, Serves st i c ∧ c.id = id

/-- The states of a run with the connections that were accepted and not removed since. -/
inductive Live (actions : ConnActions) (P : (Nat → Grant) → Connection → Prop) (closes : Prop)
    (st₀ : State) : State → Finset Nat → Prop where
  | start : Live actions P closes st₀ st₀ ∅
  | keep {st st' : State} {live : Finset Nat} : Live actions P closes st₀ st live →
      Step actions P closes st st' → st'.ps.len = st.ps.len → Live actions P closes st₀ st' live
  | remove {st st' : State} {live : Finset Nat} {i : Nat} {c c' : Connection} {h : Heap} :
      Live actions P closes st₀ st live → Serves st i c → freeBuffers c st.heap = .ok (c', h) →
      actions.connFree h c.id = .ok st'.heap →
      (∀ j < st.ps.len - 1,
        st'.ps.conns j = if j = i then st.ps.conns (st.ps.len - 1) else st.ps.conns j) →
      st'.ps.len = st.ps.len - 1 → Live actions P closes st₀ st' (live.erase c.id)
  | accept {st st' : State} {live : Finset Nat} {id : Nat} {fd : Int} :
      Live actions P closes st₀ st live → id ∉ st.heap.live →
      st'.heap.live = insert id st.heap.live →
      st'.ps.conns = Function.update st.ps.conns st.ps.len (some (.fresh id fd)) →
      st'.ps.len = st.ps.len + 1 → Live actions P closes st₀ st' (insert id live)

section Handlers

variable {c c' : Connection} {e e' : ErrorObject} {code : Int} {r : RecvResult} {s : SendResult}
  {h h' : Heap}

theorem handleRead_steady (hrun : handleRead r c e = .ok (code, c', e')) :
    c'.id = c.id ∧ c'.sock.fd = c.sock.fd := by
  obtain ⟨-, ⟨rfl, -⟩ | ⟨got, p, -, -, -, rfl, -⟩⟩ := handleRead_cases hrun
  · exact ⟨rfl, rfl⟩
  · exact ⟨rfl, rfl⟩

theorem handleWrite_steady (hrun : handleWrite s c e = .ok (c', e')) :
    c'.id = c.id ∧ c'.sock.fd = c.sock.fd := by
  obtain ⟨-, ⟨rfl, -⟩ | ⟨n, bytes, -, -, rfl, -⟩⟩ := handleWrite_cases hrun
  · exact ⟨rfl, rfl⟩
  · exact ⟨rfl, rfl⟩

theorem freeBuffers_steady (hrun : freeBuffers c h = .ok (c', h')) :
    c'.id = c.id ∧ c'.sock.fd = c.sock.fd := by
  obtain ⟨rx, xs, tx, ys, -, -, -, -, -, rfl⟩ := freeBuffers_cases hrun
  exact ⟨rfl, rfl⟩

end Handlers

section Alignment

variable {actions : ConnActions} {P : (Nat → Grant) → Connection → Prop} {closes : Prop}
  {st st' s : State} {i : Nat} {c c' : Connection}

/-- A connection is replaced by one on the same socket. -/
theorem Aligned.replace (aligned : Aligned st) (serves : Serves st i c)
    (hsock : c'.sock.fd = c.sock.fd)
    (hps : st'.ps = { st.ps with conns := Function.update st.ps.conns i (some c') }) :
    Aligned st' := by
  have hlen : st'.ps.len = st.ps.len := by rw [hps]
  have hfds : st'.ps.fds = st.ps.fds := by rw [hps]
  have hcap : st'.ps.cap = st.ps.cap := by rw [hps]
  refine ⟨fun j d hd => ?_, by rw [hlen, hcap]; exact aligned.len_le, hlen ▸ aligned.pos⟩
  rw [hfds]
  rcases serves_update (by rw [hps]) hlen hd with ⟨rfl, rfl⟩ | ⟨-, hold⟩
  · rw [hsock]
    exact aligned.fds j c serves
  · exact aligned.fds j d hold

/-- The last entry of both arrays takes the place of the one that is removed. -/
theorem Aligned.drop (aligned : Aligned st) (hpos : 0 < i) (hlen : i < st.ps.len)
    (hps : st'.ps = { st.ps with
      fds := Function.update st.ps.fds i (st.ps.fds (st.ps.len - 1))
      conns := Function.update st.ps.conns i (st.ps.conns (st.ps.len - 1))
      len := st.ps.len - 1 }) : Aligned st' := by
  have hfds : st'.ps.fds = Function.update st.ps.fds i (st.ps.fds (st.ps.len - 1)) := by rw [hps]
  have hconns : st'.ps.conns = Function.update st.ps.conns i (st.ps.conns (st.ps.len - 1)) := by
    rw [hps]
  have hshort : st'.ps.len = st.ps.len - 1 := by rw [hps]
  constructor
  · rintro j d ⟨hjpos, hjlt, hat⟩
    rw [hconns] at hat
    rw [hfds]
    by_cases hj : j = i
    · subst hj
      rw [Function.update_self] at hat ⊢
      exact aligned.fds (st.ps.len - 1) d ⟨by omega, Nat.sub_lt aligned.pos Nat.one_pos, hat⟩
    · rw [Function.update_of_ne hj] at hat ⊢
      exact aligned.fds j d ⟨hjpos, by omega, hat⟩
  · rw [hps]
    exact Nat.le_trans (Nat.sub_le _ _) aligned.len_le
  · rw [hps]
    show 0 < st.ps.len - 1
    omega

/-- The new connection and its descriptor go to the same index. -/
theorem Aligned.add {id cap : Nat} {fd : Int} (aligned : Aligned st) (hroom : st.ps.len < cap)
    (hps : st'.ps = { st.ps with
      fds := Function.update st.ps.fds st.ps.len ⟨fd, Events.none, Events.none⟩
      conns := Function.update st.ps.conns st.ps.len (some (.fresh id fd))
      len := st.ps.len + 1
      cap := cap }) : Aligned st' := by
  have hfds : st'.ps.fds =
      Function.update st.ps.fds st.ps.len ⟨fd, Events.none, Events.none⟩ := by rw [hps]
  have hconns : st'.ps.conns = Function.update st.ps.conns st.ps.len (some (.fresh id fd)) := by
    rw [hps]
  have hlen : st'.ps.len = st.ps.len + 1 := by rw [hps]
  constructor
  · intro j d hd
    rw [hfds]
    rcases serves_add hconns hlen hd with ⟨rfl, rfl⟩ | hold
    · rw [Function.update_self]
      rfl
    · rw [Function.update_of_ne (Nat.ne_of_lt hold.2.1)]
      exact aligned.fds j d hold
  · rw [hps]
    exact hroom
  · rw [hps]
    exact Nat.succ_pos _

theorem Aligned.move (steady : Steady actions) (aligned : Aligned st)
    (move : Move actions P closes st st') : Aligned st' := by
  cases move with
  | idle fds hps hfds _ =>
    refine ⟨fun i c hc => ?_, by rw [hps]; exact aligned.len_le, by rw [hps]; exact aligned.pos⟩
    have hold : Serves st i c := serves_idle (by rw [hps]) (by rw [hps]) hc
    rw [hps]
    exact (hfds i).trans (aligned.fds i c hold)
  | serve i c c' grants code e e' serves _ hrun hps =>
    exact aligned.replace serves (steady _ _ _ _ _ _ _ _ hrun).2 hps
  | read i c c' r code e e' serves hrun hps _ =>
    exact aligned.replace serves (handleRead_steady hrun).2 hps
  | write i c c' r e e' serves hrun hps _ =>
    exact aligned.replace serves (handleWrite_steady hrun).2 hps
  | free i c c' serves _ hrun hps => exact aligned.replace serves (freeBuffers_steady hrun).2 hps
  | drop i c c' h serves hfree _ hps =>
    have freed : Aligned (st.setConn i c') :=
      aligned.replace serves (freeBuffers_steady hfree).2 rfl
    exact freed.drop serves.1 serves.2.1 hps
  | add id fd cap _ _ hroom hps => exact aligned.add hroom hps

theorem Aligned.moves (steady : Steady actions) (aligned : Aligned st)
    (moves : Moves actions P closes st st') : Aligned st' := by
  induction moves with
  | refl => exact aligned
  | tail _ move ih => exact ih.move steady move

theorem Aligned.reached (lawful : Lawful actions) (steady : Steady actions) (aligned : Aligned st)
    (reached : Reached actions P closes st s) : Aligned s :=
  aligned.moves steady (reached.moves lawful)

theorem opened_aligned {fd : Int} {conns : Nat → Option Connection} {fds : Nat → PollFd}
    {h : Heap} {e : ErrorObject} : Aligned (opened fd conns fds h e) :=
  ⟨fun _ _ hc => absurd hc opened_serves, show 1 ≤ 101 by decide, Nat.one_pos⟩

end Alignment

section Members

variable {actions : ConnActions} {P : (Nat → Grant) → Connection → Prop} {closes : Prop}
  {st st₀ st' s : State} {live : Finset Nat} {id : Nat}

/-- A connection is replaced by one with the same structure. -/
theorem stored_update {i : Nat} {c c' : Connection} (serves : Serves st i c) (hid : c'.id = c.id)
    (hconns : st'.ps.conns = Function.update st.ps.conns i (some c'))
    (hlen : st'.ps.len = st.ps.len) : Stored st' id ↔ Stored st id := by
  constructor
  · rintro ⟨j, d, hd, rfl⟩
    rcases serves_update hconns hlen hd with ⟨-, rfl⟩ | ⟨-, hold⟩
    · exact ⟨i, c, serves, hid.symm⟩
    · exact ⟨j, d, hold, rfl⟩
  · rintro ⟨j, d, hd, rfl⟩
    by_cases hj : j = i
    · subst hj
      obtain rfl := Option.some.inj (hd.2.2.symm.trans serves.2.2)
      exact ⟨j, c', ⟨hd.1, hlen ▸ hd.2.1, by rw [hconns, Function.update_self]⟩, hid⟩
    · exact ⟨j, d, ⟨hd.1, hlen ▸ hd.2.1, by rw [hconns, Function.update_of_ne hj, hd.2.2]⟩, rfl⟩

/-- Only the connection that is dropped leaves the array. -/
theorem stored_drop {i : Nat} {c : Connection} (owned : Owned st) (serves : Serves st i c)
    (hconns : ∀ j < st.ps.len - 1,
      st'.ps.conns j = if j = i then st.ps.conns (st.ps.len - 1) else st.ps.conns j)
    (hlen : st'.ps.len = st.ps.len - 1) : Stored st' id ↔ id ≠ c.id ∧ Stored st id := by
  have hi := serves.1
  have hlt := serves.2.1
  constructor
  · rintro ⟨j, d, hd, rfl⟩
    obtain ⟨k, hk, hne, -⟩ := serves_drop hlt hconns hlen hd
    refine ⟨fun hsame => hne ?_, k, d, hk, rfl⟩
    exact owned.apart k i d c d.id hk serves List.mem_cons_self (hsame ▸ List.mem_cons_self)
  · rintro ⟨hother, j, d, hd, rfl⟩
    have hj : j ≠ i := by
      rintro rfl
      obtain rfl := Option.some.inj (hd.2.2.symm.trans serves.2.2)
      exact hother rfl
    have hjlt := hd.2.1
    by_cases hlast : j = st.ps.len - 1
    · have hmoved : st'.ps.conns i = some d := by
        rw [hconns i (by omega), if_pos rfl, ← hlast, hd.2.2]
      exact ⟨i, d, ⟨hi, by omega, hmoved⟩, rfl⟩
    · have hkept : st'.ps.conns j = some d := by
        rw [hconns j (by omega), if_neg hj, hd.2.2]
      exact ⟨j, d, ⟨hd.1, by omega, hkept⟩, rfl⟩

theorem stored_add {new : Nat} {fd : Int} (hpos : 0 < st.ps.len)
    (hconns : st'.ps.conns = Function.update st.ps.conns st.ps.len (some (.fresh new fd)))
    (hlen : st'.ps.len = st.ps.len + 1) : Stored st' id ↔ id = new ∨ Stored st id := by
  constructor
  · rintro ⟨j, d, hd, rfl⟩
    rcases serves_add hconns hlen hd with ⟨-, rfl⟩ | hold
    · exact .inl rfl
    · exact .inr ⟨j, d, hold, rfl⟩
  · rintro (rfl | ⟨j, d, hd, rfl⟩)
    · have hat : st'.ps.conns st.ps.len = some (.fresh id fd) := by
        rw [hconns, Function.update_self]
      exact ⟨st.ps.len, .fresh id fd, ⟨hpos, by omega, hat⟩, rfl⟩
    · have hjlt := hd.2.1
      have hat : st'.ps.conns j = some d := by
        rw [hconns, Function.update_of_ne (Nat.ne_of_lt hjlt), hd.2.2]
      exact ⟨j, d, ⟨hd.1, by omega, hat⟩, rfl⟩

theorem stored_keep (steady : Steady actions)
    (step : Step actions P closes st st') (hlen : st'.ps.len = st.ps.len) :
    Stored st' id ↔ Stored st id := by
  cases step with
  | idle hconns _ _ => simp only [Stored, Serves, hconns, hlen]
  | serve i c c' grants code e e' serves _ hrun hconns _ =>
    exact stored_update serves (steady _ _ _ _ _ _ _ _ hrun).1 hconns hlen
  | read i c c' r code e e' serves hrun hconns _ _ =>
    exact stored_update serves (handleRead_steady hrun).1 hconns hlen
  | write i c c' s e e' serves hrun hconns _ _ =>
    exact stored_update serves (handleWrite_steady hrun).1 hconns hlen
  | free i c c' serves _ hrun hconns _ =>
    exact stored_update serves (freeBuffers_steady hrun).1 hconns hlen
  | drop i c c' h serves _ _ _ hshort =>
    have hi := serves.1
    have hlt := serves.2.1
    omega
  | add new fd _ _ _ hlong => omega

/-- The array holds the connections that were accepted and not removed since. -/
theorem Live.stored (lawful : Lawful actions) (framed : Framed actions) (steady : Steady actions)
    (owned : Owned st₀) (hpos : 0 < st₀.ps.len) (hempty : ∀ id, ¬ Stored st₀ id)
    (hlive : Live actions P closes st₀ st live) :
    (Owned st ∧ 0 < st.ps.len) ∧ ∀ id, id ∈ live ↔ Stored st id := by
  induction hlive with
  | start => exact ⟨⟨owned, hpos⟩, fun id => iff_of_false (Finset.notMem_empty id) (hempty id)⟩
  | @keep s s' live _ step hlen ih =>
    obtain ⟨⟨howned, hlong⟩, hmem⟩ := ih
    refine ⟨⟨howned.step lawful framed step, hlen ▸ hlong⟩, fun id => ?_⟩
    rw [hmem, stored_keep steady step hlen]
  | @remove s s' live i c c' h _ serves hfree hrun hconns hlen ih =>
    obtain ⟨⟨howned, -⟩, hmem⟩ := ih
    have hi := serves.1
    have hlt := serves.2.1
    refine ⟨⟨howned.drop lawful serves hfree hrun hconns hlen, by omega⟩, fun id => ?_⟩
    rw [Finset.mem_erase, hmem, stored_drop howned serves hconns hlen]
  | @accept s s' live new fd _ hnew hheap hconns hlen ih =>
    obtain ⟨⟨howned, hlong⟩, hmem⟩ := ih
    refine ⟨⟨howned.add hnew hheap hconns hlen, by omega⟩, fun id => ?_⟩
    rw [Finset.mem_insert, hmem, stored_add hlong hconns hlen]

theorem Live.exists (steps : Steps actions P closes st₀ st) :
    ∃ live, Live actions P closes st₀ st live := by
  induction steps with
  | refl => exact ⟨∅, .start⟩
  | @tail s s' _ step ih =>
    obtain ⟨live, hlive⟩ := ih
    cases step with
    | idle hconns hlen hheap => exact ⟨live, .keep hlive (.idle hconns hlen hheap) hlen⟩
    | serve i c c' grants code e e' serves meets hrun hconns hlen =>
      exact ⟨live, .keep hlive
        (.serve i c c' grants code e e' serves meets hrun hconns hlen) hlen⟩
    | read i c c' r code e e' serves hrun hconns hlen hheap =>
      exact ⟨live, .keep hlive (.read i c c' r code e e' serves hrun hconns hlen hheap) hlen⟩
    | write i c c' r e e' serves hrun hconns hlen hheap =>
      exact ⟨live, .keep hlive (.write i c c' r e e' serves hrun hconns hlen hheap) hlen⟩
    | free i c c' serves fails hrun hconns hlen =>
      exact ⟨live, .keep hlive (.free i c c' serves fails hrun hconns hlen) hlen⟩
    | drop i c c' h serves hfree hrun hconns hlen =>
      exact ⟨_, .remove hlive serves hfree hrun hconns hlen⟩
    | add id fd hnew hheap hconns hlen => exact ⟨_, .accept hlive hnew hheap hconns hlen⟩

end Members

end Polling
