import CSpecx.EchoReplies
import CSpecx.PollingClose

/-!
# The buffers of the echo connections

As long as a connection gets one reply only, the live blocks are those of the
connections and their buffers. A connection that has both buffers can be
removed, and a server whose connections have both buffers can be closed.
-/

namespace EchoServer

open CExec Component Errors HeapBuffers Polling

/-- Allocations succeed, and a complete request finds no send buffer. -/
def FirstReply (grants : Nat → Grant) (c : Connection) : Prop :=
  (∀ k, (grants k).granted = true) ∧
    (Idle c → c.rxLen = c.rxCap → c.rxCap ≠ 4 → c.txBuf = .null)

/-- A receive buffer comes with its capacity. -/
def Placed (c : Connection) : Prop := c.rxCap = 0 → c.rxBuf = .null

section Ownership

variable {ctx : EchoContext} {actions : ConnActions} {P Q : (Nat → Grant) → Connection → Prop}
  {closes : Prop} {I : Connection → Prop} {st st' s : State} {fd : Int}
  {conns : Nat → Option Connection} {fds : Nat → PollFd} {h : Heap} {e : ErrorObject}

/-- The calls of a run meet the invariants of the run. -/
theorem steps_strengthen (keeps : Keeps actions P closes I) (all : AllServed I st)
    (steps : Steps actions P closes st st') :
    Steps actions (fun grants c => P grants c ∧ I c) closes st st' := by
  induction steps with
  | refl => exact .refl
  | @tail s s' hsteps step ih =>
    have hI : AllServed I s := keeps.steps hsteps all
    refine .tail ih ?_
    cases step with
    | idle hconns hlen hlive => exact .idle hconns hlen hlive
    | serve i c c' grants code e e' serves meets hrun hconns hlen =>
      exact .serve i c c' grants code e e' serves ⟨meets, hI i c serves⟩ hrun hconns hlen
    | read i c c' r code e e' serves hrun hconns hlen hheap =>
      exact .read i c c' r code e e' serves hrun hconns hlen hheap
    | write i c c' r e e' serves hrun hconns hlen hheap =>
      exact .write i c c' r e e' serves hrun hconns hlen hheap
    | free i c c' serves fails hrun hconns hlen =>
      exact .free i c c' serves fails hrun hconns hlen
    | drop i c c' h serves hfree hrun hconns hlen =>
      exact .drop i c c' h serves hfree hrun hconns hlen
    | add id fd hnew hlive hconns hlen => exact .add id fd hnew hlive hconns hlen

theorem placed_keeps (ctx : EchoContext) : Keeps (echoActions ctx) FirstReply True Placed where
  fresh _ _ _ := rfl
  serve grants h c e code h' c' e' placed first hrun := by
    intro hzero
    cases echoConnFunc_serving hrun with
    | created => exact absurd hzero (show ¬ 4 = 0 by decide)
    | createFailed _ _ denied => cases (first.1 0).symm.trans denied
    | finished => exact placed hzero
    | waiting => exact placed hzero
    | skipped => exact placed hzero
    | extended _ _ _ _ _ _ _ hpos => exact absurd hzero (Nat.ne_of_gt hpos)
    | extendFailed => exact placed hzero
    | replied => exact absurd hzero (show ¬ 4 = 0 by decide)
    | replyFailed => exact placed hzero
    | resetFailed => exact placed hzero
  read r c e code c' e' placed hrun := by
    intro hzero
    obtain ⟨hlt, ⟨rfl, -⟩ | ⟨got, p, -, -, -, rfl, -⟩⟩ := handleRead_cases hrun
    · exact placed hzero
    · have hzero : c.rxCap = 0 := hzero
      omega
  write r c e c' e' placed hrun := by
    intro hzero
    obtain ⟨-, ⟨rfl, -⟩ | ⟨n, bytes, -, -, rfl, -⟩⟩ := handleWrite_cases hrun
    · exact placed hzero
    · exact placed hzero
  free fails := absurd trivial fails

theorem echo_clean (ctx : EchoContext) :
    Clean (echoActions ctx) fun grants c => FirstReply grants c ∧ Placed c := by
  intro grants h c e code h' c' e' meets hrun _ _
  obtain ⟨⟨-, first⟩, placed⟩ := meets
  refine (echoConnFunc_serving hrun).tight (fun hrx _ => ?_) fun idle hlen hcap => ?_
  · rw [placed hrx]
    rfl
  · rw [first idle hlen hcap]
    rfl

/-- What a removal of a connection does to the heap. -/
theorem removeClient_iff (owned : Owned s) {i : Nat} {c : Connection} (serves : Serves s i c) :
    (c.rxBuf.blocks ≠ [] ∧ c.txBuf.blocks ≠ []) ↔
      ∃ s', removeClient (echoActions ctx) true i s = .ok (success, s') ∧
        ∀ b, b ∈ s'.heap.live ↔ b ∈ s.heap.live ∧ b ∉ c.blocks := by
  constructor
  · rintro ⟨hrx, htx⟩
    obtain ⟨c', h', hfree, hid⟩ := freeBuffers_returns hrx htx (owned.nodup i c serves)
      (owned.live i c serves)
    have hstep := (local_free hfree (owned.nodup i c serves) (owned.live i c serves)).1
    obtain ⟨h'', hconn⟩ :=
      (echo_lawful ctx).free_ok h' c'.id (hstep.live c'.id List.mem_cons_self)
    have hat : nonNull (s.ps.conns i) = .ok c := nonNull_eq_ok.mpr serves.2.2
    have hlive : ∀ b, b ∈ h''.live ↔ b ∈ s.heap.live ∧ b ∉ c.blocks := fun b =>
      live_drop (echo_lawful ctx) hfree (hid ▸ hconn)
    simp only [removeClient, hat, hfree, ok_bind, Bool.true_eq_false, if_false, State.setConn,
      State.setHeap, hconn]
    exact ⟨_, rfl, hlive⟩
  · rintro ⟨s', hrun, -⟩
    exact (removeClient_done serves hrun).1

theorem reached_owned (hempty : h.live = ∅)
    (reached : Reached (echoActions ctx) FirstReply True (opened fd conns fds h e) s) :
    Owned s ∧ NoLeak s ∧ 0 < s.ps.len := by
  have lawful := echo_lawful ctx
  have framed := echo_framed ctx
  have hplaced : AllServed Placed (opened fd conns fds h e) := fun _ _ hc => absurd hc opened_serves
  have hleak : NoLeak (opened fd conns fds h e) := by
    intro b hb
    rw [show (opened fd conns fds h e).heap.live = ∅ from hempty] at hb
    exact absurd hb (Finset.notMem_empty b)
  have hsteps := steps_strengthen (placed_keeps ctx) hplaced (reached.steps lawful)
  obtain ⟨noLeak, hlen⟩ := NoLeak.steps lawful framed
    (echo_clean ctx) hsteps opened_owned Nat.one_pos
    hleak
  exact ⟨opened_owned.steps lawful framed hsteps, noLeak, hlen⟩

/-- In every state of a run with one reply for each connection, the live blocks
are those of the connections. A removal returns, and frees the blocks of its
connection, when both buffers are there and only then; so does `pserv_close` for
all connections. -/
theorem buffers_released (hempty : h.live = ∅) :
    (∀ s, Reached (echoActions ctx) FirstReply True (opened fd conns fds h e) s →
      Owned s ∧ NoLeak s ∧
        ∀ i c, Serves s i c → ((c.rxBuf.blocks ≠ [] ∧ c.txBuf.blocks ≠ []) ↔
          ∃ s', removeClient (echoActions ctx) true i s = .ok (success, s') ∧
            ∀ b, b ∈ s'.heap.live ↔ b ∈ s.heap.live ∧ b ∉ c.blocks)) ∧
      ∀ tr st, Trace (server (echoActions ctx) FirstReply True) (opened fd conns fds h e) tr st →
        ∀ closed, ((∀ i c, Serves st i c → c.rxBuf.blocks ≠ [] ∧ c.txBuf.blocks ≠ []) ↔
          ∃ code st', pservClose (echoActions ctx) closed st = .ok (code, st') ∧
            st'.heap.live = ∅) := by
  refine ⟨fun s reached => ?_, fun tr st run closed => ?_⟩
  · obtain ⟨owned, noLeak, -⟩ := reached_owned hempty reached
    exact ⟨owned, noLeak, fun i c serves => removeClient_iff owned serves⟩
  · obtain ⟨owned, noLeak, hlen⟩ := reached_owned hempty (.ended run)
    have hopened : st.ps.opened = true := (server_moves (echo_lawful ctx) run).opened
    exact pservClose_iff (echo_lawful ctx) owned noLeak hopened hlen closed

/-- After the first reply both buffers are there: the connection can be removed, and the
server closed, and both release them. -/
theorem buffers_released_replied :
    ∃ st c, Reached (echoActions ⟨[], []⟩) FirstReply True started st ∧ Serves st 1 c ∧
      c.blocks.length = 3 ∧ c.sock.written = [0, 0, 0, 1, 97] ∧ Owned st ∧ NoLeak st ∧
      (∃ s', removeClient (echoActions ⟨[], []⟩) true 1 st = .ok (success, s') ∧
        ∀ b, b ∈ s'.heap.live ↔ b ∈ st.heap.live ∧ b ∉ c.blocks) ∧
      ∃ code st', pservClose (echoActions ⟨[], []⟩) (fun _ => true) st = .ok (code, st') ∧
        st'.heap.live = ∅ := by
  obtain ⟨as, has⟩ : ∃ as, as = [connects, sends [0, 0, 0, 1], sends [97], takes 5] := ⟨_, rfl⟩
  obtain ⟨ok, hok⟩ : ∃ ok : Connection → Bool, ok = fun c =>
      decide (c.txBuf = .null) || decide (c.rxCap = 4) := ⟨_, rfl⟩
  obtain ⟨st, hrun, hlen, hconn⟩ : ∃ st, callsWhile ⟨[], []⟩ ok as started = .ok st ∧
      st.ps.len = 2 ∧ (st.ps.conns 1).map (fun c => (c.rxBuf.blocks.length, c.txBuf.blocks.length,
        c.blocks.length, c.sock.written)) = some (1, 1, 3, [0, 0, 0, 1, 97]) := by
    subst hok has
    exact ⟨_, rfl, rfl, rfl⟩
  obtain ⟨c, hc, hfields⟩ := Option.map_eq_some_iff.mp hconn
  simp only [Prod.mk.injEq] at hfields
  obtain ⟨hrx, htx, hblocks, hwritten⟩ := hfields
  have meets : ∀ a ∈ as, ∀ i c, ok c = true → FirstReply (a.grants i) c := by
    intro a ha i c hc
    have granted : ∀ k, (a.grants i k).granted = true := by
      subst has
      revert a
      simp [connects, sends, takes]
    rw [hok, Bool.or_eq_true, decide_eq_true_iff, decide_eq_true_iff] at hc
    exact ⟨granted, fun _ _ hbody => hc.resolve_right hbody⟩
  have closed : ∀ a ∈ as, ∀ i, a.closed i = true := by
    subst has
    simp [connects, sends, takes]
  obtain ⟨⟨tr, run⟩, -⟩ := callsWhile_run meets closed hrun
  obtain ⟨hreached, hclose⟩ := @buffers_released ⟨[], []⟩ 3 (fun _ => none)
    (fun _ => ⟨0, Events.none, Events.none⟩) emptyHeap errorCreate rfl
  have serves : Serves st 1 c := ⟨Nat.one_pos, by omega, hc⟩
  have hrx : c.rxBuf.blocks ≠ [] := List.ne_nil_of_length_eq_add_one hrx
  have htx : c.txBuf.blocks ≠ [] := List.ne_nil_of_length_eq_add_one htx
  obtain ⟨owned, noLeak, hremove⟩ := hreached st (.ended run)
  refine ⟨st, c, .ended run, serves, hblocks, hwritten, owned, noLeak,
    (hremove 1 c serves).mp ⟨hrx, htx⟩, (hclose tr st run fun _ => true).mp fun i d hd => ?_⟩
  obtain rfl : i = 1 := by
    have hpos := hd.1
    have hlt := hd.2.1
    omega
  obtain rfl : c = d := Option.some.inj (hc.symm.trans hd.2.2)
  exact ⟨hrx, htx⟩

/-- The first client hangs up. -/
def hangsUp : Answers where
  grants _ _ := ⟨true, fun _ => 0⟩
  poll := .ready fun i => if i = 1 then { Events.none with pollhup := true } else Events.none
  recv _ := .failed
  send _ := .failed
  closed _ := true
  accept := ⟨⟨true, fun _ => 0⟩, none, true, true, true⟩

/-- A client that leaves before its first request has no send buffer to free,
and after a second reply the first send buffer is lost. -/
theorem buffers_mishandled :
    (∃ tr st, Trace (server (echoActions ⟨[], []⟩) (fun grants _ => ∀ k, (grants k).granted = true)
        True) started tr st ∧
      pservExecute (echoActions ⟨[], []⟩) hangsUp st = .error .assertion) ∧
      ∃ tr st, Trace (server (echoActions ⟨[], []⟩) (fun grants _ => ∀ k, (grants k).granted = true)
        True) started tr st ∧ ¬ NoLeak st := by
  constructor
  · exact ⟨[((errorCreate, connects), _), ((errorCreate, sends [0, 0]), _)], _,
      .cons ⟨fun _ _ _ _ => rfl, fun _ _ => rfl⟩ rfl
        (.cons ⟨fun _ _ _ _ => rfl, fun _ _ => rfl⟩ rfl (.nil _)), rfl⟩
  · obtain ⟨tr, st, run, hlen, hblocks, hlive⟩ : ∃ tr st,
        Trace (server (echoActions ⟨[], []⟩) (fun grants _ => ∀ k, (grants k).granted = true) True)
          started tr st ∧
        st.ps.len = 2 ∧ (st.ps.conns 1).map Connection.blocks = some [0, 7, 6] ∧ 3 ∈ st.heap.live :=
      ⟨[((errorCreate, connects), _), ((errorCreate, sends [0, 0, 0, 1]), _),
        ((errorCreate, sends [97]), _), ((errorCreate, takes 5), _),
        ((errorCreate, sends [0, 0, 0, 1]), _), ((errorCreate, sends [98]), _),
        ((errorCreate, takes 5), _)], _,
        .cons ⟨fun _ _ _ _ => rfl, fun _ _ => rfl⟩ rfl
          (.cons ⟨fun _ _ _ _ => rfl, fun _ _ => rfl⟩ rfl
            (.cons ⟨fun _ _ _ _ => rfl, fun _ _ => rfl⟩ rfl
              (.cons ⟨fun _ _ _ _ => rfl, fun _ _ => rfl⟩ rfl
                (.cons ⟨fun _ _ _ _ => rfl, fun _ _ => rfl⟩ rfl
                  (.cons ⟨fun _ _ _ _ => rfl, fun _ _ => rfl⟩ rfl
                    (.cons ⟨fun _ _ _ _ => rfl, fun _ _ => rfl⟩ rfl (.nil _))))))),
        rfl, rfl, by decide⟩
    refine ⟨tr, st, run, fun noLeak => ?_⟩
    obtain ⟨i, c, ⟨hpos, hlt, hat⟩, hmine⟩ := noLeak 3 hlive
    obtain rfl : i = 1 := by omega
    rw [hat, Option.map_some] at hblocks
    rw [Option.some.inj hblocks] at hmine
    exact absurd hmine (by decide)

end Ownership

end EchoServer
