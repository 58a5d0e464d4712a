import CSpecx.PollingRuns

/-!
# Closing the polling server

`pserv_close` frees the buffers and the structure of every connection. On a
server whose connections have both buffers it returns, and no block of a
connection is left.
-/

namespace Polling

open CExec Component Errors HeapBuffers

section Close

variable {actions : ConnActions} {st t : State} {i n : Nat} {c : Connection}

/-- The state of `pserv_close` before the connections from `i` on. -/
structure Closing (st : State) (i : Nat) (t : State) : Prop where
  conns : ∀ j, i ≤ j → t.ps.conns j = st.ps.conns j
  len : t.ps.len = st.ps.len
  opened : t.ps.opened = st.ps.opened
  live : ∀ b, b ∈ t.heap.live ↔
    b ∈ st.heap.live ∧ ∀ j c, j < i → Serves st j c → b ∉ c.blocks

/-- One connection: its blocks are freed, the others stay. -/
theorem closeConn_returns (lawful : Lawful actions) (owned : Owned st) (closing : Closing st i t)
    (serves : Serves st i c) (hrx : c.rxBuf.blocks ≠ []) (htx : c.txBuf.blocks ≠ [])
    (closed : Bool) :
    ∃ t', closeConn actions closed i t = .ok t' ∧ Closing st (i + 1) t' := by
  have hlive : ∀ b ∈ c.blocks, b ∈ t.heap.live := fun b hb =>
    (closing.live b).mpr ⟨owned.live i c serves b hb, fun j d hj hd hb' =>
      Nat.ne_of_lt hj (owned.apart j i d c b hd serves hb' hb)⟩
  have hnodup := owned.nodup i c serves
  obtain ⟨c', h, hfree, hid⟩ := freeBuffers_returns hrx htx hnodup hlive
  have hown : c'.id ∈ h.live :=
    (local_free hfree hnodup hlive).1.live c'.id List.mem_cons_self
  obtain ⟨h', hconn⟩ := lawful.free_ok h c'.id hown
  have hat : nonNull (t.ps.conns i) = .ok c :=
    nonNull_eq_ok.mpr ((closing.conns i (le_refl i)).trans serves.2.2)
  obtain ⟨s, hs⟩ : ∃ s, s = if closed then (t.setHeap h).setConn i c'
      else ((t.setHeap h).setConn i c').fail errIo ⟨"close: %s", []⟩ := ⟨_, rfl⟩
  have hkeep : s.ps = ((t.setHeap h).setConn i c').ps ∧ s.heap = h := by
    rw [hs]
    cases closed <;> exact ⟨rfl, rfl⟩
  refine ⟨s.setHeap h', ?_, fun j hj => ?_, ?_, ?_, fun b => ?_⟩
  · rw [← hkeep.2] at hconn
    simp only [closeConn, hat, ok_bind, hfree, ← hs, hconn]
  · show s.ps.conns j = _
    rw [hkeep.1]
    exact (Function.update_of_ne (by omega) _ _).trans (closing.conns j (by omega))
  · exact (congrArg PollingServer.len hkeep.1).trans closing.len
  · exact (congrArg PollingServer.opened hkeep.1).trans closing.opened
  · refine (live_drop lawful hfree (hid ▸ hconn)).trans ?_
    rw [closing.live b]
    constructor
    · rintro ⟨⟨hb, hbefore⟩, hmine⟩
      refine ⟨hb, fun j d hj hd => ?_⟩
      rcases Nat.eq_or_lt_of_le (Nat.le_of_lt_succ hj) with rfl | hearlier
      · obtain rfl := Option.some.inj (serves.2.2.symm.trans hd.2.2)
        exact hmine
      · exact hbefore j d hearlier hd
    · rintro ⟨hb, hbefore⟩
      exact ⟨⟨hb, fun j d hj hd => hbefore j d (by omega) hd⟩,
        hbefore i c (Nat.lt_succ_self i) serves⟩

theorem closeConns_returns (lawful : Lawful actions) (owned : Owned st)
    (whole : ∀ i c, Serves st i c → c.rxBuf.blocks ≠ [] ∧ c.txBuf.blocks ≠ [])
    (closing : Closing st i t) (hpos : 0 < i) (hlen : i + n ≤ st.ps.len) (closed : Nat → Bool) :
    ∃ t', closeConns actions closed n i t = .ok t' ∧ Closing st (i + n) t' := by
  induction n generalizing i t with
  | zero => exact ⟨t, rfl, closing⟩
  | succ n ih =>
    obtain ⟨c, hc⟩ := owned.conn i hpos (by omega)
    have hserves : Serves st i c := ⟨hpos, by omega, hc⟩
    obtain ⟨hrx, htx⟩ := whole i c hserves
    obtain ⟨s, hone, hs⟩ := closeConn_returns lawful owned closing hserves hrx htx (closed i)
    obtain ⟨t', hrest, ht'⟩ := ih hs (Nat.succ_pos i) (by omega)
    refine ⟨t', ?_, ?_⟩
    · simp only [closeConns, hone, ok_bind, hrest]
    · rw [show i + (n + 1) = i + 1 + n by omega]
      exact ht'

/-- A loop that returns has freed both buffers of every connection. -/
theorem closeConns_done {t' : State} {closed : Nat → Bool}
    (hrun : closeConns actions closed n i t = .ok t') {j : Nat} (hj : i ≤ j) (hlt : j < i + n)
    (hc : t.ps.conns j = some c) : c.rxBuf.blocks ≠ [] ∧ c.txBuf.blocks ≠ [] := by
  induction n generalizing i t with
  | zero => omega
  | succ n ih =>
    obtain ⟨s, hone, hrest⟩ := bind_eq_ok.mp hrun
    obtain ⟨d, hd, hone⟩ := bind_eq_ok.mp hone
    obtain ⟨⟨d', h⟩, hfree, hone⟩ := bind_eq_ok.mp hone
    rcases Nat.eq_or_lt_of_le hj with rfl | hlater
    · obtain rfl := Option.some.inj (hc.symm.trans (nonNull_eq_ok.mp hd))
      obtain ⟨rx, xs, tx, ys, hrx, htx, -⟩ := freeBuffers_cases hfree
      rw [hrx, htx]
      exact ⟨List.cons_ne_nil _ _, List.cons_ne_nil _ _⟩
    · refine ih hrest hlater (by omega) ?_
      obtain ⟨h', -, hone⟩ := bind_eq_ok.mp hone
      obtain rfl := Except.ok.inj hone
      have hother : Function.update t.ps.conns i (some d') j = some c :=
        (Function.update_of_ne (Nat.ne_of_gt hlater) _ _).trans hc
      cases closed i <;> exact hother

/-- `pserv_close` returns, and leaves no block of a connection, when every
connection has both buffers, and only then. -/
theorem pservClose_iff (lawful : Lawful actions) (owned : Owned st) (noLeak : NoLeak st)
    (hopened : st.ps.opened = true) (hlen : 0 < st.ps.len) (closed : Nat → Bool) :
    (∀ i c, Serves st i c → c.rxBuf.blocks ≠ [] ∧ c.txBuf.blocks ≠ []) ↔
      ∃ code st', pservClose actions closed st = .ok (code, st') ∧ st'.heap.live = ∅ := by
  constructor
  · intro whole
    have hstart : Closing st 1 st :=
      ⟨fun _ _ => rfl, rfl, rfl, fun b => ⟨fun hb => ⟨hb, fun j c hj hc => absurd hc.1 (by omega)⟩,
        fun h => h.1⟩⟩
    obtain ⟨t, hrun, closing⟩ := closeConns_returns lawful owned whole hstart Nat.one_pos
      (n := st.ps.len - 1) (by omega) closed
    have hempty : t.heap.live = ∅ := by
      refine Finset.eq_empty_of_forall_notMem fun b hb => ?_
      obtain ⟨hlive, hnone⟩ := (closing.live b).mp hb
      obtain ⟨j, c, hc, hmine⟩ := noLeak b hlive
      have hj := hc.2.1
      exact hnone j c (by omega) hc hmine
    have hopen : t.ps.opened = true := closing.opened.trans hopened
    simp only [pservClose, hrun, ok_bind]
    cases closed 0 with
    | false =>
      rw [if_neg Bool.false_ne_true, assert_pos (show (t.fail errIo _).ps.opened = true from hopen)]
      exact ⟨_, _, rfl, hempty⟩
    | true =>
      rw [if_pos rfl, assert_pos hopen]
      exact ⟨_, _, rfl, hempty⟩
  · rintro ⟨code, st', hrun, -⟩ i c hc
    obtain ⟨t, hconns, -⟩ := bind_eq_ok.mp hrun
    have hi := hc.2.1
    exact closeConns_done hconns hc.1 (by omega) hc.2.2

end Close

end Polling
