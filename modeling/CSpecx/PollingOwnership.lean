import CSpecx.PollingSteps

/-!
# Who owns the blocks of the heap

The connections of a server own pairwise disjoint live blocks. A call of
`conn_func` that stays within the blocks of its connection keeps that; when it
also leaves no block behind, every live block has an owner.
-/

namespace Polling

open CExec Errors HeapBuffers

structure Owned (st : State) : Prop where
  conn : ∀ i, 0 < i → i < st.ps.len → ∃ c, st.ps.conns i = some c
  live : ∀ i c, Serves st i c → ∀ b ∈ c.blocks, b ∈ st.heap.live
  nodup : ∀ i c, Serves st i c → c.blocks.Nodup
  apart : ∀ i j c d b, Serves st i c → Serves st j d → b ∈ c.blocks → b ∈ d.blocks → i = j

/-- No live block is lost. -/
def NoLeak (st : State) : Prop := ∀ b ∈ st.heap.live, ∃ i c, Serves st i c ∧ b ∈ c.blocks

/-- A connection before and after a call that stays within its blocks. -/
structure Local (h : Heap) (c : Connection) (h' : Heap) (c' : Connection) : Prop where
  nodup : c'.blocks.Nodup
  live : ∀ b ∈ c'.blocks, b ∈ h'.live
  new : ∀ b ∈ c'.blocks, b ∈ c.blocks ∨ b ∉ h.live
  keep : ∀ b ∈ h.live, b ∉ c.blocks → b ∈ h'.live

/-- Every block that is live afterwards was live before or is the connection's. -/
def Tight (h : Heap) (c : Connection) (h' : Heap) (c' : Connection) : Prop :=
  ∀ b ∈ h'.live, b ∈ c'.blocks ∨ (b ∈ h.live ∧ b ∉ c.blocks)

def Framed (actions : ConnActions) : Prop :=
  ∀ grants h c e code h' c' e', actions.connFunc grants h c e = .ok (code, h', c', e') →
    c.blocks.Nodup → (∀ b ∈ c.blocks, b ∈ h.live) → Local h c h' c'

section Handlers

variable {c c' : Connection} {h h' : Heap} {e e' : ErrorObject} {code : Int} {r : RecvResult}
  {s : SendResult}

theorem store_blocks {p q : Ptr} {o : Nat} {xs : List UInt8} (hrun : p.store o xs = .ok q) :
    q.blocks = p.blocks := by
  cases p with
  | null => cases hrun
  | dangling => cases hrun
  | block id bytes =>
    obtain ⟨-, -, hrun⟩ := bind_eq_ok.mp hrun
    obtain rfl := Except.ok.inj hrun
    rfl

theorem handleRead_blocks (hrun : handleRead r c e = .ok (code, c', e')) :
    c'.blocks = c.blocks := by
  obtain ⟨-, ⟨rfl, -⟩ | ⟨got, p, -, -, hstore, rfl, -⟩⟩ := handleRead_cases hrun
  · rfl
  · show c.id :: (p.blocks ++ c.txBuf.blocks) = c.blocks
    rw [store_blocks hstore]
    rfl

theorem handleWrite_blocks (hrun : handleWrite s c e = .ok (c', e')) : c'.blocks = c.blocks := by
  obtain ⟨-, ⟨rfl, -⟩ | ⟨n, bytes, -, -, rfl, -⟩⟩ := handleWrite_cases hrun
  · rfl
  · rfl

end Handlers

section Ownership

variable {actions : ConnActions} {P : (Nat → Grant) → Connection → Prop} {closes : Prop}
  {st st' : State}
  {i : Nat} {c c' : Connection}

/-- A change of one connection within its blocks. -/
theorem Owned.update (owned : Owned st) (serves : Serves st i c)
    (step : Local st.heap c st'.heap c')
    (hconns : st'.ps.conns = Function.update st.ps.conns i (some c'))
    (hlen : st'.ps.len = st.ps.len) : Owned st' := by
  have hother : ∀ j d, j ≠ i → Serves st j d → ∀ b ∈ d.blocks, b ∉ c.blocks :=
    fun j d hj hd b hb hc =>
    hj (owned.apart j i d c b hd serves hb hc)
  refine ⟨fun j hpos hlt => ?_, fun j d hd b hb => ?_, fun j d hd => ?_,
    fun j k d f b hd hf hbd hbf => ?_⟩
  · by_cases hj : j = i
    · subst hj
      exact ⟨c', by rw [hconns, Function.update_self]⟩
    · rw [hconns, Function.update_of_ne hj]
      exact owned.conn j hpos (hlen ▸ hlt)
  · rcases serves_update hconns hlen hd with ⟨-, rfl⟩ | ⟨hj, hold⟩
    · exact step.live b hb
    · exact step.keep b (owned.live j d hold b hb) (hother j d hj hold b hb)
  · rcases serves_update hconns hlen hd with ⟨-, rfl⟩ | ⟨-, hold⟩
    · exact step.nodup
    · exact owned.nodup j d hold
  · rcases serves_update hconns hlen hd with ⟨rfl, rfl⟩ | ⟨hj, holdd⟩
    · rcases serves_update hconns hlen hf with ⟨rfl, -⟩ | ⟨hk, holdf⟩
      · rfl
      · rcases step.new b hbd with hmine | hfresh
        · exact absurd hmine (hother k f hk holdf b hbf)
        · exact absurd (owned.live k f holdf b hbf) hfresh
    · rcases serves_update hconns hlen hf with ⟨rfl, rfl⟩ | ⟨hk, holdf⟩
      · rcases step.new b hbf with hmine | hfresh
        · exact absurd hmine (hother j d hj holdd b hbd)
        · exact absurd (owned.live j d holdd b hbd) hfresh
      · exact owned.apart j k d f b holdd holdf hbd hbf

/-- A step that keeps the heap and the blocks of the connection. -/
theorem local_same (owned : Owned st) (serves : Serves st i c) (hblocks : c'.blocks = c.blocks)
    (hheap : st'.heap = st.heap) : Local st.heap c st'.heap c' := by
  refine ⟨hblocks ▸ owned.nodup i c serves, fun b hb => ?_, fun b hb => .inl (hblocks ▸ hb),
    fun b hb _ => hheap ▸ hb⟩
  rw [hheap]
  exact owned.live i c serves b (hblocks ▸ hb)

theorem local_free {h h' : Heap} (hrun : freeBuffers c h = .ok (c', h')) (hnodup : c.blocks.Nodup)
    (hlive : ∀ b ∈ c.blocks, b ∈ h.live) :
    Local h c h' c' ∧ Tight h c h' c' ∧ c'.blocks = [c.id] := by
  obtain ⟨rx, rxBytes, tx, txBytes, hrx, htx, -, -, rfl, rfl⟩ := freeBuffers_cases hrun
  have hblocks : c.blocks = [c.id, rx, tx] := by simp [Connection.blocks, hrx, htx]
  have hblocks' : Connection.blocks { c with rxBuf := .dangling, txBuf := .dangling } = [c.id] :=
    rfl
  rw [hblocks] at hnodup hlive
  have hid := hlive c.id (by simp)
  simp only [List.nodup_cons, List.mem_cons, List.not_mem_nil, or_false, not_or] at hnodup
  refine ⟨⟨by simp [hblocks'], fun b hb => ?_, fun b hb => .inl ?_, fun b hb hnot => ?_⟩,
    fun b hb => ?_, hblocks'⟩
  · rw [hblocks', List.mem_singleton] at hb
    rw [hb]
    simp [hid, hnodup.1.1, hnodup.1.2]
  · rw [hblocks', List.mem_singleton] at hb
    simp [hblocks, hb]
  · rw [hblocks] at hnot
    simp only [List.mem_cons, List.not_mem_nil, or_false, not_or] at hnot
    simp [hb, hnot.2.1, hnot.2.2]
  · simp only [Heap.mem_free] at hb
    rw [hblocks', hblocks]
    by_cases hb' : b = c.id
    · exact .inl (by simp [hb'])
    · exact .inr ⟨hb.2.2, by simp [hb', hb.1, hb.2.1]⟩

/-- What is left of the blocks when a connection and its structure are freed. -/
theorem live_drop (lawful : Lawful actions) {h h' h'' : Heap}
    (hfree : freeBuffers c h = .ok (c', h')) (hrun : actions.connFree h' c.id = .ok h'') {b : Nat} :
    b ∈ h''.live ↔ b ∈ h.live ∧ b ∉ c.blocks := by
  obtain ⟨rx, rxBytes, tx, txBytes, hrx, htx, -, -, rfl, -⟩ := freeBuffers_cases hfree
  have hblocks : c.blocks = [c.id, rx, tx] := by simp [Connection.blocks, hrx, htx]
  rw [lawful.free _ _ _ hrun, Finset.mem_erase, Heap.mem_free, Heap.mem_free, hblocks]
  simp only [List.mem_cons, List.not_mem_nil, or_false, not_or]
  constructor
  · rintro ⟨hid, htx, hrx, hlive⟩
    exact ⟨hlive, hid, hrx, htx⟩
  · rintro ⟨hlive, hid, hrx, htx⟩
    exact ⟨hid, htx, hrx, hlive⟩

/-- The blocks of a connection that is dropped are no other connection's. -/
theorem Owned.drop (lawful : Lawful actions) (owned : Owned st) (serves : Serves st i c)
    {h : Heap} (hfree : freeBuffers c st.heap = .ok (c', h))
    (hrun : actions.connFree h c.id = .ok st'.heap)
    (hconns : ∀ j < st.ps.len - 1,
      st'.ps.conns j = if j = i then st.ps.conns (st.ps.len - 1) else st.ps.conns j)
    (hlen : st'.ps.len = st.ps.len - 1) : Owned st' := by
  have hi := serves.2.1
  refine ⟨fun j hpos hlt => ?_, fun j d hd b hb => ?_, fun j d hd => ?_,
    fun j k d f b hd hf hbd hbf => ?_⟩
  · rw [hconns j (hlen ▸ hlt)]
    by_cases hj : j = i
    · rw [if_pos hj]
      exact owned.conn _ (by omega) (by omega)
    · rw [if_neg hj]
      exact owned.conn j hpos (by omega)
  · obtain ⟨k, hk, hne, -⟩ := serves_drop hi hconns hlen hd
    refine (live_drop lawful hfree hrun).mpr ⟨owned.live k d hk b hb, fun hmine => ?_⟩
    exact hne (owned.apart k i d c b hk serves hb hmine)
  · obtain ⟨k, hk, -, -⟩ := serves_drop hi hconns hlen hd
    exact owned.nodup k d hk
  · obtain ⟨j', hj', -, hjeq⟩ := serves_drop hi hconns hlen hd
    obtain ⟨k', hk', -, hkeq⟩ := serves_drop hi hconns hlen hf
    have hsame := owned.apart j' k' d f b hj' hk' hbd hbf
    have hjlt := hd.2.1
    have hklt := hf.2.1
    split at hjeq <;> split at hkeq <;> omega

theorem Owned.add (owned : Owned st) {id : Nat} {fd : Int} (hnew : id ∉ st.heap.live)
    (hlive : st'.heap.live = insert id st.heap.live)
    (hconns : st'.ps.conns = Function.update st.ps.conns st.ps.len (some (.fresh id fd)))
    (hlen : st'.ps.len = st.ps.len + 1) : Owned st' := by
  have hblocks : (Connection.fresh id fd).blocks = [id] := rfl
  have hold : ∀ j d, Serves st j d → id ∉ d.blocks := fun j d hd hid =>
    hnew (owned.live j d hd id hid)
  refine ⟨fun j hpos hlt => ?_, fun j d hd b hb => ?_, fun j d hd => ?_,
    fun j k d f b hd hf hbd hbf => ?_⟩
  · rw [hconns]
    by_cases hj : j = st.ps.len
    · subst hj
      exact ⟨_, Function.update_self _ _ _⟩
    · rw [Function.update_of_ne hj]
      exact owned.conn j hpos (by omega)
  · rw [hlive]
    rcases serves_add hconns hlen hd with ⟨-, rfl⟩ | hserves
    · rw [hblocks, List.mem_singleton] at hb
      exact hb ▸ Finset.mem_insert_self _ _
    · exact Finset.mem_insert_of_mem (owned.live j d hserves b hb)
  · rcases serves_add hconns hlen hd with ⟨-, rfl⟩ | hserves
    · simp [hblocks]
    · exact owned.nodup j d hserves
  · rcases serves_add hconns hlen hd with ⟨hj, rfl⟩ | hdold
    · rcases serves_add hconns hlen hf with ⟨hk, -⟩ | hfold
      · omega
      · rw [hblocks, List.mem_singleton] at hbd
        exact absurd (hbd ▸ hbf) (hold k f hfold)
    · rcases serves_add hconns hlen hf with ⟨-, rfl⟩ | hfold
      · rw [hblocks, List.mem_singleton] at hbf
        exact absurd (hbf ▸ hbd) (hold j d hdold)
      · exact owned.apart j k d f b hdold hfold hbd hbf

theorem Owned.idle (owned : Owned st) (hconns : st'.ps.conns = st.ps.conns)
    (hlen : st'.ps.len = st.ps.len) (hlive : st'.heap.live = st.heap.live) : Owned st' := by
  refine ⟨fun j hpos hlt => ?_, fun j d hd b hb => ?_, fun j d hd => ?_,
    fun j k d f b hd hf hbd hbf => ?_⟩
  · rw [hconns]
    exact owned.conn j hpos (hlen ▸ hlt)
  · rw [hlive]
    exact owned.live j d (serves_idle hconns hlen hd) b hb
  · exact owned.nodup j d (serves_idle hconns hlen hd)
  · exact owned.apart j k d f b (serves_idle hconns hlen hd) (serves_idle hconns hlen hf) hbd hbf

theorem Owned.step (lawful : Lawful actions) (framed : Framed actions) (owned : Owned st)
    (step : Step actions P closes st st') : Owned st' := by
  cases step with
  | idle hconns hlen hlive => exact owned.idle hconns hlen hlive
  | serve i c c' grants code e e' serves _ hrun hconns hlen =>
    exact owned.update serves
      (framed _ _ _ _ _ _ _ _ hrun (owned.nodup i c serves) (owned.live i c serves)) hconns hlen
  | read i c c' r code e e' serves hrun hconns hlen hheap =>
    exact owned.update serves (local_same owned serves (handleRead_blocks hrun) hheap) hconns hlen
  | write i c c' s e e' serves hrun hconns hlen hheap =>
    exact owned.update serves (local_same owned serves (handleWrite_blocks hrun) hheap) hconns hlen
  | free i c c' serves _ hrun hconns hlen =>
    exact owned.update serves
      (local_free hrun (owned.nodup i c serves) (owned.live i c serves)).1 hconns hlen
  | drop i c c' h serves hfree hrun hconns hlen =>
    exact owned.drop lawful serves hfree hrun hconns hlen
  | add id fd hnew hlive hconns hlen => exact owned.add hnew hlive hconns hlen

theorem Owned.steps (lawful : Lawful actions) (framed : Framed actions)
    (steps : Steps actions P closes st st') (owned : Owned st) : Owned st' := by
  induction steps with
  | refl => exact owned
  | tail _ step ih => exact ih.step lawful framed step

end Ownership

section Leaks

variable {actions : ConnActions} {P : (Nat → Grant) → Connection → Prop} {closes : Prop}
  {st st' : State}
  {i : Nat} {c c' : Connection}

/-- The calls that meet `P` leave no block behind. -/
def Clean (actions : ConnActions) (P : (Nat → Grant) → Connection → Prop) : Prop :=
  ∀ grants h c e code h' c' e', P grants c →
    actions.connFunc grants h c e = .ok (code, h', c', e') →
    c.blocks.Nodup → (∀ b ∈ c.blocks, b ∈ h.live) → Tight h c h' c'

theorem NoLeak.update (noLeak : NoLeak st) (serves : Serves st i c)
    (tight : Tight st.heap c st'.heap c')
    (hconns : st'.ps.conns = Function.update st.ps.conns i (some c'))
    (hlen : st'.ps.len = st.ps.len) : NoLeak st' := by
  intro b hb
  rcases tight b hb with hmine | ⟨hlive, hnot⟩
  · exact ⟨i, c', ⟨serves.1, hlen ▸ serves.2.1, by rw [hconns, Function.update_self]⟩, hmine⟩
  · obtain ⟨j, d, ⟨hpos, hlt, hat⟩, hd⟩ := noLeak b hlive
    have hj : j ≠ i := by
      rintro rfl
      obtain rfl := Option.some.inj (hat.symm.trans serves.2.2)
      exact hnot hd
    exact ⟨j, d, ⟨hpos, hlen ▸ hlt, by rw [hconns, Function.update_of_ne hj, hat]⟩, hd⟩

theorem NoLeak.drop (lawful : Lawful actions) (noLeak : NoLeak st) (serves : Serves st i c)
    {h : Heap} (hfree : freeBuffers c st.heap = .ok (c', h))
    (hrun : actions.connFree h c.id = .ok st'.heap)
    (hconns : ∀ j < st.ps.len - 1,
      st'.ps.conns j = if j = i then st.ps.conns (st.ps.len - 1) else st.ps.conns j)
    (hlen : st'.ps.len = st.ps.len - 1) : NoLeak st' := by
  intro b hb
  obtain ⟨hlive, hnot⟩ := (live_drop lawful hfree hrun).mp hb
  obtain ⟨j, d, ⟨hpos, hlt, hat⟩, hd⟩ := noLeak b hlive
  have hj : j ≠ i := by
    rintro rfl
    obtain rfl := Option.some.inj (hat.symm.trans serves.2.2)
    exact hnot hd
  have hi := serves.2.1
  by_cases hlast : j = st.ps.len - 1
  · have hmoved : st'.ps.conns i = some d := by
      rw [hconns i (by omega), if_pos rfl, ← hlast, hat]
    exact ⟨i, d, ⟨serves.1, by omega, hmoved⟩, hd⟩
  · have hkept : st'.ps.conns j = some d := by
      rw [hconns j (by omega), if_neg hj, hat]
    exact ⟨j, d, ⟨hpos, by omega, hkept⟩, hd⟩

theorem NoLeak.add (noLeak : NoLeak st) {id : Nat} {fd : Int} (hpos : 0 < st.ps.len)
    (hlive : st'.heap.live = insert id st.heap.live)
    (hconns : st'.ps.conns = Function.update st.ps.conns st.ps.len (some (.fresh id fd)))
    (hlen : st'.ps.len = st.ps.len + 1) : NoLeak st' := by
  intro b hb
  rw [hlive, Finset.mem_insert] at hb
  rcases hb with rfl | hb
  · have hat : st'.ps.conns st.ps.len = some (.fresh b fd) := by
      rw [hconns, Function.update_self]
    exact ⟨st.ps.len, _, ⟨hpos, by omega, hat⟩, List.mem_cons_self⟩
  · obtain ⟨j, d, ⟨hjpos, hlt, hat⟩, hd⟩ := noLeak b hb
    have hkept : st'.ps.conns j = some d := by
      rw [hconns, Function.update_of_ne (by omega), hat]
    exact ⟨j, d, ⟨hjpos, by omega, hkept⟩, hd⟩

/-- Every live block keeps an owner, and the listening socket its index. -/
theorem NoLeak.step (lawful : Lawful actions) (clean : Clean actions P) (owned : Owned st)
    (hpos : 0 < st.ps.len) (noLeak : NoLeak st) (step : Step actions P closes st st') :
    NoLeak st' ∧ 0 < st'.ps.len := by
  have tight_same : ∀ {i c c'}, Serves st i c → c'.blocks = c.blocks → st'.heap = st.heap →
      Tight st.heap c st'.heap c' := by
    intro i c c' serves hblocks hheap b hb
    by_cases hmine : b ∈ c.blocks
    · exact .inl (hblocks ▸ hmine)
    · exact .inr ⟨hheap ▸ hb, hmine⟩
  cases step with
  | idle hconns hlen hlive =>
    refine ⟨fun b hb => ?_, hlen ▸ hpos⟩
    obtain ⟨j, d, ⟨hjpos, hlt, hat⟩, hd⟩ := noLeak b (hlive ▸ hb)
    exact ⟨j, d, ⟨hjpos, hlen ▸ hlt, hconns ▸ hat⟩, hd⟩
  | serve i c c' grants code e e' serves meets hrun hconns hlen =>
    exact ⟨noLeak.update serves (clean _ _ _ _ _ _ _ _ meets hrun (owned.nodup i c serves)
      (owned.live i c serves)) hconns hlen, hlen ▸ hpos⟩
  | read i c c' r code e e' serves hrun hconns hlen hheap =>
    exact ⟨noLeak.update serves (tight_same serves (handleRead_blocks hrun) hheap) hconns hlen,
      hlen ▸ hpos⟩
  | write i c c' s e e' serves hrun hconns hlen hheap =>
    exact ⟨noLeak.update serves (tight_same serves (handleWrite_blocks hrun) hheap) hconns hlen,
      hlen ▸ hpos⟩
  | free i c c' serves _ hrun hconns hlen =>
    exact ⟨noLeak.update serves
      (local_free hrun (owned.nodup i c serves) (owned.live i c serves)).2.1 hconns hlen,
      hlen ▸ hpos⟩
  | drop i c c' h serves hfree hrun hconns hlen =>
    have hi := serves.1
    have hlt := serves.2.1
    exact ⟨noLeak.drop lawful serves hfree hrun hconns hlen, by omega⟩
  | add id fd _ hlive hconns hlen => exact ⟨noLeak.add hpos hlive hconns hlen, by omega⟩

theorem NoLeak.steps (lawful : Lawful actions) (framed : Framed actions) (clean : Clean actions P)
    (steps : Steps actions P closes st st') (owned : Owned st) (hpos : 0 < st.ps.len)
    (noLeak : NoLeak st) : NoLeak st' ∧ 0 < st'.ps.len := by
  induction steps with
  | refl => exact ⟨noLeak, hpos⟩
  | tail hsteps step ih =>
    exact NoLeak.step lawful clean (owned.steps lawful framed hsteps) ih.2 ih.1 step

end Leaks

end Polling
