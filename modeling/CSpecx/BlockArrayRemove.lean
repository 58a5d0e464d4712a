import CSpecx.BlockArrayInsert
import CSpecx.BlockArrayWalk

/-!
# Removal from a block array

The bytes that stay are moved down to a write cursor that lags behind the read
cursor. Either both cursors are in one block, the write cursor strictly behind,
or the read block is the next one: the blocks between them have been deleted.
That is why the write cursor meets the read block when its own block is full.
-/

namespace BlockArrays

open CExec CellMemory LinkedChain Strided ByteSequence

variable {A : BlockAllocator} {r r' : BlockArray A} {p q n pos total : Nat} {c : Cursors}
  {before mid after : List Nat} {kept rest xs : List UInt8} {str : Stride} {size : Nat}
  {s : StrideState}

/-- The chain around the cursors, the bytes kept so far and the bytes to come. -/
structure Compacting (r : BlockArray A) (before mid after : List Nat) (c : Cursors)
    (kept rest : List UInt8) : Prop where
  inv : Invariant r (before ++ c.wcur :: (mid ++ after))
  place : (mid = [] ∧ c.rcur = c.wcur) ∨ mid = [c.rcur]
  wbidx_lt : c.wbidx < r.capPerNode
  rbidx_le : c.rbidx ≤ r.len c.rcur
  kept_eq : flat r before ++ load (r.data c.wcur) 0 c.wbidx = kept
  rest_eq : load (r.data c.rcur) c.rbidx (r.len c.rcur - c.rbidx) ++ flat r after = rest
  tlen_eq : r.tlen = 0

theorem Compacting.distinct (comp : Compacting r before mid after c kept rest) :
    c.wcur ∉ before ∧ c.wcur ∉ mid ∧ c.wcur ∉ after ∧ (before ++ (mid ++ after)).Nodup := by
  obtain ⟨hnot, hnodup⟩ :=
    List.nodup_cons.mp (List.perm_middle.nodup_iff.mp comp.inv.chain.nodup)
  simp only [List.mem_append, not_or] at hnot
  exact ⟨hnot.1, hnot.2.1, hnot.2.2, hnodup⟩

theorem Compacting.rcur_mem (comp : Compacting r before mid after c kept rest) :
    c.rcur ∈ before ++ c.wcur :: (mid ++ after) := by
  rcases comp.place with ⟨-, h⟩ | h <;> simp [h]

/-- The next bytes to come are at the read cursor. -/
theorem Compacting.run (comp : Compacting r before mid after c kept rest)
    (hn : n ≤ r.len c.rcur - c.rbidx) :
    rest.take n = load (r.data c.rcur) c.rbidx n ∧
      rest.drop n = load (r.data c.rcur) (c.rbidx + n) (r.len c.rcur - (c.rbidx + n)) ++
        flat r after := by
  rw [← comp.rest_eq, List.take_append_of_le_length (by rw [length_load]; omega),
    List.drop_append_of_le_length (by rw [length_load]; omega), take_load, drop_load,
    Nat.min_eq_left hn, Nat.sub_sub]
  exact ⟨rfl, rfl⟩

/-- What moving bytes leaves alone. -/
structure Moved (r : BlockArray A) (c : Cursors) (r' : BlockArray A) (c' : Cursors) (n : Nat) :
    Prop where
  rcur_eq : c'.rcur = c.rcur
  rbidx_eq : c'.rbidx = c.rbidx + n
  len_rcur : r'.len c.rcur = r.len c.rcur
  len_eq : ∀ q ≠ c.wcur, r'.len q = r.len q
  cap_eq : r'.capPerNode = r.capPerNode

/-- Bytes pass the read cursor without being kept. -/
theorem Compacting.pass (comp : Compacting r before mid after c kept rest)
    (hn : n ≤ r.len c.rcur - c.rbidx) :
    Compacting r before mid after { c with rbidx := c.rbidx + n } kept (rest.drop n) := by
  have hle := comp.rbidx_le
  exact ⟨comp.inv, comp.place, comp.wbidx_lt, by
    show c.rbidx + n ≤ r.len c.rcur
    omega, comp.kept_eq,
    (comp.run hn).2.symm, comp.tlen_eq⟩

/-- `n` bytes were copied to the write cursor; neither cursor has moved. -/
structure Copied (r : BlockArray A) (before mid after : List Nat) (c : Cursors) (n : Nat)
    (kept rest : List UInt8) (r₁ : BlockArray A) : Prop where
  inv : Invariant r₁ (before ++ c.wcur :: (mid ++ after))
  len_eq : r₁.len = r.len
  cap_eq : r₁.capPerNode = r.capPerNode
  tlen_eq : r₁.tlen = 0
  kept_eq : flat r₁ before ++ load (r₁.data c.wcur) 0 (c.wbidx + n) = kept ++ rest.take n
  rest_eq : load (r₁.data c.rcur) (c.rbidx + n) (r₁.len c.rcur - (c.rbidx + n)) ++
    flat r₁ after = rest.drop n

/-- The copy leaves alone what is still to be read: within one block the write
cursor is behind. -/
theorem Compacting.copy (comp : Compacting r before mid after c kept rest)
    (apart : mid = [] → c.wbidx < c.rbidx) (hw : n ≤ r.capPerNode - c.wbidx)
    (hr : n ≤ r.len c.rcur - c.rbidx) :
    ∃ chunk r₁, r.loadBytes c.rcur c.rbidx n = .ok chunk ∧
      r.storeBytes c.wcur c.wbidx chunk = .ok r₁ ∧ Copied r before mid after c n kept rest r₁ := by
  obtain ⟨hwb, hwm, hwa, -⟩ := comp.distinct
  obtain ⟨htake, hdrop⟩ := comp.run hr
  have hwcur : c.wcur ∈ before ++ c.wcur :: (mid ++ after) := by simp
  have hcap := comp.inv.len_le c.rcur comp.rcur_mem
  have hlt := comp.wbidx_lt
  have hle := comp.rbidx_le
  obtain ⟨chunk, hchunk⟩ : ∃ chunk, chunk = load (r.data c.rcur) c.rbidx n := ⟨_, rfl⟩
  have hlen : chunk.length = n := by rw [hchunk, length_load]
  obtain ⟨r₁, hr₁⟩ : ∃ r₁, r₁ = r.setData c.wcur (store (r.data c.wcur) c.wbidx chunk) :=
    ⟨_, rfl⟩
  have hload := comp.inv.loadBytes comp.rcur_mem
    (show c.rbidx + n ≤ r.capPerNode by omega)
  have hstore := comp.inv.storeBytes hwcur
    (show c.wbidx + chunk.length ≤ r.capPerNode by omega)
  rw [← hchunk] at hload
  rw [← hr₁] at hstore
  have hlens : r₁.len = r.len := by rw [hr₁]; simp
  have hdata : r₁.data = Function.update r.data c.wcur (store (r.data c.wcur) c.wbidx chunk) := by
    rw [hr₁]
    simp
  have hothers : ∀ q ≠ c.wcur, bytes r₁ q = bytes r q := fun q hq =>
    bytes_congr (by rw [hdata, Function.update_of_ne hq]) (congrFun hlens q)
  refine ⟨chunk, r₁, hload, hstore, hr₁ ▸ comp.inv.setData _, hlens, by rw [hr₁]; rfl,
    by rw [hr₁]; exact comp.tlen_eq, ?_, ?_⟩
  · rw [flat_away hwb hothers, hdata, Function.update_self, load_add, Nat.zero_add,
      load_store_of_disjoint (.inl (by omega)), ← hlen, load_store, hlen, htake, hchunk,
      ← List.append_assoc, comp.kept_eq]
  · rw [flat_away hwa hothers, hlens, hdrop, hdata]
    by_cases hsame : c.rcur = c.wcur
    · have hbehind : c.wbidx < c.rbidx := by
        refine apart (comp.place.elim And.left fun h => ?_)
        exact absurd (by simp [h, hsame]) hwm
      rw [hsame, Function.update_self, load_store_of_disjoint (.inr (by omega))]
    · rw [Function.update_of_ne hsame]

/-- A full write block has its length set, and writing goes on in the read block. -/
theorem Compacting.turn {r₁ : BlockArray A} (comp : Compacting r before [c.rcur] after c kept rest)
    (copied : Copied r before [c.rcur] after c n kept rest r₁)
    (hr : n ≤ r.len c.rcur - c.rbidx) (hfull : c.wbidx + n = r.capPerNode) :
    Compacting (r₁.setLen c.wcur r₁.capPerNode) (before ++ [c.wcur]) [] after
      ⟨c.rcur, 0, c.rcur, c.rbidx + n⟩ (kept ++ rest.take n) (rest.drop n) := by
  obtain ⟨hwb, hwm, hwa, -⟩ := comp.distinct
  have hne : c.rcur ≠ c.wcur := fun h => hwm (by simp [h])
  have hle := comp.rbidx_le
  have inv₂ : Invariant (r₁.setLen c.wcur r₁.capPerNode)
      (before ++ [c.wcur] ++ c.rcur :: ([] ++ after)) := by
    simpa using copied.inv.setLen (q := c.wcur) (le_refl r₁.capPerNode)
  have hrlen : (r₁.setLen c.wcur r₁.capPerNode).len c.rcur = r.len c.rcur := by
    rw [BlockArray.setLen_len, Function.update_of_ne hne, copied.len_eq]
  have hwhole : bytes (r₁.setLen c.wcur r₁.capPerNode) c.wcur =
      load (r₁.data c.wcur) 0 (c.wbidx + n) := by
    simp [bytes, hfull, copied.cap_eq]
  refine ⟨inv₂, .inl ⟨rfl, rfl⟩, inv₂.cap_pos, ?_, ?_, ?_, copied.tlen_eq⟩
  · show c.rbidx + n ≤ (r₁.setLen c.wcur r₁.capPerNode).len c.rcur
    rw [hrlen]
    omega
  · show flat _ (before ++ [c.wcur]) ++ load _ 0 0 = _
    rw [flat_append, flat_cons, flat_nil, flat_setLen hwb, hwhole, load_zero, List.append_nil,
      List.append_nil, copied.kept_eq]
  · show load ((r₁.setLen c.wcur r₁.capPerNode).data c.rcur) (c.rbidx + n)
      ((r₁.setLen c.wcur r₁.capPerNode).len c.rcur - (c.rbidx + n)) ++ _ = _
    rw [flat_setLen hwa, hrlen, ← copied.len_eq, BlockArray.setLen_data]
    exact copied.rest_eq

/-- The bytes move down, and a full write block is left for the read block. -/
theorem moveDown_spec (comp : Compacting r before mid after c kept rest)
    (apart : mid = [] → c.wbidx < c.rbidx) (hw : n ≤ r.capPerNode - c.wbidx)
    (hr : n ≤ r.len c.rcur - c.rbidx) :
    ∃ r' c' before' mid', moveDown r c n = .ok (r', c') ∧
      Compacting r' before' mid' after c' (kept ++ rest.take n) (rest.drop n) ∧
      (mid' = [] → c'.wbidx < c'.rbidx) ∧ Moved r c r' c' n := by
  obtain ⟨chunk, r₁, hload, hstore, copied⟩ := comp.copy apart hw hr
  have hcaps := copied.cap_eq
  have hlens := copied.len_eq
  have hlt := comp.wbidx_lt
  have hle := comp.rbidx_le
  by_cases hfull : c.wbidx + n = r.capPerNode
  · obtain rfl : mid = [c.rcur] := comp.place.resolve_left fun h => by
      have := apart h.1
      have := comp.inv.len_le c.rcur comp.rcur_mem
      omega
    have hne : c.rcur ≠ c.wcur := fun h => comp.distinct.2.1 (by simp [h])
    have hlink : (r₁.setLen c.wcur r₁.capPerNode).next c.wcur = some c.rcur := by
      simpa using copied.inv.chain.links.2
    have hothers : ∀ q ≠ c.wcur, (r₁.setLen c.wcur r₁.capPerNode).len q = r.len q := by
      intro q hq
      rw [BlockArray.setLen_len, Function.update_of_ne hq, hlens]
    refine ⟨_, _, _, _, ?_, comp.turn copied hr hfull, fun _ => ?_,
      ⟨rfl, rfl, hothers _ hne, hothers, hcaps⟩⟩
    · rw [← hcaps] at hfull
      simp only [moveDown, hload, ok_bind, hstore, if_pos hfull, assert_pos hlink]
    · show 0 < c.rbidx + n
      omega
  · refine ⟨r₁, ⟨c.wcur, c.wbidx + n, c.rcur, c.rbidx + n⟩, before, mid, ?_,
      ⟨copied.inv, comp.place, ?_, ?_, copied.kept_eq, copied.rest_eq, copied.tlen_eq⟩,
      fun h => Nat.add_lt_add_right (apart h) n,
      ⟨rfl, rfl, congrFun hlens _, fun q _ => congrFun hlens q, hcaps⟩⟩
    · rw [← hcaps] at hfull
      simp only [moveDown, hload, ok_bind, hstore, if_neg hfull]
    · show c.wbidx + n < r₁.capPerNode
      omega
    · show c.rbidx + n ≤ r₁.len c.rcur
      rw [hlens]
      omega

/-- Deleting the block behind `q`. -/
theorem deleteBlock_spec (inv : Invariant r (before ++ q :: p :: after)) :
    ∃ r', deleteBlock r p = .ok r' ∧ Invariant r' (before ++ q :: after) ∧
      r'.data = r.data ∧ r'.len = r.len ∧ SameTail r r' := by
  have hsplit : before ++ q :: p :: after = (before ++ [q]) ++ p :: after := by simp
  have hgoal : before ++ q :: after = (before ++ [q]) ++ after := by simp
  have hp : p ∈ before ++ q :: p :: after := by simp
  have hlinks := (hsplit ▸ inv.chain : Chain _ _ _ ((before ++ [q]) ++ p :: after)).links
  have hprev : r.prev p = some q := by simpa using hlinks.1
  have hnodup : p ∉ (before ++ [q]) ++ after := by
    have h := inv.chain.nodup
    rw [hsplit] at h
    exact (List.nodup_cons.mp (List.perm_middle.nodup_iff.mp h)).1
  have hlive : ∀ a, a ∈ before ++ q :: p :: after → a ∈ A.live r.blockAlloc := fun a ha =>
    (inv.live a).mp ha
  obtain ⟨r₁, hset₁, hlink₁, hprev₁, hnext₁⟩ :=
    setNextOf_spec (r := r) (q := r.prev p) (v := r.next p) fun a ha =>
      hlive a (inv.chain.prev_mem hp ha)
  obtain ⟨r₂, hset₂, hlink₂, hnext₂, hprev₂⟩ :=
    setPrevOf_spec (r := r₁) (q := r.next p) (v := r.prev p) fun a ha => by
      rw [hlink₁.alloc_eq]
      exact hlive a (inv.chain.next_mem hp ha)
  have hlink := hlink₁.trans hlink₂
  obtain ⟨s, hfree, hok, hfreed⟩ := A.free_ok r.blockAlloc p inv.ok (hlive p hp)
  refine ⟨r₂.setAlloc s, ?_, ⟨hok, ?_, fun a => ?_, fun a ha => ?_, ?_⟩, hlink.data_eq,
    hlink.len_eq, ⟨hlink.same.cap_eq, hlink.same.tlen_eq, hlink.same.tail_eq⟩⟩
  · have hfields : (r.blocks p).prev = r.prev p ∧ (r.blocks p).next = r.next p := ⟨rfl, rfl⟩
    simp only [deleteBlock, inv.block hp, ok_bind, hfields.1, hfields.2, hset₁, hset₂,
      hlink.alloc_eq, hfree]
  · rw [hgoal]
    refine (hsplit ▸ inv.chain : Chain _ _ _ ((before ++ [q]) ++ p :: after)).remove ?_
      (fun a _ => ?_) (fun a _ => ?_)
    · rw [if_neg (by simp [hprev])]
      exact hlink.head_eq
    · show r₂.next a = _
      rw [hnext₂]
      exact hnext₁ a
    · show r₂.prev a = _
      rw [hprev₂, hprev₁]
  · show _ ↔ a ∈ A.live s
    rw [hfreed, Finset.mem_erase, ← inv.live a, hsplit, hgoal]
    simp only [List.mem_append, List.mem_cons] at hnodup ⊢
    constructor
    · intro h
      exact ⟨fun ha => hnodup (by rw [← ha]; exact h), by tauto⟩
    · rintro ⟨hne, h⟩
      tauto
  · show r₂.len a ≤ r₂.capPerNode
    rw [hlink.len_eq, hlink.same.cap_eq]
    refine inv.len_le a ?_
    simp only [List.mem_append, List.mem_cons] at ha ⊢
    tauto
  · show 0 < r₂.capPerNode
    rw [hlink.same.cap_eq]
    exact inv.cap_pos

/-- The read block is deleted unless the write cursor is in it. -/
theorem dropRead_spec (comp : Compacting r before mid after c kept rest) :
    ∃ r', dropRead r c = .ok r' ∧ Invariant r' (before ++ c.wcur :: after) ∧
      r'.data = r.data ∧ r'.len = r.len ∧ SameTail r r' ∧
      (r.blocks c.rcur).next = after.head? := by
  obtain ⟨-, hwm, -, -⟩ := comp.distinct
  have inv := comp.inv
  rcases comp.place with ⟨hmid, hsame⟩ | hmid
  · rw [hmid, List.nil_append] at inv
    have hnext : r.next c.wcur = after.head? := inv.chain.links.2
    refine ⟨r, if_neg (not_not.mpr hsame), inv, rfl, rfl, .refl r, ?_⟩
    rw [hsame]
    exact hnext
  · have hne : c.rcur ≠ c.wcur := fun h => hwm (by simp [hmid, h])
    rw [hmid] at inv
    have hsplit : before ++ c.wcur :: ([c.rcur] ++ after) =
        (before ++ [c.wcur]) ++ c.rcur :: after := by simp
    obtain ⟨r', hrun, inv', hdata, hlen, hsame⟩ := deleteBlock_spec inv
    refine ⟨r', by rw [dropRead, if_pos hne, hrun], inv', hdata, hlen, hsame, ?_⟩
    exact (hsplit ▸ inv.chain : Chain _ _ _ ((before ++ [c.wcur]) ++ c.rcur :: after)).links.2

/-- The read cursor is done: what is kept, and what stands behind it. -/
def Finished (r : BlockArray A) (c : Cursors) (ys : List UInt8) : Prop :=
  ∃ before after, Invariant r (before ++ c.wcur :: after) ∧ c.wbidx ≤ r.capPerNode ∧
    flat r before ++ load (r.data c.wcur) 0 c.wbidx ++ flat r after = ys ∧ r.tlen = 0

/-- At the end of its block the read cursor leaves it. -/
theorem Compacting.leave (comp : Compacting r before mid after c kept rest)
    (hend : c.rbidx = r.len c.rcur) :
    ∃ r', dropRead r c = .ok r' ∧ (r.blocks c.rcur).next = after.head? ∧ r'.len = r.len ∧
      r'.capPerNode = r.capPerNode ∧ Finished r' c (kept ++ rest) ∧
      ∀ q after', after = q :: after' →
        Compacting r' before [q] after' { c with rcur := q, rbidx := 0 } kept rest := by
  obtain ⟨r', hrun, inv', hdata, hlen, hsame, hnext⟩ := dropRead_spec comp
  have hflat : ∀ l, flat r' l = flat r l := fun l =>
    flat_congr fun q _ => bytes_congr (congrFun hdata q) (congrFun hlen q)
  have hrest : rest = flat r after := by
    rw [← comp.rest_eq, hend, Nat.sub_self, load_zero, List.nil_append]
  have hkept : flat r' before ++ load (r'.data c.wcur) 0 c.wbidx = kept := by
    rw [hflat, hdata]
    exact comp.kept_eq
  have htlen : r'.tlen = 0 := hsame.tlen_eq.trans comp.tlen_eq
  have hwbidx : c.wbidx < r'.capPerNode := hsame.cap_eq ▸ comp.wbidx_lt
  refine ⟨r', hrun, hnext, hlen, hsame.cap_eq,
    ⟨before, after, inv', le_of_lt hwbidx, by rw [hkept, hflat, hrest], htlen⟩, ?_⟩
  rintro q after' rfl
  refine ⟨inv', .inr rfl, hwbidx, Nat.zero_le _, hkept, ?_, htlen⟩
  rw [hrest, ← hflat]
  rfl

/-- The second loop moves the rest of the read block down. -/
theorem compactLoop_spec (comp : Compacting r before mid after c kept rest)
    (apart : mid = [] → c.wbidx < c.rbidx) (enough : r.len c.rcur - c.rbidx < n) :
    ∃ r' c', compactLoop n r c = .ok (r', c') ∧ Finished r' c' (kept ++ rest) := by
  induction n generalizing r before mid c kept rest with
  | zero => omega
  | succ n ih =>
    obtain ⟨k, hk⟩ : ∃ k, k = min (r.capPerNode - c.wbidx) (r.len c.rcur - c.rbidx) := ⟨_, rfl⟩
    have hfield : (r.blocks c.rcur).len = r.len c.rcur := rfl
    obtain ⟨r', c', before', mid', hmove, comp', apart', moved⟩ :=
      moveDown_spec comp apart (n := k) (by omega) (by omega)
    have hlen' : (r'.blocks c'.rcur).len = r.len c.rcur :=
      (congrArg r'.len moved.rcur_eq).trans moved.len_rcur
    have hbytes : kept ++ rest.take k ++ rest.drop k = kept ++ rest := by
      rw [List.append_assoc, List.take_append_drop]
    have hstep : compactLoop (n + 1) r c =
        if c'.rbidx = r.len c.rcur then (do
          let r ← dropRead r' c'
          .ok (r, c'))
        else compactLoop n r' c' := by
      simp only [compactLoop, comp.inv.block comp.rcur_mem, ok_bind, hfield, ← hk, hmove,
        comp'.inv.block comp'.rcur_mem, hlen']
    rw [hstep]
    by_cases hend : c'.rbidx = r.len c.rcur
    · obtain ⟨r'', hdrop, -, -, -, finished, -⟩ := comp'.leave (hend.trans hlen'.symm)
      rw [hbytes] at finished
      exact ⟨r'', c', by rw [if_pos hend, hdrop, ok_bind], finished⟩
    · have hlt := comp.wbidx_lt
      have hle := comp.rbidx_le
      rw [moved.rbidx_eq] at hend
      have hleft : r'.len c'.rcur - c'.rbidx < n := by
        rw [moved.rcur_eq, moved.len_rcur, moved.rbidx_eq]
        omega
      obtain ⟨r'', c'', hrun, finished⟩ := ih comp' apart' hleft
      rw [hbytes] at finished
      rw [moved.rbidx_eq, if_neg hend]
      exact ⟨r'', c'', hrun, finished⟩

/-- One run: selected bytes pass, the others move down. -/
theorem removeRun_spec (comp : Compacting r before mid after c kept rest) (dest : Bool)
    (hnext : c.rbidx < r.len c.rcur → 0 < s.next)
    (apart : mid = [] → c.wbidx < c.rbidx ∨
      (s.active = true ∧ c.wbidx = c.rbidx ∧ c.rbidx < r.len c.rcur)) :
    ∃ k r' c' before' mid', removeRun r c s dest =
        .ok (k, if dest then if s.active then rest.take k else [] else [], r', c') ∧
      k ≤ s.next ∧ k ≤ r.len c.rcur - c.rbidx ∧ (k = 0 → c.rbidx = r.len c.rcur) ∧
      Compacting r' before' mid' after c' (kept ++ if s.active then [] else rest.take k)
        (rest.drop k) ∧
      (mid' = [] → c'.wbidx < c'.rbidx) ∧ Moved r c r' c' k := by
  have hfield : (r.blocks c.rcur).len = r.len c.rcur := rfl
  have hlt := comp.wbidx_lt
  have hle := comp.rbidx_le
  cases hactive : s.active with
  | false =>
    obtain ⟨k, hk⟩ : ∃ k,
      k = min (min s.next (r.capPerNode - c.wbidx)) (r.len c.rcur - c.rbidx) := ⟨_, rfl⟩
    have apart' : mid = [] → c.wbidx < c.rbidx := fun h =>
      (apart h).resolve_right fun h => Bool.false_ne_true (hactive.symm.trans h.1)
    obtain ⟨r', c', before', mid', hmove, comp', apart', moved⟩ :=
      moveDown_spec comp apart' (n := k) (by omega) (by omega)
    refine ⟨k, r', c', before', mid', ?_, by omega, by omega, fun h => by omega,
      by simpa using comp', apart', moved⟩
    simp only [removeRun, comp.inv.block comp.rcur_mem, ok_bind, hactive, hfield, ← hk, hmove]
    simp
  | true =>
    obtain ⟨k, hk⟩ : ∃ k, k = min s.next (r.len c.rcur - c.rbidx) := ⟨_, rfl⟩
    have hcap := comp.inv.len_le c.rcur comp.rcur_mem
    have hcopy : copyDest r c dest k = .ok (if dest then rest.take k else []) := by
      cases dest with
      | false => rfl
      | true =>
        rw [(comp.run (n := k) (by omega)).1]
        exact comp.inv.loadBytes comp.rcur_mem (by omega)
    refine ⟨k, r, { c with rbidx := c.rbidx + k }, before, mid, ?_, by omega, by omega,
      fun h => by omega, ?_, fun h => ?_, ⟨rfl, rfl, rfl, fun _ _ => rfl, rfl⟩⟩
    · simp only [removeRun, comp.inv.block comp.rcur_mem, ok_bind, hactive, hfield, ← hk, hcopy,
        if_true]
    · simpa using comp.pass (n := k) (by omega)
    · show c.wbidx < c.rbidx + k
      rcases apart h with h | ⟨-, h, h'⟩ <;> omega

/-- Up to `pos` the bytes are sorted into those kept and those out. -/
structure Parted (str : Stride) (size : Nat) (dest : Bool) (xs : List UInt8) (pos : Nat)
    (kept rest out : List UInt8) : Prop where
  pos_le : pos ≤ xs.length
  rest_eq : rest = xs.drop pos
  kept_eq : kept = remaining str size (xs.take pos)
  out_eq : out = if dest then selected str size (xs.take pos) else []

section Parted

variable {dest : Bool} {k : Nat} {out : List UInt8}

/-- Whole runs are selected or not. -/
theorem Parted.run (parted : Parted str size dest xs pos kept rest out)
    (course : Course str size xs.length s total pos) (hlt : total < str.nelems)
    (hnext : k ≤ s.next) (inside : pos + k ≤ xs.length) :
    Parted str size dest xs (pos + k) (kept ++ if s.active then [] else rest.take k)
      (rest.drop k) (out ++ if dest then if s.active then rest.take k else [] else []) := by
  obtain ⟨hsel, hrem⟩ := course.select_run hlt hnext inside (rest.take k) (by simp)
  refine ⟨inside, by rw [parted.rest_eq, List.drop_drop], ?_, ?_⟩
  · rw [remaining, select_take_add parted.pos_le, ← parted.rest_eq, hrem, parted.kept_eq, remaining]
  · rw [selected, select_take_add parted.pos_le, ← parted.rest_eq, hsel, parted.out_eq, selected]
    cases dest <;> rfl

/-- Behind the last element of the selection everything is kept. -/
theorem Parted.stop (parted : Parted str size dest xs pos kept rest out)
    (course : Course str size xs.length s total pos) (hall : str.nelems ≤ total) :
    out = (if dest then selected str size xs else []) ∧ kept ++ rest = remaining str size xs := by
  have hfar : ∀ q, pos ≤ q → q < pos + (xs.drop pos).length → ¬ (str.selection size).Picked q :=
    fun q hq _ => course.finished hall hq
  have hnone : select (str.selection size).Picked pos (xs.drop pos) = [] := select_none hfar
  constructor
  · rw [parted.out_eq, selected, selected, select_split parted.pos_le, hnone, List.append_nil]
  · rw [parted.kept_eq, parted.rest_eq, remaining, remaining, select_split parted.pos_le,
      select_all hfar]

/-- Nothing is left at the end of the sequence. -/
theorem Parted.whole (parted : Parted str size dest xs pos kept [] out) :
    pos = xs.length ∧ out = (if dest then selected str size xs else []) ∧
      kept = remaining str size xs := by
  have hlast : pos = xs.length := Nat.le_antisymm parted.pos_le
    (List.drop_eq_nil_iff.mp parted.rest_eq.symm)
  have hkept := parted.kept_eq
  have hout := parted.out_eq
  rw [hlast, List.take_length] at hkept hout
  exact ⟨hlast, hout, hkept⟩

end Parted

/-- The first loop: everything selected is out, and what is kept with what is
still to come is the remaining sequence. -/
theorem removeLoop_spec {dest : Bool} {out : List UInt8}
    (unwrapped : Unwrapped str size xs.length) (hsome : 0 < str.nelems)
    (comp : Compacting r before mid after c kept rest)
    (course : Course str size xs.length s total pos)
    (parted : Parted str size dest xs pos kept rest out)
    (apart : mid = [] → c.wbidx < c.rbidx ∨
      (total = 0 ∧ s.active = true ∧ c.wbidx = c.rbidx ∧ c.rbidx < r.len c.rcur))
    (enough : (after.map fun p => r.len p + 1).sum + (r.len c.rcur - c.rbidx) < n) :
    ∃ d, removeLoop str size dest n r c s total out = .ok d ∧
      d.total = elements str size xs ∧
      d.bytes = (if dest then selected str size xs else []) ∧
      d.array.capPerNode = r.capPerNode ∧
      (d.ended = true ∧ Finished d.array d.cursors (remaining str size xs) ∨
        d.ended = false ∧ ∃ before mid after kept rest,
          Compacting d.array before mid after d.cursors kept rest ∧
          (mid = [] → d.cursors.wbidx < d.cursors.rbidx) ∧
          kept ++ rest = remaining str size xs) := by
  induction n generalizing r before mid after c kept rest s total pos out with
  | zero => omega
  | succ n ih =>
    have hpos := parted.pos_le
    by_cases hall : str.nelems ≤ total
    · obtain ⟨hout, hkept⟩ := parted.stop course hall
      refine ⟨⟨r, c, false, total, out⟩, by rw [removeLoop, if_pos hall],
        (course.count_eq unwrapped.size_pos hpos (.inl hall)).symm, hout, rfl,
        .inr ⟨rfl, before, mid, after, kept,
          rest, comp, fun h => (apart h).resolve_right ?_, hkept⟩⟩
      rintro ⟨rfl, -⟩
      omega
    have hlt : total < str.nelems := Nat.lt_of_not_le hall
    have hlength : r.len c.rcur - c.rbidx ≤ xs.length - pos := by
      rw [← List.length_drop, ← parted.rest_eq, ← comp.rest_eq, List.length_append, length_load]
      omega
    obtain ⟨k, r', c', before', mid', hrun, hnext, hblock, hprogress, comp', apart', moved⟩ :=
      removeRun_spec comp dest (fun h => course.progress hlt (by omega)) fun h =>
        (apart h).imp_right And.right
    have course' := course.consume unwrapped hlt hnext (by omega)
    obtain ⟨⟨s', t'⟩, hstate⟩ : ∃ st, consume str size s total k = st := ⟨_, rfl⟩
    rw [hstate] at course'
    have parted' := parted.run course hlt hnext (by omega)
    have hlen' : (r'.blocks c'.rcur).len = r.len c.rcur :=
      (congrArg r'.len moved.rcur_eq).trans moved.len_rcur
    have hlens : (after.map fun p => r'.len p + 1) = after.map fun p => r.len p + 1 :=
      List.map_congr_left fun q hq => by
        rw [moved.len_eq q fun h => comp.distinct.2.2.1 (h ▸ hq)]
    obtain ⟨out', hout⟩ : ∃ out',
        out' = out ++ if dest then if s.active then rest.take k else [] else [] := ⟨_, rfl⟩
    rw [← hout] at parted'
    have hrcur := comp'.inv.block comp'.rcur_mem
    by_cases hend : c'.rbidx = r.len c.rcur
    · obtain ⟨r'', hdrop, hafter, hlen'', hcap, finished, hnew⟩ :=
        comp'.leave (hend.trans hlen'.symm)
      cases after with
      | nil =>
        have hstep : removeLoop str size dest (n + 1) r c s total out =
            .ok ⟨r'', c', true, t', out'⟩ := by
          simp only [removeLoop, if_neg hall, hrun, ok_bind, hstate, hrcur, hlen', ← hout,
            if_pos hend, hdrop, hafter, List.head?_nil]
        have hflat : rest.drop k = [] := by
          rw [← comp'.rest_eq, hend, ← hlen']
          simp [BlockArray.len]
        rw [hflat] at parted' finished
        obtain ⟨hlast, hbytes, hkept⟩ := parted'.whole
        rw [List.append_nil, hkept] at finished
        exact ⟨_, hstep,
          (course'.count_eq unwrapped.size_pos (hlast ▸ le_refl _) (.inr hlast)).symm, hbytes,
          hcap.trans moved.cap_eq, .inl ⟨rfl, finished⟩⟩
      | cons q after =>
        have hstep : removeLoop str size dest (n + 1) r c s total out =
            removeLoop str size dest n r'' { c' with rcur := q, rbidx := 0 } s' t' out' := by
          simp only [removeLoop, if_neg hall, hrun, ok_bind, hstate, hrcur, hlen', ← hout,
            if_pos hend, hdrop, hafter, List.head?_cons]
        have fewer : (after.map fun p => r''.len p + 1).sum + (r''.len q - 0) < n := by
          rw [hlen'', (List.cons.inj hlens).2]
          have hq : r'.len q + 1 = r.len q + 1 := (List.cons.inj hlens).1
          simp only [List.map_cons, List.sum_cons] at enough
          omega
        obtain ⟨d, hd, htotal, hdbytes, hdcap, hfinal⟩ :=
          ih (hnew q after rfl) course' parted' (fun h => absurd h (List.cons_ne_nil _ _)) fewer
        exact ⟨d, hstep.trans hd, htotal, hdbytes, (hdcap.trans hcap).trans moved.cap_eq, hfinal⟩
    · have hmore : 0 < k := by
        refine Nat.pos_of_ne_zero fun h => hend ?_
        rw [moved.rbidx_eq, hprogress h, h, Nat.add_zero]
      have hstep : removeLoop str size dest (n + 1) r c s total out =
          removeLoop str size dest n r' c' s' t' out' := by
        simp only [removeLoop, if_neg hall, hrun, ok_bind, hstate, hrcur, hlen', ← hout,
          if_neg hend]
      have fewer : (after.map fun p => r'.len p + 1).sum + (r'.len c'.rcur - c'.rbidx) < n := by
        rw [hlens, moved.rcur_eq, moved.len_rcur, moved.rbidx_eq]
        omega
      obtain ⟨d, hd, htotal, hdbytes, hdcap, hfinal⟩ :=
        ih comp' course' parted' (fun h => .inl (apart' h)) fewer
      exact ⟨d, hstep.trans hd, htotal, hdbytes, hdcap.trans moved.cap_eq, hfinal⟩

/-- `wcur->len = wbidx` leaves the kept bytes and those behind them. -/
theorem Finished.close {ys : List UInt8} (finished : Finished r c ys) :
    r.block c.wcur = .ok (r.blocks c.wcur) ∧ Represents (r.setLen c.wcur c.wbidx) ys := by
  obtain ⟨before, after, inv, hcap, hys, htlen⟩ := finished
  obtain ⟨hnotb, hnota⟩ := inv.apart
  refine ⟨inv.block (by simp), _, inv.setLen hcap, ?_, htlen⟩
  have hbytes : bytes (r.setLen c.wcur c.wbidx) c.wcur = load (r.data c.wcur) 0 c.wbidx := by
    simp [bytes]
  rw [flat_append, flat_cons, flat_setLen hnotb, flat_setLen hnota, hbytes, ← List.append_assoc]
  exact hys

/-- From the block found on. -/
theorem removeFrom_spec {cur o : Nat} (dest : Bool) (unwrapped : Unwrapped str size xs.length)
    (hsome : 0 < str.nelems) (inv : Invariant r (before ++ cur :: after)) (ho : o < r.len cur)
    (htlen : r.tlen = 0)
    (hxs : flat r (before ++ cur :: after) = xs)
    (hpos : (flat r before).length + o = (str.selection size).pos 0) :
    ∃ r', removeFrom r str size dest cur o =
        .ok (elements str size xs, if dest then selected str size xs else [], r') ∧
      Represents r' (remaining str size xs) := by
  have hcur : cur ∈ before ++ cur :: after := by simp
  have hcap := inv.len_le cur hcur
  obtain ⟨pos, hstart⟩ : ∃ pos, pos = (str.selection size).pos 0 := ⟨_, rfl⟩
  rw [← hstart] at hpos
  have hsplit : xs = flat r before ++ (bytes r cur ++ flat r after) := by
    rw [← hxs, flat_append, flat_cons]
  have hle : o ≤ (bytes r cur).length := by
    rw [length_bytes]
    omega
  have htake : xs.take pos = flat r before ++ load (r.data cur) 0 o := by
    rw [hsplit, ← hpos, List.take_length_add_append, List.take_append_of_le_length hle, bytes,
      take_load, Nat.min_eq_left (by omega)]
  have hdrop : xs.drop pos = load (r.data cur) o (r.len cur - o) ++ flat r after := by
    rw [hsplit, ← hpos, List.drop_length_add_append, List.drop_append_of_le_length hle, bytes,
      drop_load, Nat.zero_add]
  have hinside : pos ≤ xs.length := by
    rw [hsplit, List.length_append, List.length_append, length_bytes]
    omega
  have hnone : ∀ q, 0 ≤ q → q < 0 + (xs.take pos).length → ¬ (str.selection size).Picked q := by
    intro q _ hq
    rw [List.length_take] at hq
    exact Selection.not_picked (k := 0) (fun j hj => absurd hj (Nat.not_lt_zero j))
      (.inl (by omega))
  have comp : Compacting r before [] after ⟨cur, o, cur, o⟩ (xs.take pos) (xs.drop pos) :=
    ⟨inv, .inl ⟨rfl, rfl⟩, lt_of_lt_of_le ho hcap, le_of_lt ho, htake.symm, hdrop.symm, htlen⟩
  have parted : Parted str size dest xs pos (xs.take pos) (xs.drop pos) [] :=
    ⟨hinside, rfl, (select_all hnone).symm, by rw [selected, select_none hnone, ite_self]⟩
  have course := (phase_start unwrapped.size_pos str).course xs.length
  have hfuel := inv.fuel_bound
  rw [List.map_append, List.sum_append, List.map_cons, List.sum_cons] at hfuel
  obtain ⟨d, hloop, htotal, hout, hdcap, hfinal⟩ :=
    removeLoop_spec unwrapped hsome comp (hstart ▸ course) parted
      (fun _ => .inr ⟨rfl, rfl, rfl, ho⟩)
      (show (after.map fun p => r.len p + 1).sum + (r.len cur - o) < r.fuel by omega)
  obtain ⟨r', c', hrest, finished⟩ : ∃ r' c', compactRest r.fuel d = .ok (r', c') ∧
      Finished r' c' (remaining str size xs) := by
    rcases hfinal with ⟨hended, finished⟩ | ⟨hended, b, m, a, kept, rest, comp', apart, hall⟩
    · exact ⟨d.array, d.cursors, by rw [compactRest, hended, if_pos rfl], finished⟩
    · have hroom : d.array.len d.cursors.rcur - d.cursors.rbidx < r.fuel := by
        have hone : 1 ≤ (A.live r.blockAlloc).card :=
          Finset.card_pos.mpr ⟨cur, (inv.live cur).mp hcur⟩
        have hmul := Nat.mul_le_mul_right (r.capPerNode + 1) hone
        have hlen := comp'.inv.len_le _ comp'.rcur_mem
        rw [hdcap] at hlen
        unfold BlockArray.fuel
        omega
      obtain ⟨r', c', hrun, finished⟩ := compactLoop_spec comp' apart hroom
      rw [hall] at finished
      refine ⟨r', c', ?_, finished⟩
      rw [compactRest, hended]
      exact hrun
  obtain ⟨hblock, rep⟩ := finished.close
  refine ⟨r'.setLen c'.wcur c'.wbidx, ?_, rep⟩
  simp only [removeFrom, hloop, ok_bind, hrest, hblock, htotal, hout]

theorem blockArrayRemove_unwrapped (rep : Represents r xs)
    (unwrapped : Unwrapped str size xs.length) (hsome : 0 < str.nelems) (dest : Bool) :
    ∃ r', blockArrayRemove r str size dest =
        .ok (elements str size xs, if dest then selected str size xs else [], r') ∧
      Represents r' (remaining str size xs) := by
  obtain ⟨ps, inv, hflat, htlen⟩ := rep
  have inv₀ : Invariant r ([] ++ ps) := inv
  have hseek := seek_spec (u32 (str.start * size)) inv₀ inv.length_lt_fuel
  rw [hflat, ← inv.chain.head_eq] at hseek
  rcases hseek with ⟨hend, hnone⟩ | ⟨before, cur, after, o, rfl, hfound, ho, hsum⟩
  · obtain ⟨hcount, hfar⟩ := unwrapped.none_inside hend
    have hfar' : ∀ q, 0 ≤ q → q < 0 + xs.length → ¬ (str.selection size).Picked q :=
      fun q _ hq => hfar q (by omega)
    refine ⟨r, ?_, ps, inv, ?_, htlen⟩
    · simp only [blockArrayRemove, hnone, ok_bind, elements, hcount, selected, select_none hfar',
        ite_self]
    · rw [hflat, remaining, select_all hfar']
  · have hinside : (flat r before).length + o < xs.length := by
      rw [← hflat, flat_append, flat_cons]
      simp only [List.length_append, length_bytes]
      omega
    have hstart := unwrapped.start_eq (hsum ▸ hinside)
    obtain ⟨r', hrun, rep'⟩ :=
      removeFrom_spec dest unwrapped hsome inv ho htlen hflat (hsum.trans hstart)
    refine ⟨r', ?_, rep'⟩
    simp only [blockArrayRemove, hfound, ok_bind, hrun]

theorem blockArrayRemove_spec (rep : Represents r xs) (range : Bounded str size) (dest : Bool) :
    ∃ r', blockArrayRemove r str size dest =
        .ok (elements str size xs, if dest then selected str size xs else [], r') ∧
      Represents r' (remaining str size xs) :=
  blockArrayRemove_unwrapped rep (unwrapped_of_bounded range xs.length) range.nelems_pos dest

/-! ## Operations -/

/-- An operation with a selection that is not empty. -/
def Selects : Op → Prop
  | .read str _ | .write str _ _ | .remove str _ _ => 0 < str.nelems
  | _ => True

/-- No position of the operation wraps around into `len` bytes. -/
def Unwrapping (len : Nat) : Op → Prop
  | .insert ofst src _ => ofst ≤ len ∧ src ≠ []
  | .read str size | .write str size _ | .remove str size _ =>
    0 < str.nelems → Unwrapped str size len
  | .getlen => True

/-- Only an insertion takes blocks. -/
theorem step_unwrapped (rep : Represents r xs) {op : Op}
    (fits : A.Fits ∨ ∀ ofst src grown, op ≠ .insert ofst src grown)
    (unwrapping : Unwrapping xs.length op) (selects : Selects op) :
    ∃ r', step r op = .ok ((apply xs op).1, r') ∧ Represents r' (apply xs op).2 := by
  cases op with
  | insert ofst src grown =>
    have fits := fits.resolve_right fun h => h ofst src grown rfl
    obtain ⟨r', hrun, rep'⟩ := blockArrayInsert_spec rep fits unwrapping.1 unwrapping.2
    exact ⟨r', by rw [step, hrun]; rfl, rep'⟩
  | read str size =>
    exact ⟨r, by rw [step, blockArrayRead_unwrapped rep (unwrapping selects)]; rfl, rep⟩
  | write str size src =>
    obtain ⟨r', hrun, rep'⟩ := blockArrayWrite_unwrapped rep (unwrapping selects) src
    exact ⟨r', by rw [step, hrun]; rfl, rep'⟩
  | remove str size dest =>
    obtain ⟨r', hrun, rep'⟩ := blockArrayRemove_unwrapped rep (unwrapping selects) selects dest
    exact ⟨r', by rw [step, hrun]; rfl, rep'⟩
  | getlen => exact ⟨r, by rw [step, blockArrayGetlen_spec rep]; rfl, rep⟩

theorem unwrapping_of_allowed {op : Op} {len : Nat} (allowed : Allowed len op) :
    Unwrapping len op := by
  cases op with
  | insert ofst src grown => exact ⟨allowed.1, allowed.2.1⟩
  | read str size => exact fun hsome => unwrapped_of_bounded (allowed.bounded hsome) len
  | write str size src => exact fun hsome => unwrapped_of_bounded (allowed.bounded hsome) len
  | remove str size dest => exact fun hsome => unwrapped_of_bounded (allowed.bounded hsome) len
  | getlen => trivial

theorem step_selects (rep : Represents r xs) {op : Op}
    (fits : A.Fits ∨ ∀ ofst src grown, op ≠ .insert ofst src grown)
    (allowed : Allowed xs.length op) (selects : Selects op) :
    ∃ r', step r op = .ok ((apply xs op).1, r') ∧ Represents r' (apply xs op).2 :=
  step_unwrapped rep fits (unwrapping_of_allowed allowed) selects

/-- A call that returned was no insertion or had a slab to take blocks from. -/
theorem step_fits (rep : Represents r xs) {op : Op} {reply : Reply}
    (hrun : step r op = .ok (reply, r')) :
    A.Fits ∨ ∀ ofst src grown, op ≠ .insert ofst src grown := by
  cases op with
  | insert ofst src grown =>
    obtain ⟨r'', hrun, -⟩ := bind_eq_ok.mp hrun
    exact .inl (blockArrayInsert_fits rep hrun)
  | read _ _ | write _ _ _ | remove _ _ _ | getlen => exact .inr fun _ _ _ h => nomatch h

end BlockArrays
