import CSpecx.BlockArrayHeap

/-!
# Insertion into a block array

The bytes behind the insertion point are set aside, the new bytes and then the
old ones are appended at the block of the insertion point, and new blocks are
linked in where that block and its successors fill up.
-/

namespace BlockArrays

open CExec CellMemory LinkedChain

variable {A : BlockAllocator} {r r' : BlockArray A} {p q cur : Nat}
  {ps before after : List Nat}

/-- The first block of an empty array. -/
theorem blockAllocEmpty_head (inv : Invariant r []) (fits : A.Fits) :
    ∃ p r', blockAllocEmpty r none = .ok (some p, r') ∧
      Invariant (r'.setHead (some p)) [p] ∧ r'.len p = 0 ∧ SameTail r r' := by
  obtain ⟨p, s, halloc, hok, -, hlive⟩ := A.alloc_ok fits r.blockAlloc inv.ok
  refine ⟨p, (((r.setAlloc s).setLen p 0).setNext p none).setPrev p none, ?_, ?_, ?_,
    ⟨rfl, rfl, rfl⟩⟩
  · simp only [blockAllocEmpty, halloc, linkBlock, ok_bind]
  · refine ⟨hok, ⟨rfl, ⟨?_, ?_, trivial⟩, List.nodup_singleton p⟩, fun q => ?_, ?_, inv.cap_pos⟩
    · show ((((r.setAlloc s).setLen p 0).setNext p none).setPrev p none).prev p = none
      simp
    · show ((((r.setAlloc s).setLen p 0).setNext p none).setPrev p none).next p = none
      simp
    · have hnone : ∀ q, q ∉ A.live r.blockAlloc := fun q hq => by simpa using (inv.live q).mpr hq
      show q ∈ [p] ↔ q ∈ A.live s
      simp [hlive, hnone]
    · intro q hq
      obtain rfl := List.mem_singleton.mp hq
      show ((((r.setAlloc s).setLen q 0).setNext q none).setPrev q none).len q ≤ _
      simp
  · simp

/-- A new block behind `cur`. -/
theorem blockAllocEmpty_spec (inv : Invariant r (before ++ cur :: after)) :
    ∃ p r', blockAllocEmpty r (some cur) = .ok (some p, r') ∧ p ∉ before ++ cur :: after ∧
      Invariant r' (before ++ cur :: p :: after) ∧ r'.len p = 0 ∧ SameTail r r' ∧
      ∀ q ≠ p, bytes r' q = bytes r q := by
  have hcur : cur ∈ before ++ cur :: after := by simp
  have fits := A.fits_of_live r.blockAlloc cur inv.ok ((inv.live cur).mp hcur)
  obtain ⟨p, s, halloc, hok, hfresh, hlive⟩ := A.alloc_ok fits r.blockAlloc inv.ok
  have hnew : p ∉ before ++ cur :: after := fun h => hfresh ((inv.live p).mp h)
  have hkept : ∀ q ∈ before ++ cur :: after, q ∈ A.live s := fun q hq =>
    hlive ▸ Finset.mem_insert_of_mem ((inv.live q).mp hq)
  have hnext : r.next cur = after.head? := inv.chain.links.2
  obtain ⟨r₁, hr₁⟩ : ∃ r₁, r₁ =
    (((r.setAlloc s).setLen p 0).setNext p (r.next cur)).setNext cur (some p) := ⟨_, rfl⟩
  have hlink₁ : Relinked ((r.setAlloc s).setLen p 0) r₁ :=
    hr₁ ▸ (relinked_setNext _ _ _).trans (relinked_setNext _ _ _)
  obtain ⟨r₂, hset, hlink₂, hnext₂, hprev₂⟩ :=
    setPrevOf_spec (r := r₁) (q := r.next cur) (v := some p) fun a ha => by
      rw [hlink₁.alloc_eq]
      exact hkept a (inv.chain.next_mem hcur ha)
  have hlink := (hlink₁.trans hlink₂).trans (relinked_setPrev r₂ p (some cur))
  have hlen : (r₂.setPrev p (some cur)).len = Function.update r.len p 0 :=
    hlink.len_eq.trans (BlockArray.setLen_len _ _ _)
  have hdata : (r₂.setPrev p (some cur)).data = r.data :=
    hlink.data_eq.trans (BlockArray.setLen_data _ _ _)
  have hnextAll : ∀ q, (r₂.setPrev p (some cur)).next q =
      if q = cur then some p else if q = p then r.next cur else r.next q := by
    intro q
    rw [BlockArray.setPrev_next, hnext₂, hr₁]
    simp only [BlockArray.setNext_next, BlockArray.setLen_next, Function.update_apply]
    rfl
  have hprevAll : ∀ q, (r₂.setPrev p (some cur)).prev q =
      if q = p then some cur else if r.next cur = some q then some p else r.prev q := by
    intro q
    rw [BlockArray.setPrev_prev, Function.update_apply, hprev₂, hr₁]
    simp only [BlockArray.setNext_prev, BlockArray.setLen_prev]
    rfl
  have hsame : SameTail r (r₂.setPrev p (some cur)) :=
    ⟨hlink.same.cap_eq, hlink.same.tlen_eq, hlink.same.tail_eq⟩
  have hne : ∀ q ∈ before ++ cur :: after, q ≠ p := fun q hq h => hnew (h ▸ hq)
  have hsplit : before ++ cur :: after = (before ++ [cur]) ++ after := by simp
  have hgoal : before ++ cur :: p :: after = (before ++ [cur]) ++ p :: after := by simp
  refine ⟨p, r₂.setPrev p (some cur), ?_, hnew, ?_, ?_, hsame, fun q hq => ?_⟩
  · have hread : ((r.setAlloc s).setLen p 0).block cur =
        .ok (((r.setAlloc s).setLen p 0).blocks cur) := by
      simp only [BlockArray.block]
      exact (congrArg (· >>= _) (access_pos (hkept cur hcur))).trans (ok_bind _ _)
    have hfield : (((r.setAlloc s).setLen p 0).blocks cur).next = r.next cur :=
      congrFun (BlockArray.setLen_next (r.setAlloc s) p 0) cur
    simp only [blockAllocEmpty, halloc, ok_bind, linkBlock, hread, hfield, ← hr₁, hset]
  · refine ⟨hlink.alloc_eq ▸ hok, ?_, fun q => ?_, fun q hq => ?_, hsame.cap_eq ▸ inv.cap_pos⟩
    · rw [hgoal]
      rw [hsplit] at hnew hne
      have hlast : (before ++ [cur]).getLast? = some cur := by simp
      refine Chain.insert (hsplit ▸ inv.chain) hnew ?_ ?_ ?_ (fun q hq => ?_) (fun q hq => ?_)
      · rw [hlink.head_eq]
        show r.head = _
        rw [inv.chain.head_eq]
        cases before <;> rfl
      · rw [hnextAll, if_neg (hne cur (by simp)).symm, if_pos rfl, hnext]
      · rw [hprevAll, if_pos rfl, hlast]
      · rw [hnextAll, if_neg (hne q hq), hlast]
        simp only [Option.some.injEq, eq_comm]
      · rw [hprevAll, if_neg (hne q hq), hnext]
    · rw [hlink.alloc_eq]
      show _ ↔ q ∈ A.live s
      rw [hlive, Finset.mem_insert, ← inv.live q]
      simp only [List.mem_append, List.mem_cons]
      tauto
    · rw [hlen, hsame.cap_eq, Function.update_apply]
      split
      · exact Nat.zero_le _
      · next hqp =>
        refine inv.len_le q ?_
        simp only [List.mem_append, List.mem_cons] at hq ⊢
        tauto
  · rw [hlen, Function.update_self]
  · exact bytes_congr (congrFun hdata q) (by rw [hlen, Function.update_of_ne hq])

/-- After `advance` there is room, and the bytes are where they were. -/
theorem advance_spec (inv : Invariant r (before ++ cur :: after)) :
    ∃ cur' r' before', advance r cur = .ok (cur', r') ∧ Invariant r' (before' ++ cur' :: after) ∧
      r'.len cur' < r'.capPerNode ∧ flat r' (before' ++ [cur']) = flat r (before ++ [cur]) ∧
      flat r' after = flat r after ∧ SameTail r r' := by
  have hcur : cur ∈ before ++ cur :: after := by simp
  have hle := inv.len_le cur hcur
  by_cases hfull : r.len cur = r.capPerNode
  · obtain ⟨p, r', halloc, hnew, inv', hlen, hsame, hbytes⟩ := blockAllocEmpty_spec inv
    have hkeep : ∀ q ∈ before ++ cur :: after, bytes r' q = bytes r q := fun q hq =>
      hbytes q fun h => hnew (h ▸ hq)
    refine ⟨p, r', before ++ [cur], ?_, by simpa using inv', ?_, ?_,
      flat_congr fun q hq => hkeep q (by simp [hq]), hsame⟩
    · have hif : (r.blocks cur).len = r.capPerNode := hfull
      simp only [advance, inv.block hcur, ok_bind, if_pos hif, halloc, nonNull]
    · rw [hlen]
      exact inv'.cap_pos
    · have hempty : bytes r' p = [] := List.length_eq_zero_iff.mp (by rw [length_bytes, hlen])
      rw [flat_append, flat_cons, hempty]
      simpa using flat_congr fun q hq => hkeep q (by simp at hq ⊢; tauto)
  · have hif : ¬ (r.blocks cur).len = r.capPerNode := hfull
    refine ⟨cur, r, before, ?_, inv, lt_of_le_of_ne hle hfull, rfl, rfl, .refl r⟩
    simp only [advance, inv.block hcur, ok_bind, if_neg hif]

/-- Bytes stored behind the last byte of a block. -/
theorem append_spec (inv : Invariant r ps) (hp : p ∈ ps) {xs : List UInt8}
    (room : r.len p + xs.length ≤ r.capPerNode) :
    ∃ r', r.storeBytes p (r.len p) xs = .ok r' ∧
      Invariant (r'.setLen p (r.len p + xs.length)) ps ∧
      bytes (r'.setLen p (r.len p + xs.length)) p = bytes r p ++ xs ∧
      (∀ q ≠ p, bytes (r'.setLen p (r.len p + xs.length)) q = bytes r q) ∧
      SameTail r (r'.setLen p (r.len p + xs.length)) := by
  refine ⟨_, inv.storeBytes hp room, (inv.setData _).setLen room, ?_, fun q hq => ?_,
    ⟨rfl, rfl, rfl⟩⟩
  · simp only [bytes, BlockArray.setLen_len, BlockArray.setLen_data, BlockArray.setData_data,
      Function.update_self, load_add, Nat.zero_add, load_store]
    rw [load_store_of_disjoint (.inl (by omega))]
  · refine bytes_congr ?_ ?_
    · simp [hq]
    · simp [hq]

theorem flat_cur (hcur : cur ∉ before) (hbytes : ∀ q ≠ cur, bytes r' q = bytes r q) :
    flat r' (before ++ [cur]) = flat r before ++ bytes r' cur := by
  rw [flat_append, flat_away hcur hbytes, flat_cons, flat_nil, List.append_nil]

/-- All bytes end up behind those of `cur`, in front of the blocks after it. -/
theorem writeOut_spec {n : Nat} {xs : List UInt8} (inv : Invariant r (before ++ cur :: after))
    (enough : xs.length ≤ n) :
    ∃ cur' r' before', writeOut n r cur xs = .ok (cur', r') ∧
      Invariant r' (before' ++ cur' :: after) ∧
      flat r' (before' ++ [cur']) = flat r (before ++ [cur]) ++ xs ∧
      flat r' after = flat r after ∧ SameTail r r' := by
  induction n generalizing r before cur xs with
  | zero =>
    obtain rfl : xs = [] := List.length_eq_zero_iff.mp (by omega)
    exact ⟨cur, r, before, rfl, inv, by simp, rfl, .refl r⟩
  | succ n ih =>
    cases xs with
    | nil => exact ⟨cur, r, before, rfl, inv, by simp, rfl, .refl r⟩
    | cons byte xs =>
      obtain ⟨c, r₁, b, hadv, inv₁, hroom, hflat, hafter, hsame⟩ := advance_spec inv
      obtain ⟨k, hk⟩ : ∃ k, k = min (r₁.capPerNode - r₁.len c) (byte :: xs).length := ⟨_, rfl⟩
      have hpos : 0 < k := by
        rw [hk, List.length_cons]
        omega
      have htake : ((byte :: xs).take k).length = k := by
        rw [List.length_take, Nat.min_eq_left (by omega)]
      have hc : c ∈ b ++ c :: after := by simp
      have room : r₁.len c + ((byte :: xs).take k).length ≤ r₁.capPerNode := by
        rw [htake]
        omega
      obtain ⟨r₂, hstore, inv₂, hbytes, hothers, hsame₂⟩ := append_spec inv₁ hc room
      rw [htake] at inv₂ hbytes hothers hsame₂
      have fewer : ((byte :: xs).drop k).length ≤ n := by
        rw [List.length_drop]
        omega
      obtain ⟨cur', r', before', hrun, inv', hflat', hafter', hsame'⟩ := ih inv₂ fewer
      obtain ⟨hcb, hca⟩ := inv₁.apart
      refine ⟨cur', r', before', ?_, inv', ?_, ?_, (hsame.trans hsame₂).trans hsame'⟩
      · have hlen : (r₁.blocks c).len = r₁.len c := rfl
        have hle : k ≤ (byte :: xs).length := by omega
        simp only [writeOut, hadv, ok_bind, inv₁.block hc, hlen, ← hk, hstore, assert_pos hle,
          hrun]
      · have happend : flat (r₂.setLen c (r₁.len c + k)) (b ++ [c]) =
            flat r₁ (b ++ [c]) ++ (byte :: xs).take k := by
          rw [flat_cur hcb hothers, hbytes, ← List.append_assoc, flat_cur hcb fun _ _ => rfl]
        rw [hflat', happend, hflat, List.append_assoc, List.take_append_drop]
      · rw [hafter', ← hafter]
        exact flat_away hca hothers

/-- The bytes of `cur` from `ofst` on go to `tail`. -/
theorem saveTail_spec (inv : Invariant r ps) (hcur : cur ∈ ps) {ofst : Nat}
    (hofst : ofst ≤ r.len cur) :
    ∃ r', saveTail r cur ofst = .ok r' ∧ Invariant r' ps ∧
      bytes r' cur = (bytes r cur).take ofst ∧ (∀ q ≠ cur, bytes r' q = bytes r q) ∧
      load r'.tail 0 r'.tlen = (bytes r cur).drop ofst ∧ r'.capPerNode = r.capPerNode := by
  have hle := inv.len_le cur hcur
  have htake : (bytes r cur).take ofst = load (r.data cur) 0 ofst := by
    rw [bytes, take_load, Nat.min_eq_left hofst]
  have hdrop : (bytes r cur).drop ofst = load (r.data cur) ofst (r.len cur - ofst) := by
    rw [bytes, drop_load, Nat.zero_add]
  have hlen : (r.blocks cur).len = r.len cur := rfl
  by_cases htail : 0 < r.len cur - ofst
  · obtain ⟨saved, hsaved⟩ : ∃ saved, saved = load (r.data cur) ofst (r.len cur - ofst) :=
      ⟨_, rfl⟩
    have hlength : saved.length = r.len cur - ofst := by rw [hsaved, length_load]
    refine ⟨((r.setTail (store r.tail 0 saved)).setTlen (r.len cur - ofst)).setLen cur ofst, ?_,
      ((inv.setTail _).setTlen _).setLen (le_trans hofst hle), ?_, fun q hq => ?_, ?_, rfl⟩
    · have hroom : r.len cur - ofst ≤ r.capPerNode := by omega
      simp only [saveTail, inv.block hcur, hlen, ok_bind, if_pos htail,
        inv.loadBytes hcur (show ofst + (r.len cur - ofst) ≤ r.capPerNode by omega),
        access_pos hroom, ← hsaved]
    · rw [htake, bytes, BlockArray.setLen_len, BlockArray.setLen_data, Function.update_self]
      rfl
    · refine bytes_congr (by rw [BlockArray.setLen_data]; rfl) ?_
      rw [BlockArray.setLen_len, Function.update_of_ne hq]
      rfl
    · rw [hdrop, ← hsaved]
      show load (store r.tail 0 saved) 0 (r.len cur - ofst) = saved
      rw [← hlength]
      exact load_store
  · refine ⟨r.setTlen (r.len cur - ofst), ?_, inv.setTlen _, ?_, fun _ _ => rfl, ?_, rfl⟩
    · simp only [saveTail, inv.block hcur, hlen, ok_bind, if_neg htail]
    · rw [htake]
      show load (r.data cur) 0 (r.len cur) = _
      rw [show r.len cur = ofst by omega]
    · rw [hdrop]
      show load r.tail 0 (r.len cur - ofst) = _
      rw [show r.len cur - ofst = 0 by omega, load_zero, load_zero]

theorem ensureHead_spec {xs : List UInt8} (rep : Represents r xs) (fits : A.Fits) :
    ∃ head ps r', ensureHead r = .ok (head, r') ∧ Invariant r' (head :: ps) ∧
      flat r' (head :: ps) = xs := by
  obtain ⟨ps, inv, hflat, -⟩ := rep
  cases ps with
  | cons head ps =>
    have hhead : r.head = some head := inv.chain.head_eq
    exact ⟨head, ps, r, by simp only [ensureHead, hhead], inv, hflat⟩
  | nil =>
    have hhead : r.head = none := inv.chain.head_eq
    obtain ⟨p, r', halloc, inv', hlen, -⟩ := blockAllocEmpty_head inv fits
    refine ⟨p, [], r'.setHead (some p), ?_, inv', ?_⟩
    · simp only [ensureHead, hhead, halloc, ok_bind, nonNull]
    · rw [← hflat]
      show load (r'.data p) 0 (r'.len p) ++ [] = []
      rw [hlen, load_zero, List.append_nil]

/-- Without room for a slab there is no first block. -/
theorem ensureHead_fits {xs : List UInt8} (rep : Represents r xs) {head : Nat}
    (hrun : ensureHead r = .ok (head, r')) : A.Fits := by
  obtain ⟨ps, inv, -, -⟩ := rep
  cases ps with
  | cons p ps =>
    exact A.fits_of_live r.blockAlloc p inv.ok ((inv.live p).mp List.mem_cons_self)
  | nil =>
    have hhead : r.head = none := inv.chain.head_eq
    by_contra short
    simp only [ensureHead, hhead] at hrun
    obtain ⟨_, halloc, -⟩ := bind_eq_ok.mp hrun
    obtain ⟨result, halloc, -⟩ := bind_eq_ok.mp halloc
    exact A.alloc_short short r.blockAlloc inv.ok result halloc

/-- The block in which or at whose end the offset lies. -/
theorem seekInsert_spec {n ofst : Nat} (inv : Invariant r (before ++ cur :: after))
    (hofst : ofst ≤ (flat r (cur :: after)).length) (enough : after.length < n) :
    ∃ cur' o before' after', seekInsert r n cur ofst = .ok (cur', o) ∧
      before ++ cur :: after = before' ++ cur' :: after' ∧ o ≤ r.len cur' ∧
      (flat r before).length + ofst = (flat r before').length + o := by
  induction n generalizing before cur after ofst with
  | zero => omega
  | succ n ih =>
    have hcur : cur ∈ before ++ cur :: after := by simp
    have hlen : (r.blocks cur).len = r.len cur := rfl
    by_cases hbeyond : r.len cur < ofst
    · rw [flat_cons, List.length_append, length_bytes] at hofst
      have hnext : (r.blocks cur).next = after.head? := inv.chain.links.2
      cases after with
      | nil => simp at hofst; omega
      | cons q after =>
        have inv' : Invariant r ((before ++ [cur]) ++ q :: after) := by simpa using inv
        have hofst' : ofst - r.len cur ≤ (flat r (q :: after)).length := by omega
        obtain ⟨cur', o, before', after', hrun, hsplit, ho, hsum⟩ :=
          ih inv' hofst' (Nat.lt_of_succ_lt_succ enough)
        refine ⟨cur', o, before', after', ?_, by simpa using hsplit, ho, ?_⟩
        · rw [List.head?_cons] at hnext
          simp only [seekInsert, inv.block hcur, ok_bind, hlen, if_pos hbeyond, hnext, nonNull,
            hrun]
        · rw [flat_append, List.length_append, flat_cons, flat_nil, List.append_nil,
            length_bytes] at hsum
          omega
    · refine ⟨cur, ofst, before, after, ?_, rfl, Nat.le_of_not_lt hbeyond, rfl⟩
      simp only [seekInsert, inv.block hcur, ok_bind, hlen, if_neg hbeyond]

theorem setNext_self (r : BlockArray A) (p : Nat) : r.setNext p (r.next p) = r := by
  have hsame : Function.update r.blocks p (r.blocks p) = r.blocks := Function.update_eq_self p _
  exact congrArg (fun blocks => { r with blocks := blocks }) hsame

/-- `cur` is cut at `ofst`; the new bytes and the old ones follow. -/
theorem spliceAt_spec {ofst : Nat} (src : List UInt8) (inv : Invariant r (before ++ cur :: after))
    (hofst : ofst ≤ r.len cur) :
    ∃ r', spliceAt r cur ofst src = .ok r' ∧
      Represents r' (flat r before ++ (bytes r cur).take ofst ++ src ++
        (bytes r cur).drop ofst ++ flat r after) := by
  have hcur : cur ∈ before ++ cur :: after := by simp
  obtain ⟨hbefore, hafter⟩ := inv.apart
  obtain ⟨r₁, hsave, inv₁, hcut, hothers, htail, -⟩ := saveTail_spec inv hcur hofst
  have hlast : (r₁.blocks cur).next = after.head? := inv₁.chain.links.2
  obtain ⟨c₂, r₂, b₂, hrun₂, inv₂, hflat₂, hafter₂, hsame₂⟩ :=
    writeOut_spec inv₁ (le_refl src.length)
  rw [flat_cur hbefore hothers, hcut] at hflat₂
  have hsaved : load r₂.tail 0 r₂.tlen = (bytes r cur).drop ofst := by
    rw [hsame₂.tail_eq, hsame₂.tlen_eq, htail]
  have hlen : ((bytes r cur).drop ofst).length ≤ r₂.tlen := by rw [← hsaved, length_load]
  obtain ⟨c₃, r₃, b₃, hrun₃, inv₃, hflat₃, hafter₃, -⟩ := writeOut_spec inv₂ hlen
  have hc₃ : c₃ ∈ A.live r₃.blockAlloc := (inv₃.live c₃).mp (by simp)
  have hlink : r₃.setNextOf (some c₃) after.head? = .ok r₃ := by
    have hnext : r₃.next c₃ = after.head? := inv₃.chain.links.2
    simp only [BlockArray.setNextOf, access_pos hc₃, ok_bind, ← hnext, setNext_self]
  refine ⟨r₃.setTlen 0, ?_, _, inv₃.setTlen 0, ?_, rfl⟩
  · simp only [spliceAt, hsave, ok_bind, inv₁.block hcur, hlast, hrun₂, hsaved, hrun₃, hlink]
  · have hkeep : flat r₃ after = flat r after := by
      rw [hafter₃, hafter₂]
      exact flat_away hafter hothers
    have hsplit : b₃ ++ c₃ :: after = (b₃ ++ [c₃]) ++ after := by simp
    show flat r₃ (b₃ ++ c₃ :: after) = _
    rw [hsplit, flat_append, hflat₃, hflat₂, hkeep]

theorem blockArrayInsert_spec {xs src : List UInt8} {ofst : Nat} (rep : Represents r xs)
    (fits : A.Fits) (hofst : ofst ≤ xs.length) (hsrc : src ≠ []) :
    ∃ r', blockArrayInsert r ofst src = .ok r' ∧
      Represents r' (xs.take ofst ++ src ++ xs.drop ofst) := by
  obtain ⟨head, ps, r₁, hhead, inv, hflat⟩ := ensureHead_spec rep fits
  have inv₁ : Invariant r₁ ([] ++ head :: ps) := inv
  rw [← hflat] at hofst
  obtain ⟨cur, o, before, after, hseek, hsplit, ho, hsum⟩ :=
    seekInsert_spec inv₁ hofst (Nat.lt_of_succ_lt inv.length_lt_fuel)
  rw [hsplit] at inv₁
  obtain ⟨r', hrun, rep'⟩ := spliceAt_spec src inv₁ ho
  refine ⟨r', ?_, ?_⟩
  · have hpos : 0 < src.length := List.length_pos_iff.mpr hsrc
    simp only [blockArrayInsert, assert_pos hpos, hhead, ok_bind, hseek, hrun]
  · have hxs : xs = flat r₁ before ++ (bytes r₁ cur ++ flat r₁ after) := by
      rw [← hflat, ← flat_cons, ← flat_append]
      exact congrArg (flat r₁) hsplit
    have hpos : ofst = (flat r₁ before).length + o := by simpa using hsum
    have hle : o ≤ (bytes r₁ cur).length := by rwa [length_bytes]
    rw [hxs, hpos, List.take_length_add_append, List.drop_length_add_append,
      List.take_append_of_le_length hle, List.drop_append_of_le_length hle]
    simpa only [List.append_assoc] using rep'

/-- An insertion that returns had a slab to take blocks from. -/
theorem blockArrayInsert_fits {xs src : List UInt8} {ofst : Nat} (rep : Represents r xs)
    (hrun : blockArrayInsert r ofst src = .ok r') : A.Fits := by
  obtain ⟨_, -, hrun⟩ := bind_eq_ok.mp hrun
  obtain ⟨⟨head, r₁⟩, hhead, -⟩ := bind_eq_ok.mp hrun
  exact ensureHead_fits rep hhead

end BlockArrays
