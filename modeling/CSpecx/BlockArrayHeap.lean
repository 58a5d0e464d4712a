import CSpecx.BlockArrays

/-!
# The heap of a block array

The blocks form a chain from `head`, and they are what the allocator has handed
out. The byte sequence is their contents in chain order. Each function that
changes links or contents is described here once.
-/

namespace BlockArrays

open CExec CellMemory LinkedChain

variable {A : BlockAllocator} {r r' : BlockArray A} {p q : Nat} {ps : List Nat}

/-! ## Fields -/

namespace BlockArray

theorem update_next (r : BlockArray A) (q : Nat) (b : Block) :
    (r.update q b).next = Function.update r.next q b.next :=
  Function.comp_update Block.next r.blocks q b

theorem update_prev (r : BlockArray A) (q : Nat) (b : Block) :
    (r.update q b).prev = Function.update r.prev q b.prev :=
  Function.comp_update Block.prev r.blocks q b

theorem update_len (r : BlockArray A) (q : Nat) (b : Block) :
    (r.update q b).len = Function.update r.len q b.len :=
  Function.comp_update Block.len r.blocks q b

theorem update_data (r : BlockArray A) (q : Nat) (b : Block) :
    (r.update q b).data = Function.update r.data q b.data :=
  Function.comp_update Block.data r.blocks q b

section Setters

variable (r : BlockArray A) (q : Nat)

@[simp] theorem setNext_next (v : Option Nat) :
    (r.setNext q v).next = Function.update r.next q v := update_next r q _

@[simp] theorem setNext_prev (v : Option Nat) : (r.setNext q v).prev = r.prev :=
  (update_prev r q _).trans (Function.update_eq_self q r.prev)

@[simp] theorem setNext_len (v : Option Nat) : (r.setNext q v).len = r.len :=
  (update_len r q _).trans (Function.update_eq_self q r.len)

@[simp] theorem setNext_data (v : Option Nat) : (r.setNext q v).data = r.data :=
  (update_data r q _).trans (Function.update_eq_self q r.data)

@[simp] theorem setPrev_next (v : Option Nat) : (r.setPrev q v).next = r.next :=
  (update_next r q _).trans (Function.update_eq_self q r.next)

@[simp] theorem setPrev_prev (v : Option Nat) :
    (r.setPrev q v).prev = Function.update r.prev q v := update_prev r q _

@[simp] theorem setPrev_len (v : Option Nat) : (r.setPrev q v).len = r.len :=
  (update_len r q _).trans (Function.update_eq_self q r.len)

@[simp] theorem setPrev_data (v : Option Nat) : (r.setPrev q v).data = r.data :=
  (update_data r q _).trans (Function.update_eq_self q r.data)

@[simp] theorem setLen_next (v : Nat) : (r.setLen q v).next = r.next :=
  (update_next r q _).trans (Function.update_eq_self q r.next)

@[simp] theorem setLen_prev (v : Nat) : (r.setLen q v).prev = r.prev :=
  (update_prev r q _).trans (Function.update_eq_self q r.prev)

@[simp] theorem setLen_len (v : Nat) :
    (r.setLen q v).len = Function.update r.len q v := update_len r q _

@[simp] theorem setLen_data (v : Nat) : (r.setLen q v).data = r.data :=
  (update_data r q _).trans (Function.update_eq_self q r.data)

@[simp] theorem setData_next (v : Nat → UInt8) : (r.setData q v).next = r.next :=
  (update_next r q _).trans (Function.update_eq_self q r.next)

@[simp] theorem setData_prev (v : Nat → UInt8) : (r.setData q v).prev = r.prev :=
  (update_prev r q _).trans (Function.update_eq_self q r.prev)

@[simp] theorem setData_len (v : Nat → UInt8) : (r.setData q v).len = r.len :=
  (update_len r q _).trans (Function.update_eq_self q r.len)

@[simp] theorem setData_data (v : Nat → UInt8) :
    (r.setData q v).data = Function.update r.data q v := update_data r q _

end Setters

end BlockArray

/-! ## The invariant -/

/-- The chain of the blocks `ps`. -/
structure Invariant (r : BlockArray A) (ps : List Nat) : Prop where
  ok : A.Ok r.blockAlloc
  chain : Chain r.next r.prev r.head ps
  live : ∀ p, p ∈ ps ↔ p ∈ A.live r.blockAlloc
  len_le : ∀ p ∈ ps, r.len p ≤ r.capPerNode
  cap_pos : 0 < r.capPerNode

def bytes (r : BlockArray A) (p : Nat) : List UInt8 := load (r.data p) 0 (r.len p)

@[simp] theorem length_bytes : (bytes r p).length = r.len p := length_load

@[simp] theorem flat_nil : flat r [] = [] := rfl

theorem flat_cons : flat r (p :: ps) = bytes r p ++ flat r ps := rfl

theorem flat_append {ps₁ ps₂ : List Nat} : flat r (ps₁ ++ ps₂) = flat r ps₁ ++ flat r ps₂ :=
  List.flatMap_append

theorem flat_congr (h : ∀ p ∈ ps, bytes r' p = bytes r p) : flat r' ps = flat r ps :=
  List.flatMap_congr h

/-- Blocks apart from the one that changes keep their bytes. -/
theorem flat_away (hp : p ∉ ps) (h : ∀ q ≠ p, bytes r' q = bytes r q) : flat r' ps = flat r ps :=
  flat_congr fun q hq => h q fun heq => hp (heq ▸ hq)

theorem bytes_congr (hdata : r'.data p = r.data p) (hlen : r'.len p = r.len p) :
    bytes r' p = bytes r p := by
  rw [bytes, bytes, hdata, hlen]

theorem flat_setLen {n : Nat} (hp : p ∉ ps) : flat (r.setLen p n) ps = flat r ps :=
  flat_away hp fun q hq => bytes_congr (by simp) (by simp [hq])

theorem Invariant.apart {before after : List Nat} (inv : Invariant r (before ++ p :: after)) :
    p ∉ before ∧ p ∉ after := by
  have hnot := (List.nodup_cons.mp (List.perm_middle.nodup_iff.mp inv.chain.nodup)).1
  rwa [List.mem_append, not_or] at hnot

theorem Invariant.block (inv : Invariant r ps) (hp : p ∈ ps) : r.block p = .ok (r.blocks p) := by
  simp only [BlockArray.block, access_pos ((inv.live p).mp hp), ok_bind]

theorem Invariant.loadBytes (inv : Invariant r ps) (hp : p ∈ ps) {o n : Nat}
    (inside : o + n ≤ r.capPerNode) : r.loadBytes p o n = .ok (load (r.data p) o n) := by
  have hlive := (inv.live p).mp hp
  simp only [BlockArray.loadBytes, access_pos (And.intro hlive inside), ok_bind]

theorem Invariant.storeBytes (inv : Invariant r ps) (hp : p ∈ ps) {o : Nat} {xs : List UInt8}
    (inside : o + xs.length ≤ r.capPerNode) :
    r.storeBytes p o xs = .ok (r.setData p (store (r.data p) o xs)) := by
  have hlive := (inv.live p).mp hp
  simp only [BlockArray.storeBytes, access_pos (And.intro hlive inside), ok_bind]

/-- Contents may change as long as they fit. -/
theorem Invariant.rewrite (inv : Invariant r ps) (halloc : r'.blockAlloc = r.blockAlloc)
    (hcap : r'.capPerNode = r.capPerNode) (hhead : r'.head = r.head) (hnext : r'.next = r.next)
    (hprev : r'.prev = r.prev) (hlen : ∀ p ∈ ps, r'.len p ≤ r.capPerNode) : Invariant r' ps := by
  refine ⟨halloc ▸ inv.ok, ?_, fun p => ?_, hcap ▸ hlen, hcap ▸ inv.cap_pos⟩
  · rw [hnext, hprev, hhead]
    exact inv.chain
  · rw [halloc]
    exact inv.live p

theorem Invariant.setData (inv : Invariant r ps) (v : Nat → UInt8) :
    Invariant (r.setData q v) ps :=
  inv.rewrite rfl rfl rfl (by simp) (by simp) (by simpa using inv.len_le)

theorem Invariant.setLen (inv : Invariant r ps) {v : Nat} (hv : v ≤ r.capPerNode) :
    Invariant (r.setLen q v) ps := by
  refine inv.rewrite rfl rfl rfl (by simp) (by simp) fun p hp => ?_
  by_cases hpq : p = q
  · simpa [hpq] using hv
  · simpa [hpq] using inv.len_le p hp

theorem Invariant.setTail (inv : Invariant r ps) (v : Nat → UInt8) :
    Invariant (r.setTail v) ps := inv.rewrite rfl rfl rfl rfl rfl inv.len_le

theorem Invariant.setTlen (inv : Invariant r ps) (v : Nat) :
    Invariant (r.setTlen v) ps := inv.rewrite rfl rfl rfl rfl rfl inv.len_le

/-! ## Links -/

/-- What insertion and removal of blocks leave alone. -/
structure SameTail (r r' : BlockArray A) : Prop where
  cap_eq : r'.capPerNode = r.capPerNode
  tlen_eq : r'.tlen = r.tlen
  tail_eq : r'.tail = r.tail

theorem SameTail.refl (r : BlockArray A) : SameTail r r := ⟨rfl, rfl, rfl⟩

theorem SameTail.trans {r'' : BlockArray A} (h : SameTail r r') (h' : SameTail r' r'') :
    SameTail r r'' :=
  ⟨h'.cap_eq.trans h.cap_eq, h'.tlen_eq.trans h.tlen_eq, h'.tail_eq.trans h.tail_eq⟩

/-- Only links of blocks differ. -/
structure Relinked (r r' : BlockArray A) : Prop where
  len_eq : r'.len = r.len
  data_eq : r'.data = r.data
  alloc_eq : r'.blockAlloc = r.blockAlloc
  head_eq : r'.head = r.head
  same : SameTail r r'

theorem Relinked.trans {r'' : BlockArray A} (h : Relinked r r') (h' : Relinked r' r'') :
    Relinked r r'' :=
  ⟨h'.len_eq.trans h.len_eq, h'.data_eq.trans h.data_eq, h'.alloc_eq.trans h.alloc_eq,
    h'.head_eq.trans h.head_eq, h.same.trans h'.same⟩

theorem Relinked.bytes (h : Relinked r r') (p : Nat) : bytes r' p = bytes r p :=
  bytes_congr (congrFun h.data_eq p) (congrFun h.len_eq p)

theorem relinked_setNext (r : BlockArray A) (q : Nat) (v : Option Nat) :
    Relinked r (r.setNext q v) := ⟨by simp, by simp, rfl, rfl, ⟨rfl, rfl, rfl⟩⟩

theorem relinked_setPrev (r : BlockArray A) (q : Nat) (v : Option Nat) :
    Relinked r (r.setPrev q v) := ⟨by simp, by simp, rfl, rfl, ⟨rfl, rfl, rfl⟩⟩

theorem setNextOf_spec {q v : Option Nat} (hq : ∀ a, q = some a → a ∈ A.live r.blockAlloc) :
    ∃ r', r.setNextOf q v = .ok r' ∧ Relinked r r' ∧ r'.prev = r.prev ∧
      ∀ a, r'.next a = if q = some a then v else r.next a := by
  cases q with
  | none => exact ⟨r, rfl, ⟨rfl, rfl, rfl, rfl, .refl r⟩, rfl, by simp⟩
  | some q =>
    refine ⟨r.setNext q v, ?_, relinked_setNext r q v, by simp, fun a => ?_⟩
    · simp only [BlockArray.setNextOf, access_pos (hq q rfl), ok_bind]
    · simp [Function.update_apply, eq_comm]

theorem setPrevOf_spec {q v : Option Nat} (hq : ∀ a, q = some a → a ∈ A.live r.blockAlloc) :
    ∃ r', r.setPrevOf q v = .ok r' ∧ Relinked r r' ∧ r'.next = r.next ∧
      ∀ a, r'.prev a = if q = some a then v else r.prev a := by
  cases q with
  | none => exact ⟨r, rfl, ⟨rfl, rfl, rfl, rfl, .refl r⟩, rfl, by simp⟩
  | some q =>
    refine ⟨r.setPrev q v, ?_, relinked_setPrev r q v, by simp, fun a => ?_⟩
    · simp only [BlockArray.setPrevOf, access_pos (hq q rfl), ok_bind]
    · simp [Function.update_apply, eq_comm]

/-- A block array that holds `xs`, between two operations. -/
def Represents (r : BlockArray A) (xs : List UInt8) : Prop :=
  ∃ ps, Invariant r ps ∧ flat r ps = xs ∧ r.tlen = 0

theorem create_represents {A : Nat → Nat → BlockAllocator} {tail : Nat → UInt8}
    {blocks : Nat → Block} {cap : Nat} {b : BlockArray (blocksOf A cap)}
    (init : blockArrayCreate A tail blocks cap = .ok b) : Represents b [] := by
  obtain ⟨_, hcap, init⟩ := bind_eq_ok.mp init
  obtain ⟨_, -, init⟩ := bind_eq_ok.mp init
  obtain ⟨_, -, init⟩ := bind_eq_ok.mp init
  obtain ⟨s, halloc, init⟩ := bind_eq_ok.mp init
  obtain ⟨hok, hnone⟩ := (blocksOf A cap).init_ok s halloc
  rw [← Except.ok.inj init]
  refine ⟨[], ⟨hok, LinkedChain.Chain.empty, fun p => ?_, by simp, assert_eq_ok_iff.mp hcap⟩, rfl,
    rfl⟩
  show p ∈ [] ↔ p ∈ (blocksOf A cap).live s
  simp [hnone]

theorem create_ok {A : Nat → Nat → BlockAllocator} (tail : Nat → UInt8) (blocks : Nat → Block)
    {cap : Nat} {s : (blocksOf A cap).State} (hpos : 0 < cap) (hsize : arrayHeader + cap < 2 ^ 32)
    (hinit : (blocksOf A cap).init = .ok s) :
    blockArrayCreate A tail blocks cap = .ok ⟨s, cap, none, 0, tail, blocks⟩ := by
  have hwhole : u32 (arrayHeader + cap) = arrayHeader + cap := u32_of_lt hsize
  have hfirst : 0 < arrayHeader + cap := Nat.add_pos_right _ hpos
  have hinside : arrayHeader ≤ arrayHeader + cap := Nat.le_add_right _ _
  simp only [blockArrayCreate, hwhole, assert_pos hpos, assert_pos hfirst, access_pos hinside,
    hinit, ok_bind]

/-- The header lies in the block of the array, so its size has not wrapped. -/
theorem create_size {A : Nat → Nat → BlockAllocator} {tail : Nat → UInt8}
    {blocks : Nat → Block} {cap : Nat} {b : BlockArray (blocksOf A cap)} (hcap : cap < 2 ^ 32)
    (init : blockArrayCreate A tail blocks cap = .ok b) : arrayHeader + cap < 2 ^ 32 := by
  obtain ⟨_, -, init⟩ := bind_eq_ok.mp init
  obtain ⟨_, -, init⟩ := bind_eq_ok.mp init
  obtain ⟨_, hinside, -⟩ := bind_eq_ok.mp init
  have hinside : 56 ≤ (56 + cap) % 2 ^ 32 := access_eq_ok_iff.mp hinside
  show 56 + cap < 2 ^ 32
  omega

/-- Blocks and bytes of the chain fit the loop bound. -/
theorem Invariant.fuel_bound (inv : Invariant r ps) :
    (ps.map fun p => r.len p + 1).sum < r.fuel := by
  have hcard : ps.length ≤ (A.live r.blockAlloc).card := by
    rw [← List.toFinset_card_of_nodup inv.chain.nodup]
    exact Finset.card_le_card fun p hp => (inv.live p).mp (List.mem_toFinset.mp hp)
  have hsum : ∀ l : List Nat, (∀ p ∈ l, r.len p ≤ r.capPerNode) →
      (l.map fun p => r.len p + 1).sum ≤ l.length * (r.capPerNode + 1) := by
    intro l hl
    induction l with
    | nil => simp
    | cons a l ih =>
      have ha := hl a List.mem_cons_self
      have htail := ih fun p hp => hl p (List.mem_cons_of_mem a hp)
      simp only [List.map_cons, List.sum_cons, List.length_cons, Nat.succ_mul]
      omega
  have hall := hsum ps inv.len_le
  have hmul := Nat.mul_le_mul_right (r.capPerNode + 1) hcard
  unfold BlockArray.fuel
  omega

theorem Invariant.length_lt_fuel (inv : Invariant r ps) : ps.length < r.fuel := by
  have hle : ∀ l : List Nat, l.length ≤ (l.map fun p => r.len p + 1).sum := by
    intro l
    induction l with
    | nil => simp
    | cons a l ih =>
      simp only [List.length_cons, List.map_cons, List.sum_cons]
      omega
  exact lt_of_le_of_lt (hle ps) inv.fuel_bound

end BlockArrays
