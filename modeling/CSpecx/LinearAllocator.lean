import CSpecx.Errors

/-!
# The linear allocator

`lalloc.c`. Assertions are compiled into the debug build only. A pointer is an
address, and `NULL` is 0. Only `lcalloc` touches the region; its `memset` is
checked to stay inside, and the bytes are not modelled.
-/

namespace LinearAllocator

open CExec Errors

/-- With or without `NDEBUG`. -/
inductive Build where
  | debug
  | release
  deriving DecidableEq, Repr

/-- `ASSERT` and `DBG_ASSERT`. -/
def Build.check (build : Build) (p : Prop) [Decidable p] : Outcome Unit :=
  match build with
  | .debug => assert p
  | .release => .ok ()

/-- `error_causef` on a pointer that may be `NULL`. -/
def causef (e : Option ErrorObject) (c : Int) (msg : Message) : Option ErrorObject :=
  e.map fun e => (errorCausef e c msg).2

structure Lalloc where
  used : Nat
  limit : Nat
  data : Nat
  deriving DecidableEq, Repr

/-- The predicate of `lalloc_assert__`. -/
def Lalloc.Valid (a : Lalloc) : Prop := 0 < a.data ∧ a.used ≤ a.limit

instance (a : Lalloc) : Decidable a.Valid := inferInstanceAs (Decidable (_ ∧ _))

def lallocCreate (build : Build) (data limit : Nat) : Outcome Lalloc := do
  build.check (0 < limit)
  build.check (Lalloc.Valid { used := 0, limit := limit, data := data })
  .ok { used := 0, limit := limit, data := data }

def lmalloc (build : Build) (a : Lalloc) (req size : Nat) (e : Option ErrorObject) :
    Outcome (Option Nat × Lalloc × Option ErrorObject) := do
  build.check a.Valid
  build.check (0 < req)
  build.check (0 < size)
  if 2 ^ 32 ≤ req * size then
    .ok (none, a, causef e errNomem ⟨"alloc %d*%d: overflow", [req, size]⟩)
  else if sub32 a.limit a.used ≤ req * size then
    .ok (none, a, causef e errNomem ⟨"linear alloc %d bytes: only %d remaining",
      [(req * size : Nat), (sub32 a.limit a.used : Nat)]⟩)
  else
    .ok (some (a.data + a.used), { a with used := u32 (a.used + req * size) }, e)

def lcalloc (build : Build) (a : Lalloc) (req size : Nat) (e : Option ErrorObject) :
    Outcome (Option Nat × Lalloc × Option ErrorObject) := do
  let (ret, a, e) ← lmalloc build a req size e
  match ret with
  | none => .ok (none, a, e)
  | some ptr => do
    access (a.data ≤ ptr ∧ ptr + u32 (req * size) ≤ a.data + a.limit)
    .ok (some ptr, a, e)

def lallocGetState (a : Lalloc) : Nat := a.used

def lallocResetToState (a : Lalloc) (state : Nat) : Lalloc := { a with used := state }

def lallocReset (build : Build) (a : Lalloc) : Outcome Lalloc := do
  build.check a.Valid
  .ok { a with used := 0 }

section Rules

variable {build : Build} {p : Prop} [Decidable p] {a a' : Lalloc} {req size ptr : Nat}
  {e e' : Option ErrorObject}

/-- Only the debug build looks. -/
@[simp] theorem check_eq_ok_iff {u : Unit} : build.check p = .ok u ↔ (build = .debug → p) := by
  cases build with
  | debug => exact assert_eq_ok_iff.trans ⟨fun h _ => h, fun h => h rfl⟩
  | release => exact iff_of_true rfl fun h => Build.noConfusion h

theorem check_pos (h : build = .debug → p) : build.check p = .ok () := check_eq_ok_iff.mpr h

/-- A request that leaves a byte is served. -/
theorem lmalloc_fits (valid : a.Valid) (hlimit : a.limit < 2 ^ 32)
    (hpos : build = .debug → 0 < req ∧ 0 < size) (hfits : req * size < a.limit - a.used) :
    lmalloc build a req size e =
      .ok (some (a.data + a.used), { a with used := a.used + req * size }, e) := by
  have hused := valid.2
  have havail : sub32 a.limit a.used = a.limit - a.used := sub32_of_le hused hlimit
  rw [lmalloc, check_pos fun _ => valid, ok_bind, check_pos fun h => (hpos h).1, ok_bind,
    check_pos fun h => (hpos h).2, ok_bind, if_neg (by omega), havail, if_neg (by omega),
    u32_of_lt (by omega)]

/-- A request that leaves no byte is refused. -/
theorem lmalloc_full (valid : a.Valid) (hlimit : a.limit < 2 ^ 32)
    (hpos : build = .debug → 0 < req ∧ 0 < size) (hfull : a.limit - a.used ≤ req * size) :
    ∃ e', lmalloc build a req size e = .ok (none, a, e') := by
  have havail : sub32 a.limit a.used = a.limit - a.used := sub32_of_le valid.2 hlimit
  rw [lmalloc, check_pos fun _ => valid, ok_bind, check_pos fun h => (hpos h).1, ok_bind,
    check_pos fun h => (hpos h).2, ok_bind, havail]
  by_cases hover : 2 ^ 32 ≤ req * size
  · rw [if_pos hover]
    exact ⟨_, rfl⟩
  · rw [if_neg hover, if_pos hfull]
    exact ⟨_, rfl⟩

/-- What a call that returns did. -/
theorem lmalloc_cases {res : Option Nat} (hused : a.used ≤ a.limit) (hlimit : a.limit < 2 ^ 32)
    (hrun : lmalloc build a req size e = .ok (res, a', e')) :
    (req * size < a.limit - a.used ∧ res = some (a.data + a.used) ∧
      a' = { a with used := a.used + req * size } ∧ (build = .debug → 0 < req ∧ 0 < size)) ∨
    (a.limit - a.used ≤ req * size ∧ res = none ∧ a' = a) := by
  have havail : sub32 a.limit a.used = a.limit - a.used := sub32_of_le hused hlimit
  obtain ⟨_, -, hrun⟩ := bind_eq_ok.mp hrun
  obtain ⟨_, hreq, hrun⟩ := bind_eq_ok.mp hrun
  obtain ⟨_, hsize, hrun⟩ := bind_eq_ok.mp hrun
  rw [check_eq_ok_iff] at hreq hsize
  rw [havail] at hrun
  split at hrun
  · next hover =>
    obtain ⟨rfl, hstate, -⟩ := ok_triple_inj hrun
    exact Or.inr ⟨by omega, rfl, hstate.symm⟩
  · split at hrun
    · next hfull =>
      obtain ⟨rfl, hstate, -⟩ := ok_triple_inj hrun
      exact Or.inr ⟨hfull, rfl, hstate.symm⟩
    · next hover hroom =>
      obtain ⟨rfl, hstate, -⟩ := ok_triple_inj hrun
      rw [u32_of_lt (by omega)] at hstate
      exact Or.inl ⟨by omega, rfl, hstate.symm, fun h => ⟨hreq h, hsize h⟩⟩

end Rules

end LinearAllocator
