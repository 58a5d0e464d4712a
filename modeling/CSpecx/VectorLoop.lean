import CSpecx.CellMemory
import CSpecx.TransferLoop

/-!
# Transfers over vectors

A vector names a range of cells in one memory. A loop hands a system call the
vectors that are left; behind each call it moves over the cells the call has
filled or taken.
-/

namespace VectorLoop

open CExec CellMemory TransferLoop

variable {α σ : Type}

structure IoVec where
  head : Nat
  len : Nat
  deriving DecidableEq, Repr

def totalLen (iov : List IoVec) : Nat := (iov.map IoVec.len).sum

/-- The offsets of the cells, in order. -/
def cells (iov : List IoVec) : List Nat := iov.flatMap fun v => load id v.head v.len

def gather (m : Nat → α) (iov : List IoVec) : List α := (cells iov).map m

/-- The values go to the first offsets, one to each. -/
def storeAt (m : Nat → α) : List Nat → List α → Nat → α
  | p :: ps, x :: xs => storeAt (Function.update m p x) ps xs
  | _, _ => m

def Inside (size : Nat) (iov : List IoVec) : Prop := ∀ p ∈ cells iov, p < size

instance (size : Nat) (iov : List IoVec) : Decidable (Inside size iov) :=
  inferInstanceAs (Decidable (∀ p ∈ cells iov, p < size))

/-- The inner loop: whole vectors go, the next one is cut at the front. -/
def skip : Nat → List IoVec → List IoVec
  | _, [] => []
  | k, v :: vs =>
    if 0 < k then if v.len ≤ k then skip (k - v.len) vs else ⟨v.head + k, v.len - k⟩ :: vs
    else v :: vs

/-- What an iteration does behind the call: it returns, it breaks, it continues or
it moves over `k` cells. -/
inductive Turn (σ : Type) where
  | ret (code : Int) (s : σ)
  | stop
  | again
  | moved (k : Nat) (s : σ)

/-- The loop from the cursor `c` on. `call` is `none` where the call cannot have
this result, and the loop is where it has not ended or has more results than it used. -/
def loop (size n : Nat) (call : List IoVec → σ → Result → Option (Turn σ))
    (finish : Nat → Outcome Int) :
    Nat → List IoVec → σ → List Result → Option (Outcome (Int × σ))
  | c, _, s, [] => if c < n then none else some (finish c >>= fun code => .ok (code, s))
  | c, iov, s, r :: rs =>
    if c < n then
      if Inside size iov then
        match call iov s r with
        | none => none
        | some (.ret code s') => if rs = [] then some (.ok (code, s')) else none
        | some .stop => if rs = [] then some (finish c >>= fun code => .ok (code, s)) else none
        | some .again => loop size n call finish c iov s rs
        | some (.moved k s') => loop size n call finish (c + k) (skip k iov) s' rs
      else some (.error .undefined)
    else none

/-- A function around the loop, with its assertions on `iovcnt` and `total`. -/
def transferVectors (size : Nat) (call : List IoVec → σ → Result → Option (Turn σ))
    (finish : Nat → Outcome Int) (iov : List IoVec) (s : σ) (rs : List Result) :
    Option (Outcome (Int × σ)) :=
  if 0 < iov.length ∧ iov.length ≤ 2 ∧ 0 < totalLen iov then
    loop size (totalLen iov) call finish 0 iov s rs
  else if rs = [] then some (.error .assertion) else none

/-- After the results the loop is at the cursor, with these vectors and in the state. -/
inductive Reaches (n : Nat) (call : List IoVec → σ → Result → Option (Turn σ))
    (iov₀ : List IoVec) (s₀ : σ) : List Result → Nat → List IoVec → σ → Prop where
  | start : Reaches n call iov₀ s₀ [] 0 iov₀ s₀
  | again {rs : List Result} {c : Nat} {iov : List IoVec} {s : σ} {r : Result} :
      Reaches n call iov₀ s₀ rs c iov s → c < n → call iov s r = some .again →
      Reaches n call iov₀ s₀ (rs ++ [r]) c iov s
  | moved {rs : List Result} {c k : Nat} {iov : List IoVec} {s s' : σ} {r : Result} :
      Reaches n call iov₀ s₀ rs c iov s → c < n → call iov s r = some (.moved k s') →
      Reaches n call iov₀ s₀ (rs ++ [r]) (c + k) (skip k iov) s'

/-- How a run ends: at the end, by `break`, by `return` or in a call with a vector
outside the memory. -/
inductive Ends (size n : Nat) (call : List IoVec → σ → Result → Option (Turn σ))
    (finish : Nat → Outcome Int) (iov₀ : List IoVec) (s₀ : σ) :
    List Result → Outcome (Int × σ) → Prop where
  | finished {rs : List Result} {c : Nat} {iov : List IoVec} {s : σ} :
      Reaches n call iov₀ s₀ rs c iov s → n ≤ c →
      Ends size n call finish iov₀ s₀ rs (finish c >>= fun code => .ok (code, s))
  | stopped {rs : List Result} {c : Nat} {iov : List IoVec} {s : σ} {r : Result} :
      Reaches n call iov₀ s₀ rs c iov s → c < n → call iov s r = some .stop →
      Ends size n call finish iov₀ s₀ (rs ++ [r]) (finish c >>= fun code => .ok (code, s))
  | returned {rs : List Result} {c : Nat} {iov : List IoVec} {s s' : σ} {r : Result} {code : Int} :
      Reaches n call iov₀ s₀ rs c iov s → c < n → call iov s r = some (.ret code s') →
      Ends size n call finish iov₀ s₀ (rs ++ [r]) (.ok (code, s'))
  | outside {rs rs' : List Result} {c : Nat} {iov : List IoVec} {s : σ} :
      Reaches n call iov₀ s₀ rs c iov s → ¬ Inside size iov →
      Ends size n call finish iov₀ s₀ (rs ++ rs') (.error .undefined)

/-- No call moves over more cells than it was handed. -/
def Fits (call : List IoVec → σ → Result → Option (Turn σ)) : Prop :=
  ∀ iov s r k s', call iov s r = some (.moved k s') → k ≤ totalLen iov

section Cells

variable {m : Nat → α} {ps : List Nat} {xs ys : List α} {iov : List IoVec} {v : IoVec} {k j : Nat}

@[simp] theorem totalLen_cons : totalLen (v :: iov) = v.len + totalLen iov := by
  simp [totalLen]

@[simp] theorem cells_cons : cells (v :: iov) = load id v.head v.len ++ cells iov := by
  simp [cells]

@[simp] theorem length_cells : (cells iov).length = totalLen iov := by
  induction iov with
  | nil => rfl
  | cons v vs ih => rw [cells_cons, List.length_append, length_load, ih, totalLen_cons]

theorem cells_skip : cells (skip k iov) = (cells iov).drop k := by
  induction iov generalizing k with
  | nil => simp [skip, cells]
  | cons v vs ih =>
    rw [skip, cells_cons]
    by_cases hk : 0 < k
    · rw [if_pos hk]
      by_cases hwhole : v.len ≤ k
      · have hgone : (load id v.head v.len).drop k = [] := by
          apply List.drop_of_length_le
          rw [length_load]
          exact hwhole
        rw [if_pos hwhole, ih, List.drop_append, length_load, hgone, List.nil_append]
      · rw [if_neg hwhole, cells_cons, List.drop_append_of_le_length, drop_load]
        rw [length_load]
        omega
    · obtain rfl : k = 0 := by omega
      rfl

theorem Inside.skip {size : Nat} (inside : Inside size iov) : Inside size (skip k iov) := by
  intro p hp
  rw [cells_skip] at hp
  exact inside p (List.mem_of_mem_drop hp)

@[simp] theorem storeAt_nil : storeAt m ps [] = m := by
  cases ps <;> rfl

theorem storeAt_append :
    storeAt m ps (xs ++ ys) = storeAt (storeAt m ps xs) (ps.drop xs.length) ys := by
  induction xs generalizing m ps with
  | nil => simp
  | cons x xs ih =>
    cases ps with
    | nil => cases ys <;> rfl
    | cons p ps => exact ih

theorem storeAt_outside (h : j ∉ ps.take xs.length) : storeAt m ps xs j = m j := by
  induction xs generalizing m ps with
  | nil => simp
  | cons x xs ih =>
    cases ps with
    | nil => rfl
    | cons p ps =>
      rw [List.length_cons, List.take_succ_cons, List.mem_cons, not_or] at h
      rw [storeAt, ih h.2, Function.update_of_ne h.1]

theorem storeAt_inside (distinct : ps.Nodup) (hp : k < ps.length) (hx : k < xs.length) :
    storeAt m ps xs ps[k] = xs[k] := by
  induction xs generalizing m ps k with
  | nil => exact absurd hx (Nat.not_lt_zero k)
  | cons x xs ih =>
    cases ps with
    | nil => exact absurd hp (Nat.not_lt_zero k)
    | cons p ps =>
      rw [List.nodup_cons] at distinct
      cases k with
      | zero =>
        have hrest : p ∉ ps.take xs.length := fun h => distinct.1 (List.mem_of_mem_take h)
        rw [List.getElem_cons_zero, storeAt, storeAt_outside hrest, Function.update_self]
        rfl
      | succ k => exact ih distinct.2 (Nat.lt_of_succ_lt_succ hp) (Nat.lt_of_succ_lt_succ hx)

end Cells

section Rules

variable {size n c : Nat} {call : List IoVec → σ → Result → Option (Turn σ)}
  {finish : Nat → Outcome Int} {iov₀ iov : List IoVec} {s₀ s : σ} {rs before : List Result}
  {o : Outcome (Int × σ)}

theorem loop_ends (reaches : Reaches n call iov₀ s₀ before c iov s)
    (hrun : loop size n call finish c iov s rs = some o) :
    Ends size n call finish iov₀ s₀ (before ++ rs) o := by
  induction rs generalizing before c iov s with
  | nil =>
    rw [loop] at hrun
    by_cases hlt : c < n
    · rw [if_pos hlt] at hrun
      cases hrun
    · rw [if_neg hlt] at hrun
      cases hrun
      rw [List.append_nil]
      exact .finished reaches (Nat.not_lt.mp hlt)
  | cons r rs ih =>
    rw [loop] at hrun
    by_cases hlt : c < n
    · rw [if_pos hlt] at hrun
      by_cases hinside : Inside size iov
      · rw [if_pos hinside] at hrun
        cases hcall : call iov s r with
        | none => simp [hcall] at hrun
        | some turn =>
          rw [hcall] at hrun
          cases turn with
          | ret code s' =>
            by_cases hrs : rs = []
            · simp only [hrs, if_true] at hrun
              cases hrun
              rw [hrs]
              exact .returned reaches hlt hcall
            · simp [hrs] at hrun
          | stop =>
            by_cases hrs : rs = []
            · simp only [hrs, if_true] at hrun
              cases hrun
              rw [hrs]
              exact .stopped reaches hlt hcall
            · simp [hrs] at hrun
          | again =>
            have later := ih (reaches.again hlt hcall) hrun
            rwa [List.append_assoc] at later
          | moved k s' =>
            have later := ih (reaches.moved hlt hcall) hrun
            rwa [List.append_assoc] at later
      · rw [if_neg hinside] at hrun
        cases hrun
        exact .outside reaches hinside
    · rw [if_neg hlt] at hrun
      cases hrun

theorem transferVectors_ends (hcnt : 0 < iov₀.length) (htwo : iov₀.length ≤ 2)
    (hn : 0 < totalLen iov₀) (hrun : transferVectors size call finish iov₀ s₀ rs = some o) :
    Ends size (totalLen iov₀) call finish iov₀ s₀ rs o := by
  rw [transferVectors, if_pos ⟨hcnt, htwo, hn⟩] at hrun
  exact loop_ends .start hrun

/-- The vectors that are left are the cells from the cursor on. -/
theorem Reaches.left (reaches : Reaches (totalLen iov₀) call iov₀ s₀ rs c iov s)
    (fits : Fits call) : cells iov = (cells iov₀).drop c ∧ c ≤ totalLen iov₀ := by
  induction reaches with
  | start => exact ⟨rfl, Nat.zero_le _⟩
  | again _ _ _ ih => exact ih
  | @moved rs c k iov s s' r _ hlt hcall ih =>
    obtain ⟨hcells, hle⟩ := ih
    have hk := fits iov s r k s' hcall
    rw [← length_cells, hcells, List.length_drop, length_cells] at hk
    constructor
    · rw [cells_skip, hcells, List.drop_drop]
    · omega

theorem Reaches.inside (reaches : Reaches n call iov₀ s₀ rs c iov s) (inside : Inside size iov₀) :
    Inside size iov := by
  induction reaches with
  | start => exact inside
  | again _ _ _ ih => exact ih
  | moved _ _ _ ih => exact ih.skip

end Rules

end VectorLoop
