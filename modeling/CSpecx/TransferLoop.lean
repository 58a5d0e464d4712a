import CSpecx.CExec

/-!
# Transfer loops

A loop hands a system call what is left of `n` units and adds the result to an
unsigned 64-bit cursor. The results are a list, one for each iteration. A failed
call is the result -1, with the reason in `errno`.
-/

namespace TransferLoop

open CExec

/-- `EINTR`, `EWOULDBLOCK` or another reason. -/
inductive Errno where
  | intr
  | wouldBlock
  | other
  deriving DecidableEq, Repr

inductive Result where
  | count (k : Nat)
  | failed (err : Errno)
  deriving DecidableEq, Repr

def Result.value : Result → Int
  | count k => k
  | failed _ => -1

/-- Addition of a signed value to an unsigned 64-bit one. -/
def add64 (c : Nat) (v : Int) : Nat := ((c + v) % 2 ^ 64).toNat

/-- What an iteration does behind the call: it returns, or it adds the result. -/
inductive Next (σ : Type) where
  | ret (code : Int) (s : σ)
  | add (s : σ)

variable {σ : Type}

/-- The loop from the cursor `c` on. `body` is `none` where the call cannot have
this result, and the loop is where it has not ended or has more results than it used. -/
def run (n : Nat) (body : Nat → σ → Result → Option (Next σ)) (finish : Nat → Int) :
    Nat → σ → List Result → Option (Outcome (Int × σ))
  | c, s, [] => if c < n then none else some (assert (c = n) >>= fun _ => .ok (finish c, s))
  | c, s, r :: rs =>
    if c < n then
      match body c s r with
      | none => none
      | some (.ret code s) => if rs = [] then some (.ok (code, s)) else none
      | some (.add s) => run n body finish (add64 c r.value) s rs
    else none

/-- A function around the loop, with `ASSERT (n > 0)` in front of it. -/
def transferAll (n : Nat) (body : Nat → σ → Result → Option (Next σ)) (finish : Nat → Int) (s : σ)
    (rs : List Result) : Option (Outcome (Int × σ)) :=
  if 0 < n then run n body finish 0 s rs
  else if rs = [] then some (.error .assertion) else none

/-- The sum of the results. -/
def total (rs : List Result) : Int := (rs.map Result.value).sum

/-- A call fails for a reason other than an interruption. -/
def Fails (rs : List Result) : Prop := ∃ err, err ≠ .intr ∧ .failed err ∈ rs

/-- No call is interrupted when the results so far add up to nothing. -/
def Clear (rs : List Result) : Prop :=
  ∀ before after, rs = before ++ .failed .intr :: after → total before ≠ 0

/-- After the results the loop is at the cursor and in the state. -/
inductive Reaches (n : Nat) (body : Nat → σ → Result → Option (Next σ)) (s₀ : σ) :
    List Result → Nat → σ → Prop where
  | start : Reaches n body s₀ [] 0 s₀
  | next {rs : List Result} {c : Nat} {s s' : σ} {r : Result} :
      Reaches n body s₀ rs c s → c < n → body c s r = some (.add s') →
      Reaches n body s₀ (rs ++ [r]) (add64 c r.value) s'

/-- The only failure that does not end the loop is an interruption, and no result
exceeds what is left. -/
structure Resumes (n : Nat) (body : Nat → σ → Result → Option (Next σ)) : Prop where
  count : ∀ c s k s', body c s (.count k) = some (.add s') → k ≤ n - c
  failed : ∀ c s err s', body c s (.failed err) = some (.add s') → err = .intr

section Rules

variable {n c : Nat} {body : Nat → σ → Result → Option (Next σ)} {finish : Nat → Int} {s₀ s : σ}
  {rs before after : List Result} {r : Result} {o : Outcome (Int × σ)}

@[simp] theorem total_nil : total [] = 0 := rfl

theorem total_snoc : total (rs ++ [r]) = total rs + r.value := by simp [total]

theorem not_fails_nil : ¬ Fails [] := by
  rintro ⟨err, -, hmem⟩
  exact absurd hmem List.not_mem_nil

/-- A run stays quiet with a last result that is no failure, or an interruption. -/
theorem not_fails_snoc (h : ¬ Fails rs) (hr : ∀ err, err ≠ .intr → r ≠ .failed err) :
    ¬ Fails (rs ++ [r]) := by
  rintro ⟨err, hne, hmem⟩
  rcases List.mem_append.mp hmem with hmem | hmem
  · exact h ⟨err, hne, hmem⟩
  · exact hr err hne (List.mem_singleton.mp hmem).symm

theorem fails_snoc {err : Errno} (hne : err ≠ .intr) : Fails (rs ++ [.failed err]) :=
  ⟨err, hne, List.mem_append_right _ (List.mem_singleton_self _)⟩

theorem add64_count {k : Nat} (h : c + k < 2 ^ 64) : add64 c k = c + k := by
  unfold add64
  omega

theorem add64_back (hpos : 0 < c) (h : c < 2 ^ 64) : add64 c (-1) = c - 1 := by
  unfold add64
  omega

theorem add64_wrapped : add64 0 (-1) = 2 ^ 64 - 1 := by decide

theorem Clear.of_append (clear : Clear (rs ++ after)) : Clear rs := by
  rintro before rest rfl
  exact clear before (rest ++ after) (by simp)

/-- An interruption in the list is before its last result or the last one itself. -/
theorem clear_snoc : Clear (rs ++ [r]) ↔ Clear rs ∧ (r = .failed .intr → total rs ≠ 0) := by
  constructor
  · intro clear
    refine ⟨clear.of_append, ?_⟩
    rintro rfl
    exact clear rs [] rfl
  · rintro ⟨clear, hlast⟩ before after heq
    rcases List.eq_nil_or_concat after with rfl | ⟨rest, r', rfl⟩
    · obtain ⟨rfl, hr⟩ := List.append_inj' heq rfl
      exact hlast (List.singleton_inj.mp hr)
    · rw [List.concat_eq_append, ← List.cons_append, ← List.append_assoc] at heq
      obtain ⟨rfl, -⟩ := List.append_inj' heq rfl
      exact clear before rest rfl

theorem clear_of_notMem (h : .failed .intr ∉ rs) : Clear rs := by
  rintro before after rfl
  exact absurd (by simp) h

/-- A run ends where the cursor reaches the end or an iteration returns. -/
theorem run_cases (reaches : Reaches n body s₀ before c s)
    (hrun : run n body finish c s rs = some o) :
    (∃ c' s', Reaches n body s₀ (before ++ rs) c' s' ∧ n ≤ c' ∧
        o = (assert (c' = n) >>= fun _ => .ok (finish c', s'))) ∨
      ∃ init r c' s' code s'', before ++ rs = init ++ [r] ∧ Reaches n body s₀ init c' s' ∧ c' < n ∧
        body c' s' r = some (.ret code s'') ∧ o = .ok (code, s'') := by
  induction rs generalizing before c s with
  | nil =>
    by_cases hlt : c < n
    · simp [run, hlt] at hrun
    · rw [run, if_neg hlt] at hrun
      left
      refine ⟨c, s, ?_, Nat.not_lt.mp hlt, (Option.some.inj hrun).symm⟩
      rwa [List.append_nil]
  | cons r rs ih =>
    by_cases hlt : c < n
    · rw [run, if_pos hlt] at hrun
      cases hbody : body c s r with
      | none => simp [hbody] at hrun
      | some next =>
        rw [hbody] at hrun
        cases next with
        | ret code s' =>
          by_cases hrs : rs = []
          · simp only [hrs, if_true] at hrun
            right
            refine ⟨before, r, c, s, code, s', ?_, reaches, hlt, hbody, (Option.some.inj hrun).symm⟩
            rw [hrs]
          · simp [hrs] at hrun
        | add s' =>
          have later := ih (reaches.next hlt hbody) hrun
          rwa [List.append_assoc] at later
    · simp [run, hlt] at hrun

theorem transferAll_cases (hn : 0 < n) (hrun : transferAll n body finish s rs = some o) :
    (∃ c' s', Reaches n body s rs c' s' ∧ n ≤ c' ∧
        o = (assert (c' = n) >>= fun _ => .ok (finish c', s'))) ∨
      ∃ init r c' s' code s'', rs = init ++ [r] ∧ Reaches n body s init c' s' ∧ c' < n ∧
        body c' s' r = some (.ret code s'') ∧ o = .ok (code, s'') := by
  rw [transferAll, if_pos hn] at hrun
  exact run_cases .start hrun

theorem Reaches.of_nil (reaches : Reaches n body s₀ rs c s) (hrs : rs = []) : c = 0 ∧ s = s₀ := by
  cases reaches with
  | start => exact ⟨rfl, rfl⟩
  | next => exact absurd hrs (List.append_ne_nil_of_right_ne_nil _ (List.cons_ne_nil _ _))

theorem Reaches.quiet (reaches : Reaches n body s₀ rs c s) (resumes : Resumes n body) :
    ¬ Fails rs := by
  induction reaches with
  | start => exact not_fails_nil
  | @next rs c s s' r reaches hlt hbody ih =>
    apply not_fails_snoc ih
    rintro err hne rfl
    exact hne (resumes.failed c s err s' hbody)

/-- The cursor is the sum of the results until an interruption wraps it. -/
theorem Reaches.cursor (reaches : Reaches n body s₀ rs c s) (resumes : Resumes n body)
    (hn : n < 2 ^ 63) : ((c : Int) = total rs ∧ c ≤ n ∧ Clear rs) ∨ (n < c ∧ ¬ Clear rs) := by
  induction reaches with
  | start => exact .inl ⟨rfl, Nat.zero_le n, clear_of_notMem List.not_mem_nil⟩
  | @next rs c s s' r reaches hlt hbody ih =>
    obtain ⟨hc, -, clear⟩ : (c : Int) = total rs ∧ c ≤ n ∧ Clear rs := by
      rcases ih with h | h
      · exact h
      · omega
    cases r with
    | count k =>
      have hk := resumes.count c s k s' hbody
      have hcursor : add64 c (Result.count k).value = c + k := add64_count (by omega)
      left
      refine ⟨?_, by omega, clear_snoc.mpr ⟨clear, Result.noConfusion⟩⟩
      rw [hcursor, total_snoc, ← hc]
      rfl
    | failed err =>
      obtain rfl := resumes.failed c s err s' hbody
      rcases Nat.eq_zero_or_pos c with rfl | hpos
      · have hcursor : add64 0 (Result.failed .intr).value = 2 ^ 64 - 1 := add64_wrapped
        right
        refine ⟨by omega, fun hclear => ?_⟩
        exact (clear_snoc.mp hclear).2 rfl hc.symm
      · have hcursor : add64 c (Result.failed .intr).value = c - 1 := add64_back hpos (by omega)
        left
        refine ⟨?_, by omega, clear_snoc.mpr ⟨clear, fun _ => by omega⟩⟩
        rw [hcursor, total_snoc, ← hc, Result.value]
        omega

end Rules

end TransferLoop
