import CSpecx.ByteStrings

/-!
# Substrings

`string_contains` compares one window of the superset after the other. A window
that leaves the superset is a fault.
-/

namespace StringSearch

open CExec ByteStrings

/-- The string of `n` bytes at `&superset.data[i]`. -/
def window (superset : Str) (i n : Nat) : Outcome Str :=
  if h : i + n ≤ superset.len then
    .ok ⟨n, superset.data.drop i, by
      have hfits := superset.fits
      rw [List.length_drop]
      omega⟩
  else .error .undefined

def containsLoop (superset subset : Str) : Nat → Nat → Outcome Bool
  | 0, _ => .error .fuel
  | fuel + 1, i =>
    if i < superset.len then
      let len := superset.len - i
      if len < subset.len then .ok false
      else do
        let view ← window superset i subset.len
        if ← stringEqual view subset then .ok true
        else containsLoop superset subset fuel (i + 1)
    else .ok false

def stringContains (superset subset : Str) : Outcome Bool :=
  if superset.len = 0 ∧ subset.len = 0 then .ok true
  else containsLoop superset subset (superset.len + 1) 0

/-- The subset stands at `i`. -/
def At (superset subset : Str) (i : Nat) : Prop :=
  i + subset.len ≤ superset.len ∧ (superset.bytes.drop i).take subset.len = subset.bytes

section Search

variable {superset subset : Str}

theorem sharesNul_mem {as bs : List UInt8} (h : SharesNul as bs) : 0 ∈ bs := by
  obtain ⟨p, q, q', -, rfl⟩ := h
  exact List.mem_append_right p List.mem_cons_self

/-- Without a NUL in one of the two, the comparison is exact. -/
theorem stringEqual_of_free {s : Str} (hfree : 0 ∉ subset.bytes) :
    ∃ b, stringEqual s subset = .ok b ∧ (b = true ↔ s.bytes = subset.bytes) := by
  obtain ⟨b, hret, hiff⟩ := stringEqual_eq s subset
  refine ⟨b, hret, hiff.trans ⟨?_, fun heq => ⟨Str.len_eq heq, .inl heq⟩⟩⟩
  rintro ⟨-, heq | hnul⟩
  · exact heq
  · exact absurd (sharesNul_mem hnul) hfree

theorem window_eq {i : Nat} (h : i + subset.len ≤ superset.len) :
    ∃ view, window superset i subset.len = .ok view ∧
      (view.bytes = subset.bytes ↔ At superset subset i) := by
  refine ⟨_, dif_pos h, ?_⟩
  have hbytes : (superset.data.drop i).take subset.len =
      (superset.bytes.drop i).take subset.len := by
    rw [Str.bytes, List.drop_take, List.take_take, Nat.min_eq_left (by omega)]
  rw [At, ← hbytes]
  exact (and_iff_right h).symm

/-- The loop looks at every window from `i` on; behind the first that is too long there
are no others. -/
theorem containsLoop_eq (superset : Str) (hfree : 0 ∉ subset.bytes) (fuel i : Nat)
    (hle : i ≤ superset.len) (hfuel : superset.len < i + fuel) :
    ∃ b, containsLoop superset subset fuel i = .ok b ∧
      (b = true ↔ ∃ j, i ≤ j ∧ j < superset.len ∧ At superset subset j) := by
  induction fuel generalizing i with
  | zero => omega
  | succ fuel ih =>
    rw [containsLoop]
    by_cases hmore : i < superset.len
    · rw [if_pos hmore]
      dsimp only
      by_cases hshort : superset.len - i < subset.len
      · rw [if_pos hshort]
        refine ⟨false, rfl, iff_of_false nofun ?_⟩
        rintro ⟨j, hle, -, hroom, -⟩
        omega
      · rw [if_neg hshort]
        obtain ⟨view, hview, hat⟩ := window_eq (show i + subset.len ≤ superset.len by omega)
        obtain ⟨b, hret, hequal⟩ := stringEqual_of_free (s := view) hfree
        rw [hview, ok_bind, hret, ok_bind]
        cases b with
        | true => exact ⟨true, rfl, iff_of_true rfl ⟨i, le_rfl, hmore, hat.mp (hequal.mp rfl)⟩⟩
        | false =>
          obtain ⟨c, hrest, hiff⟩ := ih (i + 1) hmore (by omega)
          refine ⟨c, hrest, hiff.trans ⟨?_, ?_⟩⟩
          · rintro ⟨j, hle, hj⟩
            exact ⟨j, by omega, hj⟩
          · rintro ⟨j, hle, hlt, hj⟩
            refine ⟨j, Nat.lt_of_le_of_ne hle fun heq => ?_, hlt, hj⟩
            exact Bool.false_ne_true (hequal.mpr (hat.mpr (heq ▸ hj)))
    · rw [if_neg hmore]
      refine ⟨false, rfl, iff_of_false nofun ?_⟩
      rintro ⟨j, hle, hlt, -⟩
      omega

theorem at_zero (hnone : subset.len = 0) : At superset subset 0 := by
  refine ⟨by omega, ?_⟩
  rw [hnone, List.take_zero]
  exact (List.length_eq_zero_iff.mp (subset.length_bytes.trans hnone)).symm

theorem exists_at_iff :
    (∃ i, At superset subset i) ↔ ∃ p q, superset.bytes = p ++ subset.bytes ++ q := by
  constructor
  · rintro ⟨i, -, heq⟩
    refine ⟨superset.bytes.take i, (superset.bytes.drop i).drop subset.len, ?_⟩
    rw [← heq, List.append_assoc, List.take_append_drop, List.take_append_drop]
  · rintro ⟨p, q, heq⟩
    have hlength := congrArg List.length heq
    rw [List.length_append, List.length_append, superset.length_bytes, subset.length_bytes]
      at hlength
    refine ⟨p.length, by omega, ?_⟩
    rw [heq, List.append_assoc, List.drop_left, ← subset.length_bytes, List.take_left]

end Search

/-- The search decides whether the one is an infix of the other. -/
theorem string_contains_iff (superset subset : Str) (hfree : 0 ∉ subset.bytes) :
    (∃ b, stringContains superset subset = .ok b) ∧
    (stringContains superset subset = .ok true ↔
      ∃ p q, superset.bytes = p ++ subset.bytes ++ q) := by
  rw [stringContains, ← exists_at_iff]
  by_cases hempty : superset.len = 0 ∧ subset.len = 0
  · rw [if_pos hempty]
    exact ⟨⟨true, rfl⟩, iff_of_true rfl ⟨0, at_zero hempty.2⟩⟩
  · rw [if_neg hempty]
    obtain ⟨b, hret, hiff⟩ := containsLoop_eq superset hfree (superset.len + 1) 0 (Nat.zero_le _)
      (by omega)
    refine ⟨⟨b, hret⟩, ?_⟩
    rw [hret, Except.ok.injEq, hiff]
    refine ⟨fun ⟨j, _, _, hat⟩ => ⟨j, hat⟩, ?_⟩
    rintro ⟨j, hroom, heq⟩
    by_cases hlast : j < superset.len
    · exact ⟨j, Nat.zero_le j, hlast, hroom, heq⟩
    -- only an empty subset stands at the very end, and it stands at the start as well
    · have hnone : subset.len = 0 := by omega
      exact ⟨0, le_rfl, by omega, at_zero hnone⟩

def foobar : Str := ⟨6, [102, 111, 111, 98, 97, 114], by decide⟩

def bar : Str := ⟨3, [98, 97, 114], by decide⟩

theorem foobar_contains_bar :
    (∃ b, stringContains foobar bar = .ok b) ∧
    (stringContains foobar bar = .ok true ↔ ∃ p q, foobar.bytes = p ++ bar.bytes ++ q) :=
  string_contains_iff foobar bar (by decide)

end StringSearch
