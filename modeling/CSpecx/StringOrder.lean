import CSpecx.ByteStrings

/-!
# The order of the strings

Each comparison runs `memcmp` over the shorter length and then looks at the
lengths. They are one lexicographic order on the bytes.
-/

namespace StringOrder

open CExec ByteStrings

def stringLessString (left right : Str) : Outcome Bool := do
  let minLen := if left.len < right.len then left.len else right.len
  let cmp ← memcmp left.data right.data minLen
  if cmp = .lt then .ok true
  else if cmp = .gt then .ok false
  else .ok (left.len < right.len)

def stringGreaterString (left right : Str) : Outcome Bool := do
  let minLen := if left.len < right.len then left.len else right.len
  let cmp ← memcmp left.data right.data minLen
  if cmp = .gt then .ok true
  else if cmp = .lt then .ok false
  else .ok (left.len > right.len)

def stringLessEqualString (left right : Str) : Outcome Bool := do
  let greater ← stringGreaterString left right
  .ok (!greater)

def stringGreaterEqualString (left right : Str) : Outcome Bool := do
  let less ← stringLessString left right
  .ok (!less)

/-- The first bytes that differ decide, and a proper prefix comes first. -/
def Precedes (s t : Str) : Prop := List.Lex (· < ·) s.bytes t.bytes

instance (s t : Str) : Decidable (Precedes s t) := inferInstanceAs (Decidable (s.bytes < t.bytes))

section Compare

theorem compareBytes_nil (bs : List UInt8) : compareBytes [] bs = .eq := by
  cases bs <;> rfl

theorem compareBytes_take (as bs : List UInt8) :
    compareBytes (as.take (min as.length bs.length)) (bs.take (min as.length bs.length)) =
      compareBytes as bs := by
  induction as generalizing bs with
  | nil => rw [List.take_nil, compareBytes_nil, compareBytes_nil]
  | cons a as ih =>
    cases bs with
    | nil => rfl
    | cons b bs =>
      rw [List.length_cons, List.length_cons, Nat.succ_min_succ, List.take_succ_cons,
        List.take_succ_cons, compareBytes, compareBytes, ih]

theorem compareBytes_swap (as bs : List UInt8) :
    compareBytes bs as = (compareBytes as bs).swap := by
  induction as generalizing bs with
  | nil => cases bs <;> rfl
  | cons a as ih =>
    cases bs with
    | nil => rfl
    | cons b bs =>
      rw [compareBytes, compareBytes]
      split_ifs with hba hab
      · exact absurd hba (UInt8.lt_asymm hab)
      · rfl
      · rfl
      · exact ih bs

theorem lex_iff (as bs : List UInt8) :
    List.Lex (· < ·) as bs ↔
      compareBytes as bs = .lt ∨ compareBytes as bs = .eq ∧ as.length < bs.length := by
  induction as generalizing bs with
  | nil =>
    cases bs with
    | nil => exact iff_of_false nofun (by decide)
    | cons b bs => exact iff_of_true .nil (.inr ⟨rfl, Nat.succ_pos _⟩)
  | cons a as ih =>
    cases bs with
    | nil => exact iff_of_false nofun fun h => h.elim nofun fun h => Nat.not_lt_zero _ h.2
    | cons b bs =>
      rw [List.cons_lex_cons_iff, compareBytes, ih, List.length_cons, List.length_cons,
        Nat.succ_lt_succ_iff]
      split_ifs with hlt hgt
      · exact iff_of_true (.inl hlt) (.inl rfl)
      · refine iff_of_false (fun h => ?_) (by simp)
        obtain h | ⟨rfl, -⟩ := h
        · exact hlt h
        · exact UInt8.lt_irrefl _ hgt
      · exact (or_iff_right hlt).trans (and_iff_right (eq_of_not_lt hlt hgt))

theorem memcmp_min (s t : Str) :
    memcmp s.data t.data (if s.len < t.len then s.len else t.len) =
      .ok (compareBytes s.bytes t.bytes) := by
  have hmin : (if s.len < t.len then s.len else t.len) = min s.len t.len := by
    split <;> omega
  have hs := s.fits
  have ht := t.fits
  have htake := compareBytes_take s.bytes t.bytes
  rw [s.length_bytes, t.length_bytes] at htake
  rw [hmin, memcmp, access_pos (by omega), ok_bind, access_pos (by omega), ok_bind, ← htake,
    Str.bytes, Str.bytes, List.take_take, List.take_take, Nat.min_eq_left (Nat.min_le_left _ _),
    Nat.min_eq_left (Nat.min_le_right _ _)]

theorem precedes_iff (s t : Str) : Precedes s t ↔
    compareBytes s.bytes t.bytes = .lt ∨ compareBytes s.bytes t.bytes = .eq ∧ s.len < t.len := by
  rw [Precedes, lex_iff, s.length_bytes, t.length_bytes]

theorem stringLessString_eq (s t : Str) : stringLessString s t = .ok (decide (Precedes s t)) := by
  have hiff := precedes_iff s t
  rw [stringLessString, memcmp_min, ok_bind]
  cases hcmp : compareBytes s.bytes t.bytes <;> simp [hiff, hcmp]

theorem stringGreaterString_eq (s t : Str) :
    stringGreaterString s t = .ok (decide (Precedes t s)) := by
  have hiff := precedes_iff t s
  rw [compareBytes_swap s.bytes] at hiff
  rw [stringGreaterString, memcmp_min, ok_bind]
  cases hcmp : compareBytes s.bytes t.bytes <;> simp [hiff, hcmp]

end Compare

section Order

variable {s t u : Str}

theorem precedes_irrefl (s : Str) : ¬ Precedes s s :=
  List.lex_irrefl UInt8.lt_irrefl s.bytes

theorem precedes_trans (hst : Precedes s t) (htu : Precedes t u) : Precedes s u :=
  List.lex_trans UInt8.lt_trans hst htu

theorem precedes_asymm (h : Precedes s t) : ¬ Precedes t s :=
  fun hback => precedes_irrefl s (precedes_trans h hback)

/-- Neither comes first only where every byte agrees. -/
theorem precedes_total (s t : Str) :
    Precedes s t ∨ Precedes t s ∨ s.len = t.len ∧ s.bytes = t.bytes := by
  rw [precedes_iff, precedes_iff, compareBytes_swap s.bytes t.bytes]
  cases hcmp : compareBytes s.bytes t.bytes with
  | lt => exact .inl (.inl rfl)
  | gt => exact .inr (.inl (.inl rfl))
  | eq =>
    obtain hlt | heq | hgt := Nat.lt_trichotomy s.len t.len
    · exact .inl (.inr ⟨rfl, hlt⟩)
    · have hlength : s.bytes.length = t.bytes.length := by rw [s.length_bytes, t.length_bytes, heq]
      exact .inr (.inr ⟨heq, (compareBytes_eq_iff hlength).mp hcmp⟩)
    · exact .inr (.inl (.inr ⟨rfl, hgt⟩))

theorem not_precedes_iff :
    ¬ Precedes t s ↔ Precedes s t ∨ s.len = t.len ∧ s.bytes = t.bytes := by
  constructor
  · intro h
    exact (precedes_total s t).imp_right fun hrest => hrest.resolve_left h
  · rintro (h | ⟨-, heq⟩)
    · exact precedes_asymm h
    · unfold Precedes
      rw [heq]
      exact precedes_irrefl t

end Order

/-- The four comparisons are one total order. -/
theorem string_order (s t u : Str) :
    stringLessString s t = .ok (decide (Precedes s t)) ∧
    ¬ Precedes s s ∧ (Precedes s t → Precedes t u → Precedes s u) ∧
    (Precedes s t ∨ Precedes t s ∨ s.len = t.len ∧ s.bytes = t.bytes) ∧
    stringGreaterString s t = stringLessString t s ∧
    stringLessEqualString s t =
      .ok (decide (Precedes s t ∨ s.len = t.len ∧ s.bytes = t.bytes)) ∧
    stringGreaterEqualString s t = stringLessEqualString t s := by
  refine ⟨stringLessString_eq s t, precedes_irrefl s, precedes_trans,
    precedes_total s t, ?_, ?_, ?_⟩
  · rw [stringGreaterString_eq, stringLessString_eq]
  · rw [stringLessEqualString, stringGreaterString_eq, ok_bind,
      ← decide_eq_decide.mpr not_precedes_iff, decide_not]
  · rw [stringGreaterEqualString, stringLessEqualString, stringLessString_eq,
      stringGreaterString_eq]

end StringOrder
