import CSpecx.CExec
import Mathlib.Data.List.Nodup

/-!
# Strings with a length

`struct string` is a length and a pointer, and its bytes need not end with a
NUL. `memcmp` compares all of them and `strncmp` those in front of the first
common NUL. Only the sign of what the two return is specified.
-/

namespace ByteStrings

open CExec

/-- `struct string`; `data` is what can be read from the pointer on. -/
structure Str where
  len : Nat
  data : List UInt8
  fits : len ≤ data.length

def Str.bytes (s : Str) : List UInt8 := s.data.take s.len

def compareBytes : List UInt8 → List UInt8 → Ordering
  | a :: as, b :: bs => if a < b then .lt else if b < a then .gt else compareBytes as bs
  | _, _ => .eq

def memcmp (a b : List UInt8) (n : Nat) : Outcome Ordering := do
  access (n ≤ a.length)
  access (n ≤ b.length)
  .ok (compareBytes (a.take n) (b.take n))

/-- Nothing behind a difference or a common NUL is read. -/
def strncmp : List UInt8 → List UInt8 → Nat → Outcome Ordering
  | _, _, 0 => .ok .eq
  | a :: as, b :: bs, n + 1 =>
    if a < b then .ok .lt
    else if b < a then .ok .gt
    else if a = 0 then .ok .eq
    else strncmp as bs n
  | _, _, _ + 1 => .error .undefined

def stringEqual (s1 s2 : Str) : Outcome Bool :=
  if s1.len ≠ s2.len then .ok false
  else do
    let cmp ← strncmp s1.data s2.data s1.len
    .ok (cmp = .eq)

/-- The inner loop of `strings_all_unique`. -/
def repeated (s : Str) : List Str → Outcome Bool
  | [] => .ok false
  | t :: rest =>
    if s.len ≠ t.len then repeated s rest
    else do
      let cmp ← memcmp s.data t.data s.len
      if cmp = .eq then .ok true else repeated s rest

def stringsAllUnique : List Str → Outcome Int
  | [] => .ok 1
  | s :: rest => do
    if ← repeated s rest then .ok 0 else stringsAllUnique rest

/-- The inner loop of `strings_are_disjoint`. -/
def meets (s : Str) : List Str → Outcome Bool
  | [] => .ok false
  | t :: rest => do
    if ← stringEqual s t then .ok true else meets s rest

def disjointLoop (right : List Str) : Nat → List Str → Outcome (Option Nat)
  | _, [] => .ok none
  | i, s :: rest => do
    if ← meets s right then .ok (some i) else disjointLoop right (i + 1) rest

/-- `some i` is the pointer `&left[i]`, and `none` is `NULL`. -/
def stringsAreDisjoint (left right : List Str) : Outcome (Option Nat) := disjointLoop right 0 left

/-! ## The two comparisons -/

/-- A NUL in both, behind the same bytes. -/
def SharesNul (a b : List UInt8) : Prop := ∃ p q q', a = p ++ 0 :: q ∧ b = p ++ 0 :: q'

section Compare

variable {a b : UInt8} {as bs : List UInt8} {s t : Str}

theorem Str.length_bytes (s : Str) : s.bytes.length = s.len := by
  rw [Str.bytes, List.length_take, Nat.min_eq_left s.fits]

theorem Str.len_eq (h : s.bytes = t.bytes) : s.len = t.len := by
  rw [← s.length_bytes, ← t.length_bytes, h]

theorem eq_of_not_lt (hlt : ¬ a < b) (hgt : ¬ b < a) : a = b :=
  UInt8.le_antisymm (UInt8.not_lt.mp hgt) (UInt8.not_lt.mp hlt)

theorem compareBytes_eq_iff (h : as.length = bs.length) : compareBytes as bs = .eq ↔ as = bs := by
  induction as generalizing bs with
  | nil =>
    obtain rfl := List.length_eq_zero_iff.mp h.symm
    exact iff_of_true rfl rfl
  | cons a as ih =>
    cases bs with
    | nil => cases h
    | cons b bs =>
      rw [compareBytes, List.cons.injEq]
      split_ifs with hlt hgt
      · exact iff_of_false nofun fun h => UInt8.ne_of_lt hlt h.1
      · exact iff_of_false nofun fun h => UInt8.ne_of_lt hgt h.1.symm
      · have heq : a = b := eq_of_not_lt hlt hgt
        rw [ih (Nat.succ.inj h)]
        exact (and_iff_right heq).symm

theorem memcmp_eq (hlen : s.len = t.len) :
    memcmp s.data t.data s.len = .ok (compareBytes s.bytes t.bytes) := by
  rw [memcmp, access_pos s.fits, ok_bind, access_pos (hlen ▸ t.fits), ok_bind, Str.bytes, Str.bytes,
    ← hlen]

theorem sharesNul_cons :
    SharesNul (a :: as) (b :: bs) ↔ a = b ∧ (a = 0 ∨ SharesNul as bs) := by
  constructor
  · rintro ⟨p, q, q', ha, hb⟩
    cases p with
    | nil =>
      cases ha
      cases hb
      exact ⟨rfl, .inl rfl⟩
    | cons c p =>
      cases ha
      cases hb
      exact ⟨rfl, .inr ⟨p, q, q', rfl, rfl⟩⟩
  · rintro ⟨rfl, rfl | ⟨p, q, q', rfl, rfl⟩⟩
    · exact ⟨[], as, bs, rfl, rfl⟩
    · exact ⟨a :: p, q, q', rfl, rfl⟩

/-- A comparison that is not stopped early reads `n` bytes of both. -/
theorem strncmp_eq (n : Nat) (ha : n ≤ as.length) (hb : n ≤ bs.length) :
    ∃ cmp, strncmp as bs n = .ok cmp ∧
      (cmp = .eq ↔ as.take n = bs.take n ∨ SharesNul (as.take n) (bs.take n)) := by
  induction n generalizing as bs with
  | zero => exact ⟨.eq, by rw [strncmp], iff_of_true rfl (.inl rfl)⟩
  | succ n ih =>
    obtain ⟨a, as, rfl⟩ := List.exists_cons_of_length_pos (Nat.lt_of_lt_of_le n.succ_pos ha)
    obtain ⟨b, bs, rfl⟩ := List.exists_cons_of_length_pos (Nat.lt_of_lt_of_le n.succ_pos hb)
    rw [strncmp, List.take_succ_cons, List.take_succ_cons, List.cons.injEq, sharesNul_cons]
    split_ifs with hlt hgt hnul
    · exact ⟨_, rfl, iff_of_false nofun fun h => UInt8.ne_of_lt hlt (h.elim And.left And.left)⟩
    · exact ⟨_, rfl, iff_of_false nofun
        fun h => (UInt8.ne_of_lt hgt).symm (h.elim And.left And.left)⟩
    · have heq : a = b := eq_of_not_lt hlt hgt
      exact ⟨_, rfl, iff_of_true rfl (.inr ⟨heq, .inl hnul⟩)⟩
    · have heq : a = b := eq_of_not_lt hlt hgt
      obtain ⟨cmp, hcmp, hiff⟩ := ih (Nat.le_of_succ_le_succ ha) (Nat.le_of_succ_le_succ hb)
      refine ⟨cmp, hcmp, hiff.trans ?_⟩
      simp only [heq, true_and, heq ▸ hnul, false_or]

/-- Equal bytes, or bytes that are told apart behind a common NUL only. -/
theorem stringEqual_eq (s t : Str) :
    ∃ b, stringEqual s t = .ok b ∧
      (b = true ↔ s.len = t.len ∧ (s.bytes = t.bytes ∨ SharesNul s.bytes t.bytes)) := by
  rw [stringEqual]
  by_cases hlen : s.len = t.len
  · rw [if_neg (not_not.mpr hlen)]
    obtain ⟨cmp, hcmp, hiff⟩ := strncmp_eq s.len s.fits (hlen ▸ t.fits)
    refine ⟨_, by rw [hcmp]; rfl, ?_⟩
    rw [decide_eq_true_iff, hiff, Str.bytes, Str.bytes, ← hlen]
    exact (and_iff_right rfl).symm
  · rw [if_pos hlen]
    exact ⟨false, rfl, iff_of_false nofun fun h => hlen h.1⟩

end Compare

/-! ## Sets of strings -/

/-- Two strings of one length whose bytes differ behind a common NUL only. -/
def Confusable (s t : Str) : Prop :=
  s.len = t.len ∧ s.bytes ≠ t.bytes ∧ SharesNul s.bytes t.bytes

section Sets

variable {s t : Str} {left right : List Str}

theorem stringEqual_true_iff :
    stringEqual s t = .ok true ↔ s.bytes = t.bytes ∨ Confusable s t := by
  obtain ⟨b, hret, hiff⟩ := stringEqual_eq s t
  rw [hret, Except.ok.injEq, hiff]
  constructor
  · rintro ⟨hlen, heq | hnul⟩
    · exact .inl heq
    · exact or_iff_not_imp_left.mpr fun hne => ⟨hlen, hne, hnul⟩
  · rintro (heq | ⟨hlen, -, hnul⟩)
    · exact ⟨Str.len_eq heq, .inl heq⟩
    · exact ⟨hlen, .inr hnul⟩

theorem repeated_eq (s : Str) (strs : List Str) :
    repeated s strs = .ok (decide (s.bytes ∈ strs.map Str.bytes)) := by
  induction strs with
  | nil => rfl
  | cons t rest ih =>
    rw [repeated, List.map_cons]
    by_cases hlen : s.len = t.len
    · rw [if_neg (not_not.mpr hlen), memcmp_eq hlen, ok_bind, ih]
      have hiff := compareBytes_eq_iff (s.length_bytes.trans (hlen.trans t.length_bytes.symm))
      by_cases heq : s.bytes = t.bytes
      · rw [if_pos (hiff.mpr heq), decide_eq_true (List.mem_cons.mpr (.inl heq))]
      · rw [if_neg fun h => heq (hiff.mp h)]
        simp only [List.mem_cons, heq, false_or]
    · rw [if_pos hlen, ih]
      have hne : s.bytes ≠ t.bytes := fun h => hlen (Str.len_eq h)
      simp only [List.mem_cons, hne, false_or]

/-- The test is that no byte string comes twice. -/
theorem stringsAllUnique_eq (strs : List Str) :
    stringsAllUnique strs = .ok (if (strs.map Str.bytes).Nodup then 1 else 0) := by
  induction strs with
  | nil => rfl
  | cons s rest ih =>
    rw [stringsAllUnique, repeated_eq, ok_bind, List.map_cons]
    by_cases hmem : s.bytes ∈ rest.map Str.bytes
    · rw [decide_eq_true hmem, if_pos rfl, if_neg fun h => (List.nodup_cons.mp h).1 hmem]
    · rw [decide_eq_false hmem, if_neg nofun, ih]
      simp only [List.nodup_cons, hmem, not_false_eq_true, true_and]

theorem stringsAllUnique_iff (strs : List Str) :
    stringsAllUnique strs = .ok 1 ↔ (strs.map Str.bytes).Nodup := by
  rw [stringsAllUnique_eq, Except.ok.injEq]
  split_ifs with h
  · exact iff_of_true rfl h
  · exact iff_of_false (by decide) h

theorem meets_eq (s : Str) (strs : List Str) :
    ∃ b, meets s strs = .ok b ∧ (b = true ↔ ∃ t ∈ strs, stringEqual s t = .ok true) := by
  induction strs with
  | nil => exact ⟨false, rfl, iff_of_false nofun (by simp)⟩
  | cons t rest ih =>
    obtain ⟨b, hret, -⟩ := stringEqual_eq s t
    obtain ⟨c, hrest, hiff⟩ := ih
    rw [meets, hret, ok_bind, hrest, List.exists_mem_cons_iff]
    cases b with
    | true => exact ⟨true, rfl, iff_of_true rfl (.inl hret)⟩
    | false =>
      refine ⟨c, rfl, hiff.trans (or_iff_right ?_).symm⟩
      rw [hret]
      nofun

theorem disjointLoop_iff (i : Nat) (left : List Str) :
    disjointLoop right i left = .ok none ↔
      ∀ s ∈ left, ∀ t ∈ right, stringEqual s t ≠ .ok true := by
  induction left generalizing i with
  | nil => exact iff_of_true rfl (by simp)
  | cons s rest ih =>
    obtain ⟨b, hret, hiff⟩ := meets_eq s right
    rw [disjointLoop, hret, ok_bind, List.forall_mem_cons]
    cases b with
    | true =>
      refine iff_of_false nofun fun h => ?_
      obtain ⟨t, ht, heq⟩ := hiff.mp rfl
      exact h.1 t ht heq
    | false =>
      refine (ih (i + 1)).trans (and_iff_right ?_).symm
      exact fun t ht heq => Bool.false_ne_true (hiff.mpr ⟨t, ht, heq⟩)

/-- The strings are disjoint where neither two of them are equal nor confusable. -/
theorem stringsAreDisjoint_iff (left right : List Str) :
    stringsAreDisjoint left right = .ok none ↔
      (left.map Str.bytes).Disjoint (right.map Str.bytes) ∧
        ∀ s ∈ left, ∀ t ∈ right, ¬ Confusable s t := by
  rw [stringsAreDisjoint, disjointLoop_iff]
  constructor
  · refine fun h => ⟨?_, fun s hs t ht hconf => h s hs t ht (stringEqual_true_iff.mpr (.inr hconf))⟩
    intro bytes hleft hright
    obtain ⟨s, hs, rfl⟩ := List.mem_map.mp hleft
    obtain ⟨t, ht, heq⟩ := List.mem_map.mp hright
    exact h s hs t ht (stringEqual_true_iff.mpr (.inl heq.symm))
  · rintro ⟨hdisjoint, hclear⟩ s hs t ht hequal
    obtain heq | hconf := stringEqual_true_iff.mp hequal
    · exact hdisjoint (List.mem_map_of_mem hs) (heq ▸ List.mem_map_of_mem ht)
    · exact hclear s hs t ht hconf

theorem stringEqual_exact_iff :
    (stringEqual s t = .ok true ↔ s.len = t.len ∧ s.bytes = t.bytes) ↔ ¬ Confusable s t := by
  have hbytes : s.len = t.len ∧ s.bytes = t.bytes ↔ s.bytes = t.bytes :=
    and_iff_right_of_imp Str.len_eq
  rw [stringEqual_true_iff, hbytes]
  constructor
  · exact fun h hconf => hconf.2.1 (h.mp (.inr hconf))
  · exact fun h => or_iff_left h

theorem split_unique_iff :
    (stringsAllUnique (left ++ right) = .ok 1 ↔ stringsAllUnique left = .ok 1 ∧
      stringsAllUnique right = .ok 1 ∧ stringsAreDisjoint left right = .ok none) ↔
    (∀ s ∈ left, ∀ t ∈ right, ¬ Confusable s t) ∨ ¬ ((left ++ right).map Str.bytes).Nodup := by
  rw [stringsAllUnique_iff, stringsAllUnique_iff, stringsAllUnique_iff, stringsAreDisjoint_iff,
    List.map_append, List.nodup_append']
  generalize (∀ s ∈ left, ∀ t ∈ right, ¬ Confusable s t) = clear
  tauto

end Sets

/-- The equality tests agree where no common NUL hides a difference. -/
theorem string_equality_iff (left right : List Str) (s t : Str) :
    ((stringEqual s t = .ok true ↔ s.len = t.len ∧ s.bytes = t.bytes) ∧
      (stringsAllUnique (left ++ right) = .ok 1 ↔ stringsAllUnique left = .ok 1 ∧
        stringsAllUnique right = .ok 1 ∧ stringsAreDisjoint left right = .ok none)) ↔
    ¬ Confusable s t ∧
      ((∀ l ∈ left, ∀ r ∈ right, ¬ Confusable l r) ∨ ¬ ((left ++ right).map Str.bytes).Nodup) :=
  and_congr stringEqual_exact_iff split_unique_iff

def nulB : Str := ⟨3, [97, 0, 98], by decide⟩

def nulC : Str := ⟨3, [97, 0, 99], by decide⟩

theorem string_equality_nul :
    ¬ (stringEqual nulB nulC = .ok true ↔ nulB.len = nulC.len ∧ nulB.bytes = nulC.bytes) ∧
    ¬ (stringsAllUnique ([nulB] ++ [nulC]) = .ok 1 ↔ stringsAllUnique [nulB] = .ok 1 ∧
      stringsAllUnique [nulC] = .ok 1 ∧ stringsAreDisjoint [nulB] [nulC] = .ok none) := by
  decide

end ByteStrings
