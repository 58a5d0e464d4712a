import CSpecx.ByteStrings
import Mathlib.Tactic.IntervalCases
import Mathlib.Tactic.Ring

/-!
# The string hash

`fnv1a_hash` of `hashing.c`. A byte changes the low digits of the state only,
and the multiplier is 2^24 + 403: changes of up to three bytes in a row leave
small differences, which the product cannot bring back to zero.
-/

namespace Hashing

open ByteStrings

/-- `hash ^= (u8)*str++`. -/
def mixed (hash : BitVec 32) (b : UInt8) : BitVec 32 := hash ^^^ b.toBitVec.setWidth 32

def byteStep (hash : BitVec 32) (b : UInt8) : BitVec 32 := mixed hash b * 16777619#32

/-- The loop from a state on. -/
def hashFrom (hash : BitVec 32) (bytes : List UInt8) : BitVec 32 := bytes.foldl byteStep hash

def fnv1aHash (s : Str) : BitVec 32 := hashFrom 2166136261#32 s.bytes

/-- The difference of two states as numbers. -/
def gap (x y : BitVec 32) : Int := x.toNat - y.toNat

section Steps

variable {x y hash hash' : BitVec 32} {a b : UInt8}

theorem eq_of_gap (h : gap x y = 0) : x = y := by
  unfold gap at h
  exact BitVec.eq_of_toNat_eq (by omega)

/-- The multiplier is odd. -/
theorem product_injective (h : x * 16777619#32 = y * 16777619#32) : x = y := by
  have hinverse : 16777619#32 * 899433627#32 = 1#32 := by decide
  have hmul := congrArg (· * 899433627#32) h
  simp only [BitVec.mul_assoc, hinverse, BitVec.mul_one] at hmul
  exact hmul

theorem mixed_injective (h : mixed hash a = mixed hash b) : a = b := by
  have hwide : a.toBitVec.setWidth 32 = b.toBitVec.setWidth 32 := by
    have hxor := congrArg (hash ^^^ ·) h
    simpa only [mixed, ← BitVec.xor_assoc, BitVec.xor_self, BitVec.zero_xor] using hxor
  have hnat := congrArg BitVec.toNat hwide
  rw [BitVec.toNat_setWidth_of_le (by decide), BitVec.toNat_setWidth_of_le (by decide)] at hnat
  exact UInt8.toNat_inj.mp hnat

theorem byteStep_injective (h : byteStep hash b = byteStep hash' b) : hash = hash' := by
  have hmixed : mixed hash b = mixed hash' b := product_injective h
  have hxor := congrArg (· ^^^ b.toBitVec.setWidth 32) hmixed
  simpa only [mixed, BitVec.xor_assoc, BitVec.xor_self, BitVec.xor_zero] using hxor

theorem hashFrom_injective {bytes : List UInt8} (h : hashFrom hash bytes = hashFrom hash' bytes) :
    hash = hash' := by
  induction bytes generalizing hash hash' with
  | nil => exact h
  | cons b bytes ih => exact byteStep_injective (ih h)

/-- The digits above a byte stay. -/
theorem mixed_top (hash : BitVec 32) (b : UInt8) :
    (mixed hash b).toNat / 2 ^ 8 = hash.toNat / 2 ^ 8 := by
  have hbyte : (b.toBitVec.setWidth 32).toNat / 2 ^ 8 = 0 := by
    rw [BitVec.toNat_setWidth_of_le (by decide)]
    exact Nat.div_eq_of_lt b.toBitVec.isLt
  rw [mixed, BitVec.toNat_xor, Nat.xor_div_two_pow, hbyte, Nat.xor_zero]

theorem gap_mixed (hash : BitVec 32) (a b : UInt8) :
    -255 ≤ gap (mixed hash a) (mixed hash b) ∧ gap (mixed hash a) (mixed hash b) ≤ 255 := by
  have ha := mixed_top hash a
  have hb := mixed_top hash b
  unfold gap
  omega

/-- Two bytes change a difference by two bytes at most. -/
theorem gap_mixed_add (hash hash' : BitVec 32) (a b : UInt8) : ∃ t : Int, -510 ≤ t ∧ t ≤ 510 ∧
    gap (mixed hash a) (mixed hash' b) = gap hash hash' + t := by
  have ha := mixed_top hash a
  have hb := mixed_top hash' b
  refine ⟨gap (mixed hash a) (mixed hash' b) - gap hash hash', ?_, ?_, by omega⟩
  · unfold gap
    omega
  · unfold gap
    omega

theorem gap_before_mixed (h : mixed hash a = mixed hash' b) :
    -255 ≤ gap hash hash' ∧ gap hash hash' ≤ 255 := by
  have ha := mixed_top hash a
  have hb := mixed_top hash' b
  rw [h] at ha
  unfold gap
  omega

theorem gap_byteStep (hash hash' : BitVec 32) (a b : UInt8) : ∃ q : Int,
    gap (byteStep hash a) (byteStep hash' b) =
      gap (mixed hash a) (mixed hash' b) * 16777619 - 2 ^ 32 * q := by
  have hproduct : ∀ x : BitVec 32,
      (x * 16777619#32).toNat = x.toNat * 16777619 % 2 ^ 32 := fun x => BitVec.toNat_mul x _
  refine ⟨((mixed hash a).toNat * 16777619 / 2 ^ 32 : Nat) -
    ((mixed hash' b).toNat * 16777619 / 2 ^ 32 : Nat), ?_⟩
  unfold gap byteStep
  rw [hproduct, hproduct]
  omega

end Steps

section Differences

variable {d t r k : Int}

theorem eq_zero_of_digits (hd : -255 ≤ d ∧ d ≤ 255) (ht : -510 ≤ t ∧ t ≤ 510)
    (hr : -255 ≤ r ∧ r ≤ 255) (hlow : 162409 * d + 403 * t - r = 2 ^ 24 * k)
    (hhigh : (38 * d + t + k) % 256 = 0) : d = 0 ∧ t = 0 := by
  obtain ⟨hk, hk'⟩ : -2 ≤ k ∧ k ≤ 2 := by omega
  -- for each carry only a few differences come near
  obtain ⟨c, hc⟩ : ∃ c, c = d - 103 * k := ⟨_, rfl⟩
  obtain ⟨hlo, hhi⟩ : -2 ≤ c ∧ c ≤ 2 := by omega
  obtain rfl : d = c + 103 * k := by omega
  interval_cases k <;> interval_cases c <;> omega

/-- Twice multiplied, a difference of a byte stays beyond what two more bytes make up for. -/
theorem small_differences {q q' : Int} (hd : -255 ≤ d ∧ d ≤ 255) (ht : -510 ≤ t ∧ t ≤ 510)
    (hr : -255 ≤ r ∧ r ≤ 255) (h : (d * 16777619 - 2 ^ 32 * q + t) * 16777619 - 2 ^ 32 * q' = r) :
    d = 0 ∧ t = 0 := by
  obtain ⟨j, hj⟩ : ∃ j, j = 65539 * d - 16777619 * q - q' := ⟨_, rfl⟩
  have hsum : 162409 * d + 403 * t - r = 2 ^ 24 * -(256 * j + 38 * d + t) := by
    rw [← h, hj]
    ring
  exact eq_zero_of_digits hd ht hr hsum (by omega)

end Differences

section Windows

variable {hash : BitVec 32} {a b c a' b' c' : UInt8} {left right : List UInt8}

theorem three_bytes (h : byteStep (byteStep (byteStep hash a) b) c =
    byteStep (byteStep (byteStep hash a') b') c') : a = a' ∧ b = b' ∧ c = c' := by
  have hlast := product_injective h
  obtain ⟨q, hfirst⟩ := gap_byteStep hash hash a a'
  obtain ⟨t, htlo, hthi, hmiddle⟩ := gap_mixed_add (byteStep hash a) (byteStep hash a') b b'
  obtain ⟨q', hsecond⟩ := gap_byteStep (byteStep hash a) (byteStep hash a') b b'
  rw [hmiddle, hfirst] at hsecond
  obtain ⟨hd, ht⟩ := small_differences (gap_mixed hash a a') ⟨htlo, hthi⟩ (gap_before_mixed hlast)
    hsecond.symm
  obtain rfl : a = a' := mixed_injective (eq_of_gap hd)
  obtain rfl : b = b' := by
    refine mixed_injective (eq_of_gap (hmiddle.trans ?_))
    rw [ht, gap, sub_self, add_zero]
  exact ⟨rfl, rfl, mixed_injective hlast⟩

theorem hashFrom_window (hlen : left.length = right.length) (hshort : left.length ≤ 3)
    (h : hashFrom hash left = hashFrom hash right) : left = right := by
  obtain ⟨pad, hpad⟩ : ∃ pad : List UInt8, pad = List.replicate (3 - left.length) 0 := ⟨_, rfl⟩
  have hpadlen : pad.length = 3 - left.length := by rw [hpad, List.length_replicate]
  have hboth : hashFrom hash (left ++ pad) = hashFrom hash (right ++ pad) := by
    unfold hashFrom at h ⊢
    rw [List.foldl_append, List.foldl_append, h]
  obtain ⟨a, b, c, hleft⟩ : ∃ a b c, left ++ pad = [a, b, c] :=
    List.length_eq_three.mp (by rw [List.length_append]; omega)
  obtain ⟨a', b', c', hright⟩ : ∃ a b c, right ++ pad = [a, b, c] :=
    List.length_eq_three.mp (by rw [List.length_append]; omega)
  rw [hleft, hright] at hboth
  obtain ⟨rfl, rfl, rfl⟩ := three_bytes hboth
  exact (List.append_inj (hleft.trans hright.symm) hlen).1

end Windows

/-- Strings that differ inside `n` bytes in a row, and nowhere else, have different hashes. -/
def Separates (n : Nat) : Prop := ∀ (before left right after : List UInt8) (s t : Str),
  left.length = right.length → left.length ≤ n → left ≠ right →
  s.bytes = before ++ left ++ after → t.bytes = before ++ right ++ after →
  fnv1aHash s ≠ fnv1aHash t

/-- Three bytes in a row are the most that always change the hash. -/
theorem fnv1a_separates : Separates 3 ∧ ¬ Separates 4 := by
  constructor
  · intro before left right after s t hlen hshort hne hs ht hhash
    rw [fnv1aHash, fnv1aHash, hs, ht] at hhash
    simp only [hashFrom, List.foldl_append] at hhash
    exact hne (hashFrom_window hlen hshort (hashFrom_injective hhash))
  · intro separates
    refine separates [119, 122, 110] [29, 29, 183, 0] [111, 200, 6, 20] []
      ⟨7, [119, 122, 110, 29, 29, 183, 0], le_rfl⟩ ⟨7, [119, 122, 110, 111, 200, 6, 20], le_rfl⟩
      rfl le_rfl (by decide) rfl rfl (by decide)

end Hashing
