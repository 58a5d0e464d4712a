import Mathlib.Data.Fintype.BigOperators
import Mathlib.Data.Int.CardIntervalMod

/-!
# How often a draw gives each value

Digits of one base are drawn independently, their number is reduced modulo `m`,
and the remainder is scaled down to a smaller range. The digit sequences and
the numbers correspond one to one, every remainder is met equally often, and
scaling meets the values of the range equally often up to one.
-/

namespace FairDraws

open Finset

variable {base n m size k c : Nat}

/-- The number whose digits are drawn, the most significant first. -/
def number (base : Nat) (digit : Nat → Nat) : Nat → Nat
  | 0 => 0
  | n + 1 => number base digit n * base + digit n

section Digits

variable {digit digit' : Nat → Nat}

theorem number_lt (h : ∀ i < n, digit i < base) : number base digit n < base ^ n := by
  induction n with
  | zero => exact Nat.one_pos
  | succ n ih =>
    have hlast := h n (Nat.lt_succ_self n)
    have hrest := ih fun i hi => h i (Nat.lt_succ_of_lt hi)
    have hmul : (number base digit n + 1) * base ≤ base ^ n * base :=
      Nat.mul_le_mul_right base hrest
    rw [number, pow_succ]
    rw [Nat.succ_mul] at hmul
    omega

theorem number_injective (h : ∀ i < n, digit i < base) (h' : ∀ i < n, digit' i < base)
    (heq : number base digit n = number base digit' n) : ∀ i < n, digit i = digit' i := by
  induction n with
  | zero => exact fun i hi => absurd hi (Nat.not_lt_zero i)
  | succ n ih =>
    have hlast := h n (Nat.lt_succ_self n)
    have hlast' := h' n (Nat.lt_succ_self n)
    have hpos : 0 < base := by omega
    have hdiv := congrArg (· / base) heq
    have hmod := congrArg (· % base) heq
    simp only [number, Nat.add_comm _ (digit n), Nat.add_comm _ (digit' n),
      Nat.add_mul_div_right _ _ hpos, Nat.add_mul_mod_self_right, Nat.div_eq_of_lt hlast,
      Nat.div_eq_of_lt hlast', Nat.mod_eq_of_lt hlast, Nat.mod_eq_of_lt hlast', Nat.zero_add]
      at hdiv hmod
    intro i hi
    rcases Nat.lt_succ_iff_lt_or_eq.mp hi with hlt | rfl
    · exact ih (fun i hi => h i (Nat.lt_succ_of_lt hi)) (fun i hi => h' i (Nat.lt_succ_of_lt hi))
        hdiv i hlt
    · exact hmod

/-- A finite sequence of draws as an endless one. -/
def stream (f : Fin n → Fin base) (i : Nat) : Nat := if h : i < n then f ⟨i, h⟩ else 0

theorem stream_lt (f : Fin n → Fin base) {i : Nat} (hi : i < n) : stream f i < base := by
  rw [stream, dif_pos hi]
  exact (f _).isLt

/-- As many sequences as numbers have a property of the number. -/
theorem card_sequences (P : Nat → Prop) [DecidablePred P] :
    #{f : Fin n → Fin base | P (number base (stream f) n)} = Nat.count P (base ^ n) := by
  have hinj : Function.Injective fun f : Fin n → Fin base => number base (stream f) n := by
    intro f g heq
    funext i
    have hdigit := number_injective (fun i hi => stream_lt f hi) (fun i hi => stream_lt g hi) heq
      i i.isLt
    rw [stream, stream, dif_pos i.isLt, dif_pos i.isLt] at hdigit
    exact Fin.ext hdigit
  have himage : univ.image (fun f : Fin n → Fin base => number base (stream f) n) =
      range (base ^ n) := by
    refine eq_of_subset_of_card_le (fun v hv => ?_) ?_
    · obtain ⟨f, -, rfl⟩ := mem_image.mp hv
      exact mem_range.mpr (number_lt fun i hi => stream_lt f hi)
    · rw [card_image_of_injective _ hinj, card_range, card_univ, Fintype.card_fun, Fintype.card_fin,
        Fintype.card_fin]
  rw [Nat.count_eq_card_filter_range, ← himage, filter_image, card_image_of_injective _ hinj]

end Digits

/-- Over whole periods each remainder is met once a period. -/
theorem count_mod (P : Nat → Prop) [DecidablePred P] :
    Nat.count (fun v => P (v % m)) (c * m) = c * Nat.count P m := by
  induction c with
  | zero => simp
  | succ c ih =>
    have hperiod : Nat.count (fun v => P ((c * m + v) % m)) m = Nat.count P m := by
      rw [Nat.count_eq_card_filter_range, Nat.count_eq_card_filter_range]
      refine congrArg card (filter_congr fun v hv => ?_)
      rw [Nat.mul_comm c, Nat.mul_add_mod, Nat.mod_eq_of_lt (mem_range.mp hv)]
    rw [Nat.succ_mul, Nat.count_add, ih, hperiod, Nat.succ_mul]

/-- The draws that are scaled down to `k` are consecutive, and there are `m / size` of them
or one more. -/
theorem count_scaled (hm : 0 < m) (hk : k < size) :
    Nat.count (fun d => d * size / m = k) m = m / size ∨
      Nat.count (fun d => d * size / m = k) m = m / size + 1 := by
  have hsize : 0 < size := by omega
  -- the first draws that are scaled to `k` and above `k`
  obtain ⟨low, hlow⟩ : ∃ low, low = (k * m + (size - 1)) / size := ⟨_, rfl⟩
  obtain ⟨high, hhigh⟩ : ∃ high, high = (k * m + (size - 1) + m) / size := ⟨_, rfl⟩
  have hceil : ∀ a d, (a + (size - 1)) / size ≤ d ↔ a ≤ d * size := by
    intro a d
    rw [← Nat.lt_succ_iff, Nat.div_lt_iff_lt_mul hsize, Nat.succ_mul]
    omega
  have hle : ∀ d, low ≤ d ↔ k * m ≤ d * size := fun d => hlow ▸ hceil (k * m) d
  have hlt : ∀ d, d < high ↔ d * size < (k + 1) * m := by
    intro d
    have hshift : k * m + (size - 1) + m = (k + 1) * m + (size - 1) := by
      rw [Nat.succ_mul]
      omega
    rw [← not_le, hhigh, hshift, hceil, not_le]
  have hbound : high ≤ m := by
    have hlast : (k + 1) * m ≤ m * size := by
      rw [Nat.mul_comm m]
      exact Nat.mul_le_mul_right m hk
    exact Nat.le_of_not_lt fun hgt => absurd ((hlt m).mp hgt) (Nat.not_lt.mpr hlast)
  have hset : (range m).filter (fun d => d * size / m = k) = Ico low high := by
    ext d
    rw [mem_filter, mem_range, mem_Ico, hle, hlt, Nat.div_eq_iff hm]
    constructor
    · rintro ⟨-, hlo, hhi⟩
      rw [Nat.succ_mul]
      omega
    · rintro ⟨hlo, hhi⟩
      have hd := (hlt d).mpr hhi
      rw [Nat.succ_mul] at hhi
      omega
  have hwidth : high = low + (m / size +
      if size ≤ (k * m + (size - 1)) % size + m % size then 1 else 0) := by
    rw [hhigh, hlow, Nat.add_div hsize, Nat.add_assoc]
  rw [Nat.count_eq_card_filter_range, hset, Nat.card_Ico, hwidth, Nat.add_sub_cancel_left]
  split_ifs
  · exact .inr rfl
  · exact .inl (Nat.add_zero _)

/-- All three together: `c` is the number of digit sequences for each remainder. -/
theorem card_scaled (hm : 0 < m) (hk : k < size) (hpow : base ^ n = c * m) :
    #{f : Fin n → Fin base | number base (stream f) n % m * size / m = k} = c * (m / size) ∨
      #{f : Fin n → Fin base | number base (stream f) n % m * size / m = k} =
        c * (m / size + 1) := by
  rw [card_sequences fun v => v % m * size / m = k, hpow, count_mod fun d => d * size / m = k]
  exact (count_scaled hm hk).imp (congrArg (c * ·)) (congrArg (c * ·))

end FairDraws
