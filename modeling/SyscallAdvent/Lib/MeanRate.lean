import Mathlib.Algebra.BigOperators.Field
import Mathlib.Algebra.Order.BigOperators.Ring.Finset
import Mathlib.Tactic.FieldSimp
import Mathlib.Tactic.Linarith
import Mathlib.Tactic.Positivity.Finset
import Mathlib.Tactic.Ring

/-! Equal amounts that take different times: the mean of their rates is at least
the rate of all of them together, and more unless the times are equal. -/

namespace MeanRate

variable {ι K : Type*} [Field K] [LinearOrder K] [IsStrictOrderedRing K] {s : Finset ι}
  {time : ι → K}

omit [IsStrictOrderedRing K] in
/-- The two sides differ by the squares of all differences. -/
theorem sum_mul_sum_inv (htime : ∀ i ∈ s, 0 < time i) :
    2 * ((∑ i ∈ s, time i) * ∑ i ∈ s, (time i)⁻¹) =
      2 * (s.card : K) ^ 2 +
        ∑ i ∈ s, ∑ j ∈ s, (time i - time j) ^ 2 / (time i * time j) := by
  have hpair : ∀ i ∈ s, ∀ j ∈ s, (time i - time j) ^ 2 / (time i * time j) =
      time i * (time j)⁻¹ + time j * (time i)⁻¹ - 2 := by
    intro i hi j hj
    have := (htime i hi).ne'
    have := (htime j hj).ne'
    field_simp
    ring
  rw [Finset.sum_congr rfl fun i hi => Finset.sum_congr rfl (hpair i hi)]
  simp only [Finset.sum_sub_distrib, Finset.sum_add_distrib, ← Finset.mul_sum, ← Finset.sum_mul,
    Finset.sum_const, nsmul_eq_mul]
  ring

theorem sq_div_nonneg (htime : ∀ i ∈ s, 0 < time i) {i : ι} (hi : i ∈ s) :
    ∀ j ∈ s, 0 ≤ (time i - time j) ^ 2 / (time i * time j) := by
  intro j hj
  apply div_nonneg (sq_nonneg _)
  exact (mul_pos (htime i hi) (htime j hj)).le

theorem sum_sq_div_nonneg (htime : ∀ i ∈ s, 0 < time i) :
    ∀ i ∈ s, 0 ≤ ∑ j ∈ s, (time i - time j) ^ 2 / (time i * time j) :=
  fun _ hi => Finset.sum_nonneg (sq_div_nonneg htime hi)

theorem card_sq_le (htime : ∀ i ∈ s, 0 < time i) :
    (s.card : K) ^ 2 ≤ (∑ i ∈ s, time i) * ∑ i ∈ s, (time i)⁻¹ := by
  have hsum := sum_mul_sum_inv htime
  have hnonneg := Finset.sum_nonneg (sum_sq_div_nonneg htime)
  linarith

theorem card_sq_eq_iff (htime : ∀ i ∈ s, 0 < time i) :
    (s.card : K) ^ 2 = (∑ i ∈ s, time i) * ∑ i ∈ s, (time i)⁻¹ ↔
      ∀ i ∈ s, ∀ j ∈ s, time i = time j := by
  have hsum := sum_mul_sum_inv htime
  constructor
  · intro h i hi j hj
    have hzero : ∑ i ∈ s, ∑ j ∈ s, (time i - time j) ^ 2 / (time i * time j) = 0 := by linarith
    have hrow := (Finset.sum_eq_zero_iff_of_nonneg (sum_sq_div_nonneg htime)).1 hzero i hi
    have hcell := (Finset.sum_eq_zero_iff_of_nonneg (sq_div_nonneg htime hi)).1 hrow j hj
    rw [div_eq_zero_iff, or_iff_left (mul_pos (htime i hi) (htime j hj)).ne'] at hcell
    exact sub_eq_zero.1 (pow_eq_zero_iff two_ne_zero |>.1 hcell)
  · intro h
    have hzero : ∑ i ∈ s, ∑ j ∈ s, (time i - time j) ^ 2 / (time i * time j) = 0 :=
      Finset.sum_eq_zero fun i hi => Finset.sum_eq_zero fun j hj => by simp [h i hi j hj]
    linarith

section

variable (amount : K) (hs : s.Nonempty) (htime : ∀ i ∈ s, 0 < time i)

include hs htime

/-- Both rates, multiplied out. -/
theorem mean_sub_rate :
    (∑ i ∈ s, amount / time i) / s.card - s.card * amount / ∑ i ∈ s, time i =
      amount * ((∑ i ∈ s, time i) * ∑ i ∈ s, (time i)⁻¹ - (s.card : K) ^ 2) /
        (s.card * ∑ i ∈ s, time i) := by
  have hcard : (s.card : K) ≠ 0 := Nat.cast_ne_zero.2 (Finset.card_ne_zero.2 hs)
  have hsum : ∑ i ∈ s, time i ≠ 0 := (Finset.sum_pos htime hs).ne'
  simp only [div_eq_mul_inv amount, ← Finset.mul_sum]
  field_simp

theorem rate_le_mean (hamount : 0 ≤ amount) :
    s.card * amount / ∑ i ∈ s, time i ≤ (∑ i ∈ s, amount / time i) / s.card := by
  have hsum := Finset.sum_pos htime hs
  have hcard := card_sq_le htime
  rw [← sub_nonneg, mean_sub_rate amount hs htime]
  apply div_nonneg
  · apply mul_nonneg hamount
    linarith
  · positivity

theorem rate_eq_mean_iff :
    s.card * amount / ∑ i ∈ s, time i = (∑ i ∈ s, amount / time i) / s.card ↔
      amount = 0 ∨ ∀ i ∈ s, ∀ j ∈ s, time i = time j := by
  have hcard : (s.card : K) ≠ 0 := Nat.cast_ne_zero.2 (Finset.card_ne_zero.2 hs)
  have hsum : ∑ i ∈ s, time i ≠ 0 := (Finset.sum_pos htime hs).ne'
  rw [eq_comm, ← sub_eq_zero, mean_sub_rate amount hs htime, div_eq_zero_iff,
    or_iff_left (mul_ne_zero hcard hsum), mul_eq_zero, sub_eq_zero, ← card_sq_eq_iff htime]
  exact or_congr_right eq_comm

end

end MeanRate
