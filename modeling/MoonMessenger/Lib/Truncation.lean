import Mathlib.Algebra.Order.Floor.Ring
import Mathlib.Data.Rat.Floor

/-!
# Truncation toward zero

`trunc x` is `x` without its fraction. On either side of zero it is the floor or the
ceiling, and it commutes with the absolute value (`abs_trunc`); a bound that is positive can
be read on `x` itself (`trunc_lt_iff`, `le_trunc_iff`), and it is zero on the two units around
zero (`trunc_eq_zero_iff`). On the rationals it is the division of the numerator by the
denominator that most languages have (`tdiv_eq_trunc`).
-/

namespace Truncation

universe u

variable {α : Type u} [Ring α] [LinearOrder α] [FloorRing α] {x : α} {n : ℤ}

/-- `x`, rounded toward zero. -/
def trunc (x : α) : ℤ := if 0 ≤ x then ⌊x⌋ else ⌈x⌉

theorem trunc_of_nonneg (h : 0 ≤ x) : trunc x = ⌊x⌋ := if_pos h

theorem trunc_of_neg (h : x < 0) : trunc x = ⌈x⌉ := if_neg h.not_ge

theorem trunc_nonpos (h : x < 0) : trunc x ≤ 0 := by
  rw [trunc_of_neg h, Int.ceil_le, Int.cast_zero]
  exact h.le

variable [IsStrictOrderedRing α]

@[simp] theorem trunc_neg (x : α) : trunc (-x) = -trunc x := by
  rcases lt_trichotomy x 0 with hneg | rfl | hpos
  · rw [trunc_of_neg hneg, trunc_of_nonneg (neg_nonneg.mpr hneg.le), Int.floor_neg]
  · simp [trunc]
  · rw [trunc_of_nonneg hpos.le, trunc_of_neg (neg_lt_zero.mpr hpos), Int.ceil_neg]

/-- Neither does it matter on which side of zero one is. -/
theorem abs_trunc (x : α) : |trunc x| = trunc |x| := by
  have hnonneg {y : α} (hy : 0 ≤ y) : |trunc y| = trunc |y| := by
    rw [abs_of_nonneg hy, abs_of_nonneg]
    rw [trunc_of_nonneg hy]
    exact Int.floor_nonneg.mpr hy
  rcases le_total 0 x with hx | hx
  · exact hnonneg hx
  · have h := hnonneg (neg_nonneg.mpr hx)
    rwa [trunc_neg, abs_neg, abs_neg] at h

/-- A positive bound from above. -/
theorem trunc_lt_iff (hn : 0 < n) : trunc x < n ↔ x < n := by
  rcases le_or_gt 0 x with hnonneg | hneg
  · rw [trunc_of_nonneg hnonneg, Int.floor_lt]
  · exact iff_of_true ((trunc_nonpos hneg).trans_lt hn) (hneg.trans (Int.cast_pos.mpr hn))

/-- A positive bound from below. -/
theorem le_trunc_iff (hn : 0 < n) : n ≤ trunc x ↔ n ≤ x := by
  rw [← not_lt, ← not_lt, trunc_lt_iff hn]

theorem trunc_eq_zero_iff : trunc x = 0 ↔ -1 < x ∧ x < 1 := by
  have habove : trunc x < 1 ↔ x < 1 := by simpa using trunc_lt_iff (x := x) one_pos
  have hbelow : -1 < trunc x ↔ -1 < x := by
    have h : trunc (-x) < 1 ↔ -x < 1 := by simpa using trunc_lt_iff (x := -x) one_pos
    rw [trunc_neg] at h
    rw [neg_lt, h, neg_lt]
  rw [← habove, ← hbelow]
  omega

/-- The division of integers that rounds toward zero. -/
theorem tdiv_eq_trunc (q : ℚ) : q.num.tdiv q.den = trunc q := by
  have hnonneg (q : ℚ) (hq : 0 ≤ q) : q.num.tdiv q.den = trunc q := by
    rw [trunc_of_nonneg hq, Rat.floor_def', Int.tdiv_eq_ediv_of_nonneg (Rat.num_nonneg.mpr hq)]
  rcases le_or_gt 0 q with hq | hq
  · exact hnonneg q hq
  · have h := hnonneg (-q) (neg_nonneg.mpr hq.le)
    rwa [Rat.neg_num, Rat.neg_den, Int.neg_tdiv, trunc_neg, neg_inj] at h

end Truncation
