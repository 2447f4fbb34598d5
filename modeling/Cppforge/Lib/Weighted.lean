import Mathlib.Algebra.Order.Field.Basic

/-! Numbers with weights, and the mean of two of them. -/

namespace Weighted

variable {K : Type} [Field K] [LinearOrder K] {x y a b : K}

/-- The mean of `x` and `y` with the weights `a` and `b`. -/
def mean (x a y b : K) : K := (x * a + y * b) / (a + b)

theorem mean_mul (h : 0 < a + b) : mean x a y b * (a + b) = x * a + y * b :=
  div_mul_cancel₀ _ h.ne'

variable [IsStrictOrderedRing K]

theorem le_mean (hb : 0 ≤ b) (h : 0 < a + b) (hxy : x ≤ y) : x ≤ mean x a y b := by
  have hy := mul_le_mul_of_nonneg_right hxy hb
  unfold mean
  rw [le_div_iff₀ h, mul_add]
  exact add_le_add_right hy _

theorem mean_le (ha : 0 ≤ a) (h : 0 < a + b) (hxy : x ≤ y) : mean x a y b ≤ y := by
  have hx := mul_le_mul_of_nonneg_right hxy ha
  unfold mean
  rw [div_le_iff₀ h, mul_add]
  exact add_le_add_left hx _

section Blends
variable {s t : K}

/-- The number as far between `x` and `y` as `s` is between 0 and 1. -/
def blend (x y s : K) : K := x + s * (y - x)

theorem blend_mono (hxy : x ≤ y) (hst : s ≤ t) : blend x y s ≤ blend x y t :=
  add_le_add_right (mul_le_mul_of_nonneg_right hst (sub_nonneg.mpr hxy)) x

theorem le_blend (hxy : x ≤ y) (hs : 0 ≤ s) : x ≤ blend x y s :=
  le_add_of_nonneg_right (mul_nonneg hs (sub_nonneg.mpr hxy))

theorem blend_le (hxy : x ≤ y) (hs : s ≤ 1) : blend x y s ≤ y := by
  have hone := blend_mono hxy hs
  rwa [blend, blend, one_mul, add_sub_cancel] at hone

end Blends

end Weighted
