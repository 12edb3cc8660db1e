import Mathlib.Analysis.SpecialFunctions.Trigonometric.Basic
import Ket.Basic

/-! What exact scalars promise of cosine, sine and the square root of one half. Nothing else about
these functions is needed for states to keep their norm, and only rotations that follow each other
need more, namely the addition of angles. The real numbers keep the promise. -/

namespace Ket.Scalar

section

variable {F : Type} [CommRing F] [Scalar F]

/-- The cosine and the sine of the angle are the parts of a point of the unit circle. -/
def OnCircle (x : F) : Prop := cos x * cos x + sin x * sin x = 1

/-- The opposite angle belongs to the mirror image of the point. -/
structure Mirrored (x : F) : Prop where
  cos_neg : cos (-x) = cos x
  sin_neg : sin (-x) = -sin x

theorem OnCircle.with_neg_sin {x : F} (hx : OnCircle x) :
    cos x * cos x + -sin x * -sin x = 1 := by
  rw [neg_mul_neg]
  exact hx

theorem OnCircle.neg {x : F} (hx : OnCircle x) (hm : Mirrored x) : OnCircle (-x) := by
  rw [OnCircle, hm.cos_neg, hm.sin_neg]
  exact hx.with_neg_sin

variable (F) in
/-- Angles are halved exactly and can be added under cosine and sine. -/
structure AngleAddition : Prop where
  two_mul_half (x : F) : 2 * half x = x
  cos_add (x y : F) : cos (x + y) = cos x * cos y - sin x * sin y
  sin_add (x y : F) : sin (x + y) = sin x * cos y + cos x * sin y

/-- Half of one is the inverse of two, so there is only one half of anything. -/
theorem AngleAddition.half_eq (h : AngleAddition F) (x : F) : half x = half 1 * x := by
  calc half x = 2 * half 1 * half x := by rw [h.two_mul_half, one_mul]
    _ = half 1 * (2 * half x) := by ring
    _ = half 1 * x := by rw [h.two_mul_half]

theorem AngleAddition.half_add (h : AngleAddition F) (x y : F) :
    half (x + y) = half x + half y := by
  rw [h.half_eq, h.half_eq x, h.half_eq y, mul_add]

theorem AngleAddition.half_neg (h : AngleAddition F) (x : F) : half (-x) = -half x := by
  rw [h.half_eq, h.half_eq x, mul_neg]

theorem AngleAddition.sin_zero (h : AngleAddition F) (hcos : cos (0 : F) = 1) :
    sin (0 : F) = 0 := by
  have hsum := h.sin_add 0 0
  rw [add_zero, hcos, mul_one, one_mul] at hsum
  exact left_eq_add.1 hsum

end

noncomputable instance : Scalar ℝ where
  half x := x / 2
  cos := Real.cos
  sin := Real.sin
  sqrt := Real.sqrt
  invSqrtTwo := Real.sqrt (1 / 2)
  quarterPi := Real.pi / 4
  isFinite _ := true

theorem onCircle_real (x : ℝ) : OnCircle x := by
  rw [OnCircle, ← sq, ← sq]
  exact Real.cos_sq_add_sin_sq x

theorem mirrored_real (x : ℝ) : Mirrored x := ⟨Real.cos_neg x, Real.sin_neg x⟩

theorem angleAddition_real : AngleAddition ℝ where
  two_mul_half x := mul_div_cancel₀ x two_ne_zero
  cos_add := Real.cos_add
  sin_add := Real.sin_add

theorem invSqrtTwo_real : (2 : ℝ) * (invSqrtTwo * invSqrtTwo) = 1 := by
  have h : (invSqrtTwo : ℝ) * invSqrtTwo = 1 / 2 := Real.mul_self_sqrt (by norm_num)
  rw [h]
  norm_num

end Ket.Scalar
