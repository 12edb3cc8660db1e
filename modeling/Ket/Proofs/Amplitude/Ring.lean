import Mathlib.Algebra.Star.Basic
import Mathlib.Tactic.Ring
import Ket.Amplitude

/-! Amplitudes over exact scalars. If the scalars are a commutative ring, such as the real numbers,
then so are the amplitudes with their plain operations, and conjugation is an involution of it. -/

namespace Ket.Amplitude

variable {F : Type}

attribute [ext] Amplitude

section Parts

@[simp] theorem zero_re [Zero F] : (0 : Amplitude F).re = 0 := rfl
@[simp] theorem zero_im [Zero F] : (0 : Amplitude F).im = 0 := rfl
@[simp] theorem one_re [Zero F] [One F] : (1 : Amplitude F).re = 1 := rfl
@[simp] theorem one_im [Zero F] [One F] : (1 : Amplitude F).im = 0 := rfl
@[simp] theorem add_re [Add F] (z w : Amplitude F) : (z + w).re = z.re + w.re := rfl
@[simp] theorem add_im [Add F] (z w : Amplitude F) : (z + w).im = z.im + w.im := rfl
@[simp] theorem sub_re [Sub F] (z w : Amplitude F) : (z - w).re = z.re - w.re := rfl
@[simp] theorem sub_im [Sub F] (z w : Amplitude F) : (z - w).im = z.im - w.im := rfl
@[simp] theorem neg_re [Neg F] (z : Amplitude F) : (-z).re = -z.re := rfl
@[simp] theorem neg_im [Neg F] (z : Amplitude F) : (-z).im = -z.im := rfl

@[simp] theorem mul_re [Add F] [Sub F] [Mul F] (z w : Amplitude F) :
    (z * w).re = z.re * w.re - z.im * w.im := rfl

@[simp] theorem mul_im [Add F] [Sub F] [Mul F] (z w : Amplitude F) :
    (z * w).im = z.re * w.im + z.im * w.re := rfl

@[simp] theorem conj_re [Neg F] (z : Amplitude F) : z.conj.re = z.re := rfl
@[simp] theorem conj_im [Neg F] (z : Amplitude F) : z.conj.im = -z.im := rfl

end Parts

variable [CommRing F]

instance : CommRing (Amplitude F) where
  add_assoc z w v := by ext <;> simp [add_assoc]
  zero_add z := by ext <;> simp
  add_zero z := by ext <;> simp
  add_comm z w := by ext <;> simp [add_comm]
  left_distrib z w v := by ext <;> simp <;> ring
  right_distrib z w v := by ext <;> simp <;> ring
  zero_mul z := by ext <;> simp
  mul_zero z := by ext <;> simp
  mul_assoc z w v := by ext <;> simp <;> ring
  one_mul z := by ext <;> simp
  mul_one z := by ext <;> simp
  mul_comm z w := by ext <;> simp <;> ring
  sub_eq_add_neg z w := by ext <;> simp [sub_eq_add_neg]
  neg_add_cancel z := by ext <;> simp
  nsmul := nsmulRec
  zsmul := zsmulRec

instance : StarRing (Amplitude F) where
  star := conj
  star_involutive z := by ext <;> simp
  star_mul z w := by ext <;> simp <;> ring
  star_add z w := by ext <;> simp [add_comm]

theorem star_def (z : Amplitude F) : star z = z.conj := rfl

theorem addMul_eq (s z w : Amplitude F) : addMul s z w = s + z * w := by
  ext
  · simp [addMul, add_sub_assoc]
  · simp [addMul, add_assoc]

theorem conj_mul_self (z : Amplitude F) : z.conj * z = ofReal z.normSq := by
  ext
  · simp [ofReal, normSq]
  · simp [ofReal]
    ring

theorem ofReal_zero : (ofReal 0 : Amplitude F) = 0 := rfl

theorem ofReal_one : (ofReal 1 : Amplitude F) = 1 := rfl

theorem ofImaginary_zero : (ofImaginary 0 : Amplitude F) = 0 := rfl

theorem i_mul_i : (i : Amplitude F) * i = -1 := by
  ext <;> simp [i]

theorem ofReal_add (x y : F) : ofReal x + ofReal y = ofReal (x + y) :=
  Amplitude.ext rfl (add_zero 0)

theorem ofImaginary_add (x y : F) : ofImaginary x + ofImaginary y = ofImaginary (x + y) :=
  Amplitude.ext (add_zero 0) rfl

theorem neg_ofReal (x : F) : -ofReal x = ofReal (-x) := Amplitude.ext rfl neg_zero

theorem neg_ofImaginary (x : F) : -ofImaginary x = ofImaginary (-x) := Amplitude.ext neg_zero rfl

theorem ofReal_mul_star_ofReal (x y : F) : ofReal x * star (ofReal y) = ofReal (x * y) :=
  Amplitude.ext (show x * y - 0 * -0 = x * y by ring) (show x * -0 + 0 * y = 0 by ring)

theorem ofImaginary_mul_star_ofImaginary (x y : F) :
    ofImaginary x * star (ofImaginary y) = ofReal (x * y) :=
  Amplitude.ext (show 0 * 0 - x * -y = x * y by ring) (show 0 * -y + x * 0 = 0 by ring)

theorem ofReal_mul_star_ofImaginary (x y : F) :
    ofReal x * star (ofImaginary y) = ofImaginary (-(x * y)) :=
  Amplitude.ext (show x * 0 - 0 * -y = 0 by ring) (show x * -y + 0 * 0 = -(x * y) by ring)

theorem ofImaginary_mul_star_ofReal (x y : F) :
    ofImaginary x * star (ofReal y) = ofImaginary (x * y) :=
  Amplitude.ext (show 0 * y - x * -0 = 0 by ring) (show 0 * -0 + x * y = x * y by ring)

end Ket.Amplitude
