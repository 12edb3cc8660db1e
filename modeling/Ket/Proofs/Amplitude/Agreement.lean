import Mathlib.Logic.Basic
import Ket.Amplitude

/-! Arithmetic on few numbers. Where only some numbers of binary64 ever meet, the operands, any
numbers whose sums, differences and products agree with theirs lead to the same amplitudes. -/

namespace Ket.Amplitude

deriving instance DecidableEq for Amplitude

section Parts

variable (operand : Float → Prop)

/-- Both parts are operands. -/
def Within (z : Amplitude Float) : Prop := operand z.re ∧ operand z.im

/-- Nothing else is added, subtracted or multiplied in `s + z * w`. -/
structure Covered (s z w : Amplitude Float) : Prop where
  sum : Within operand s
  left : Within operand z
  right : Within operand w
  re : operand (z.re * w.re) ∧ operand (z.im * w.im)
  im : operand (z.re * w.im) ∧ operand (z.im * w.re)
  product : Within operand (z * w)

variable [DecidablePred operand]

instance : DecidablePred (Within operand) := fun z =>
  inferInstanceAs (Decidable (operand z.re ∧ operand z.im))

instance (s z w : Amplitude Float) : Decidable (Covered operand s z w) :=
  decidable_of_iff (Within operand s ∧ Within operand z ∧ Within operand w ∧
      (operand (z.re * w.re) ∧ operand (z.im * w.im)) ∧
      (operand (z.re * w.im) ∧ operand (z.im * w.re)) ∧ Within operand (z * w))
    ⟨fun ⟨h₁, h₂, h₃, h₄, h₅, h₆⟩ => ⟨h₁, h₂, h₃, h₄, h₅, h₆⟩,
      fun ⟨h₁, h₂, h₃, h₄, h₅, h₆⟩ => ⟨h₁, h₂, h₃, h₄, h₅, h₆⟩⟩

/-- An operation that gives no number as soon as one that is not an operand comes in. -/
def guarded (f : Float → Float → Float) (x y : Float) : Float :=
  if operand x ∧ operand y then f x y else 0 / 0

abbrev guardedAdd : Add Float := ⟨guarded operand (· + ·)⟩

abbrev guardedSub : Sub Float := ⟨guarded operand (· - ·)⟩

abbrev guardedMul : Mul Float := ⟨guarded operand (· * ·)⟩

end Parts

variable {F : Type} [Zero F] [One F] [Add F] [Sub F] [Mul F] [Neg F]

/-- Numbers that stand for those of binary64, with the same sums, differences and products as far as
the operands are concerned. Of any other number nothing is asked. -/
structure AgreesOn (operand : Float → Prop) (of : Float → F) : Prop where
  zero : of 0 = 0
  one : of 1 = 1
  neg_zero : of (-0) = -0
  add : ∀ x y, operand x → operand y → of (x + y) = of x + of y
  sub : ∀ x y, operand x → operand y → of (x - y) = of x - of y
  mul : ∀ x y, operand x → operand y → of (x * y) = of x * of y

theorem agreesOn_id (operand : Float → Prop) : AgreesOn operand (id : Float → Float) :=
  ⟨rfl, rfl, rfl, fun _ _ _ _ => rfl, fun _ _ _ _ => rfl, fun _ _ _ _ => rfl⟩

theorem agreesOn_guarded (operand : Float → Prop) [DecidablePred operand] :
    @AgreesOn Float _ _ (guardedAdd operand) (guardedSub operand) (guardedMul operand) _ operand
      id :=
  @AgreesOn.mk Float _ _ (guardedAdd operand) (guardedSub operand) (guardedMul operand) _ operand id
    rfl rfl rfl (fun _ _ hx hy => (if_pos ⟨hx, hy⟩).symm)
    (fun _ _ hx hy => (if_pos ⟨hx, hy⟩).symm) (fun _ _ hx hy => (if_pos ⟨hx, hy⟩).symm)

/-- The same parts as other numbers. -/
def lift (of : Float → F) (z : Amplitude Float) : Amplitude F := ⟨of z.re, of z.im⟩

namespace AgreesOn

variable {operand : Float → Prop} {of : Float → F} (h : AgreesOn operand of)

include h

theorem lift_zero : lift of 0 = 0 := congrArg₂ Amplitude.mk h.zero h.zero

theorem lift_one : lift of 1 = 1 := congrArg₂ Amplitude.mk h.one h.zero

theorem lift_addMul {s z w : Amplitude Float} (hc : Covered operand s z w) :
    lift of s + lift of z * lift of w = lift of (s + z * w) := by
  refine congrArg₂ Amplitude.mk ?_ ?_
  · change of s.re + (of z.re * of w.re - of z.im * of w.im) =
      of (s.re + (z * w).re)
    rw [h.add _ _ hc.sum.1 hc.product.1, ← h.mul _ _ hc.left.1 hc.right.1,
      ← h.mul _ _ hc.left.2 hc.right.2, ← h.sub _ _ hc.re.1 hc.re.2]
    rfl
  · change of s.im + (of z.re * of w.im + of z.im * of w.re) =
      of (s.im + (z * w).im)
    rw [h.add _ _ hc.sum.2 hc.product.2, ← h.mul _ _ hc.left.1 hc.right.2,
      ← h.mul _ _ hc.left.2 hc.right.1, ← h.add _ _ hc.im.1 hc.im.2]
    rfl

end AgreesOn

end Ket.Amplitude
