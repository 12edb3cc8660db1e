import Ket.Amplitude
import Ket.Grid

/-! Zeros of binary64, which come with either sign. A finite number times a zero is a zero, and so
are sums and differences of zeros, so a sum of such products is a zero as well. -/

namespace Ket

/-- A zero of either sign. -/
def IsZero (x : Float) : Prop := x = 0 ∨ x = -0

namespace IsZero

open Float.Model in
theorem pack (s : UnpackedFloat.Sign) : IsZero ⟨Float.Model.pack (.zero s)⟩ := by
  cases s
  · exact .inr rfl
  · exact .inl rfl

open Float.Model in
theorem exists_unpack {x : Float} (hx : IsZero x) : ∃ s, x.toModel.unpack = .zero s := by
  rcases hx with rfl | rfl
  · exact ⟨.positive, rfl⟩
  · exact ⟨.negative, rfl⟩

open Float.Model in
theorem finite_mul {x y : Float} (hx : x.isFinite = true) (hy : IsZero y) : IsZero (x * y) := by
  have hmul : x * y = ⟨.pack (.mul .binary64 x.toModel.unpack y.toModel.unpack)⟩ := rfl
  have hfin : x.toModel.unpack.isFinite = true := hx
  obtain ⟨s, hs⟩ := hy.exists_unpack
  rw [hmul, hs]
  cases hu : x.toModel.unpack with
  | infinity t | notANumber =>
    rw [hu] at hfin
    cases hfin
  | zero t => exact pack (t * s)
  | finite t m e hm => exact pack (t * s)

theorem add {x y : Float} (hx : IsZero x) (hy : IsZero y) : IsZero (x + y) := by
  rcases hx with rfl | rfl <;> rcases hy with rfl | rfl <;> unfold IsZero <;> decide

theorem sub {x y : Float} (hx : IsZero x) (hy : IsZero y) : IsZero (x - y) := by
  rcases hx with rfl | rfl <;> rcases hy with rfl | rfl <;> unfold IsZero <;> decide

end IsZero

namespace Amplitude

/-- Both parts are zeros. -/
structure Vanishes (z : Amplitude Float) : Prop where
  re : IsZero z.re
  im : IsZero z.im

/-- Both parts are finite numbers. -/
def IsFinite (z : Amplitude Float) : Prop := z.re.isFinite = true ∧ z.im.isFinite = true

instance (z : Amplitude Float) : Decidable z.IsFinite :=
  inferInstanceAs (Decidable (z.re.isFinite = true ∧ z.im.isFinite = true))

theorem vanishes_zero : Vanishes 0 := ⟨.inl rfl, .inl rfl⟩

variable {z w : Amplitude Float}

theorem Vanishes.add (hz : z.Vanishes) (hw : w.Vanishes) : (z + w).Vanishes :=
  ⟨hz.re.add hw.re, hz.im.add hw.im⟩

theorem IsFinite.mul_vanishes (hz : z.IsFinite) (hw : w.Vanishes) : (z * w).Vanishes where
  re := (hw.re.finite_mul hz.1).sub (hw.im.finite_mul hz.2)
  im := (hw.im.finite_mul hz.1).add (hw.re.finite_mul hz.2)

theorem Vanishes.total {term : Nat → Amplitude Float} {n : Nat} (h : ∀ c < n, (term c).Vanishes) :
    (Grid.total term n).Vanishes := by
  induction n with
  | zero => exact vanishes_zero
  | succ n ih =>
    have hsum := ih fun c hc => h c (Nat.lt_succ_of_lt hc)
    exact hsum.add (h n (Nat.lt_succ_self n))

end Amplitude

end Ket
