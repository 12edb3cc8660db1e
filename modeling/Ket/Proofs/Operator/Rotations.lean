import Mathlib.LinearAlgebra.Matrix.Kronecker
import Ket.Proofs.Operator.Product
import Ket.Proofs.Operator.UnitaryGates

/-! Rotations as exponentials of Pauli operators. A generator that is its own inverse has for
exponential the combination of the identity and itself by a cosine and a sine, and such combinations
are multiplied by adding the angles. -/

namespace Ket.Operator

variable {F : Type} [CommRing F]

section Rotor

variable {n : Nat} {P : Matrix (Fin n) (Fin n) (Amplitude F)}

/-- The exponential of `-iφP` for an angle `φ` with the cosine `c` and the sine `s`, if `P` is its
own inverse. -/
def rotor (c s : F) (P : Matrix (Fin n) (Fin n) (Amplitude F)) :
    Matrix (Fin n) (Fin n) (Amplitude F) :=
  Amplitude.ofReal c • 1 - (Amplitude.i * Amplitude.ofReal s) • P

theorem rotor_apply (c s : F) (r k : Fin n) :
    rotor c s P r k = ⟨(if r = k then c else 0) + s * (P r k).im, -(s * (P r k).re)⟩ := by
  rw [rotor, Matrix.sub_apply, Matrix.smul_apply, Matrix.smul_apply, Matrix.one_apply]
  split <;> ext <;> simp [Amplitude.ofReal, Amplitude.i]

theorem rotor_one_zero : rotor 1 0 P = 1 := by
  refine Matrix.ext fun r k => ?_
  rw [rotor_apply, Matrix.one_apply]
  split <;> ext <;> simp

theorem rotor_mul (hP : P * P = 1) (c s c' s' : F) :
    rotor c s P * rotor c' s' P = rotor (c * c' - s * s') (s * c' + c * s') P := by
  have hcos : Amplitude.ofReal c * Amplitude.ofReal c' +
      Amplitude.i * Amplitude.ofReal s * (Amplitude.i * Amplitude.ofReal s') =
        Amplitude.ofReal (c * c' - s * s') := by
    ext <;> simp [Amplitude.ofReal, Amplitude.i, sub_eq_add_neg]
  have hsin : Amplitude.ofReal c * (Amplitude.i * Amplitude.ofReal s') +
      Amplitude.i * Amplitude.ofReal s * Amplitude.ofReal c' =
        Amplitude.i * Amplitude.ofReal (s * c' + c * s') := by
    ext <;> simp [Amplitude.ofReal, Amplitude.i, add_comm]
  simp only [rotor, sub_mul, mul_sub, smul_mul_smul_comm, mul_one, one_mul, hP]
  rw [← hcos, ← hsin, add_smul, add_smul]
  abel

end Rotor

section Generators

/-- The product of a matrix with itself on two qubits, rows and columns in the order of the bits. -/
def onBoth (P : Matrix (Fin 2) (Fin 2) (Amplitude F)) :
    Matrix (Fin (2 * 2)) (Fin (2 * 2)) (Amplitude F) :=
  Matrix.reindex finProdFinEquiv finProdFinEquiv (Matrix.kroneckerMap (· * ·) P P)

theorem onBoth_eq (a b c d : Amplitude F) :
    onBoth !![a, b; c, d] =
      !![a * a, a * b, b * a, b * b; a * c, a * d, b * c, b * d;
        c * a, c * b, d * a, d * b; c * c, c * d, d * c, d * d] := by
  refine Matrix.ext fun r k => ?_
  fin_cases r <;> fin_cases k <;> rfl

theorem onBoth_mul_self {P : Matrix (Fin 2) (Fin 2) (Amplitude F)} (hP : P * P = 1) :
    onBoth P * onBoth P = 1 := by
  simp only [onBoth, Matrix.reindex_apply, Matrix.submatrix_mul_equiv]
  rw [← Matrix.mul_kronecker_mul, hP, Matrix.one_kronecker_one, Matrix.submatrix_one_equiv]

def pauli : Axis → Operator (Amplitude F)
  | .x => pauliX
  | .y => pauliY
  | .z => pauliZ

theorem toMatrix_pauli (axis : Axis) :
    (pauli axis : Operator (Amplitude F)).toMatrix 2 =
      match axis with
      | .x => !![0, 1; 1, 0]
      | .y => !![0, -.i; .i, 0]
      | .z => !![1, 0; 0, -1] := by
  cases axis <;> exact toMatrix_oneQubit _ _ _ _

theorem pauli_mul_self (axis : Axis) :
    (pauli axis : Operator (Amplitude F)).toMatrix 2 * (pauli axis).toMatrix 2 = 1 := by
  rw [toMatrix_pauli, Matrix.one_fin_two]
  cases axis <;> simp [Amplitude.i_mul_i]

/-- The matrix that a gate with an angle rotates by. -/
inductive Generator : Gate → (n : Nat) → Matrix (Fin n) (Fin n) (Amplitude F) → Prop
  | rotation (axis : Axis) : Generator (.rotation axis) 2 ((pauli axis).toMatrix 2)
  | pairRotation (axis : Axis) :
      Generator (.pairRotation axis) (2 * 2) (onBoth ((pauli axis).toMatrix 2))

theorem Generator.mul_self {g : Gate} {n : Nat} {P : Matrix (Fin n) (Fin n) (Amplitude F)}
    (h : Generator g n P) : P * P = 1 := by
  cases h with
  | rotation axis => exact pauli_mul_self axis
  | pairRotation axis => exact onBoth_mul_self (pauli_mul_self axis)

variable [Scalar F]

theorem toMatrix_rotation {θ : F} (hm : Scalar.Mirrored (Scalar.half θ)) (axis : Axis) :
    (rotation axis θ).toMatrix 2 =
      rotor (Scalar.cos (Scalar.half θ)) (Scalar.sin (Scalar.half θ))
        ((pauli axis).toMatrix 2) := by
  rw [toMatrix_pauli]
  refine Matrix.ext fun r k => ?_
  rw [rotor_apply]
  -- entry by entry, each by its two parts
  cases axis <;> rw [rotation, toMatrix_oneQubit] <;> fin_cases r <;> fin_cases k <;> ext <;>
    simp [Amplitude.ofReal, Amplitude.ofImaginary, Amplitude.phase, Amplitude.i, hm.cos_neg,
      hm.sin_neg]

theorem toMatrix_pairRotation {θ : F} (hm : Scalar.Mirrored (Scalar.half θ)) (axis : Axis) :
    (pairRotation axis θ).toMatrix (2 * 2) =
      rotor (Scalar.cos (Scalar.half θ)) (Scalar.sin (Scalar.half θ))
        (onBoth ((pauli axis).toMatrix 2)) := by
  rw [toMatrix_pauli]
  refine Matrix.ext fun r k => ?_
  rw [rotor_apply]
  cases axis <;> rw [pairRotation, toMatrix_crossed, onBoth_eq] <;> fin_cases r <;> fin_cases k <;>
    ext <;>
    simp [Amplitude.ofReal, Amplitude.ofImaginary, Amplitude.phase, Amplitude.i, hm.cos_neg,
      hm.sin_neg]

end Generators

section Exponentials

variable [Scalar F] {n : Nat} {P : Matrix (Fin n) (Fin n) (Amplitude F)}
  {op op' : Operator (Amplitude F)} {φ ψ : F}

/-- The operator is the exponential of `-iφP`. -/
structure Exponential (op : Operator (Amplitude F)) (n : Nat)
    (P : Matrix (Fin n) (Fin n) (Amplitude F)) (φ : F) : Prop extends op.WellFormed where
  dim_eq : op.dim = n
  matrix : op.toMatrix n = rotor (Scalar.cos φ) (Scalar.sin φ) P

theorem Exponential.arity_eq (h : op.Exponential n P φ) (h' : op'.Exponential n P ψ) :
    op.arity = op'.arity := by
  refine Nat.pow_right_injective (Nat.le_refl 2) ?_
  show 2 ^ op.arity = 2 ^ op'.arity
  rw [← op.dim_eq, ← op'.dim_eq, h.dim_eq, h'.dim_eq]

theorem Exponential.unique (h : op.Exponential n P φ) (h' : op'.Exponential n P φ) : op = op' := by
  have hn : 2 ^ op.arity = n := op.dim_eq.symm.trans h.dim_eq
  exact h.toWellFormed.eq_of_toMatrix h'.toWellFormed (h.arity_eq h') hn
    (h.matrix.trans h'.matrix.symm)

/-- Exponentials of one matrix are multiplied by adding the angles. -/
theorem Exponential.mul (hadd : Scalar.AngleAddition F) (hP : P * P = 1)
    (h : op.Exponential n P φ) (h' : op'.Exponential n P ψ) :
    (op.mul op').Exponential n P (φ + ψ) where
  toWellFormed := h.toWellFormed.mul h'.toWellFormed (h'.arity_eq h)
  dim_eq := h.dim_eq
  matrix := by
    rw [toMatrix_mul (h.rows.trans h.dim_eq) (h.cols.trans h.dim_eq) (h'.cols.trans h'.dim_eq),
      h.matrix, h'.matrix, rotor_mul hP, hadd.cos_add, hadd.sin_add]

/-- A turn by zero is the identity. -/
theorem Exponential.eq_identityOn (hadd : Scalar.AngleAddition F)
    (hcos : Scalar.cos (0 : F) = 1) (h : op.Exponential n P 0) : op = identityOn op.arity := by
  obtain rfl : 2 ^ op.arity = n := op.dim_eq.symm.trans h.dim_eq
  refine h.toWellFormed.eq_of_toMatrix (wellFormed_identityOn h.arity_pos h.arity_le) rfl rfl ?_
  rw [h.matrix, hcos, hadd.sin_zero hcos, rotor_one_zero, toMatrix_identityOn]

/-- A turn takes the opposite one back. -/
theorem Exponential.mul_neg (hadd : Scalar.AngleAddition F) (hcos : Scalar.cos (0 : F) = 1)
    (hP : P * P = 1) (h : op.Exponential n P φ) (h' : op'.Exponential n P (-φ)) :
    op'.mul op = identityOn op.arity := by
  have hmul := h'.mul hadd hP h
  rw [neg_add_cancel] at hmul
  rw [hmul.eq_identityOn hadd hcos]
  exact congrArg identityOn (h'.arity_eq h)

/-- Every finite angle gives a gate of the family, and its operator is the exponential of half the
angle. -/
theorem Generator.exists_exponential {g : Gate} (hg : Generator g n P) {θ : F}
    (hm : Scalar.Mirrored (Scalar.half θ)) (hfin : Scalar.isFinite θ = true) :
    ∃ op, ofGate? g θ = .ok (some op) ∧ op.arity = g.arity ∧
      op.Exponential n P (Scalar.half θ) := by
  cases hg with
  | rotation axis =>
    have hacts := actsOn_rotation axis θ
    have hdim := congrArg (1 <<< ·) hacts.arity_eq
    exact ⟨_, if_pos hfin, hacts.arity_eq, hacts.toWellFormed, hdim, toMatrix_rotation hm axis⟩
  | pairRotation axis =>
    have hacts := actsOn_pairRotation axis θ
    have hdim := congrArg (1 <<< ·) hacts.arity_eq
    exact ⟨_, if_pos hfin, hacts.arity_eq, hacts.toWellFormed, hdim, toMatrix_pairRotation hm axis⟩

end Exponentials

end Ket.Operator
