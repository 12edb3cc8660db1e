import Mathlib.LinearAlgebra.Matrix.Notation
import Mathlib.Tactic.FinCases
import Ket.Proofs.Operator.Unitary
import Ket.Proofs.Scalar.Exact

/-! The operator of every gate is unitary over exact scalars. For exchanges, controlled operators
and matrices on the two diagonals this is said once for all members of the family. -/

namespace Ket.Operator

variable {F : Type} [CommRing F]

/-- Orthogonality of two rows does not depend on which of them is conjugated. -/
theorem orthogonal_symm {a b c d : Amplitude F} (h : a * star c + b * star d = 0) :
    c * star a + d * star b = 0 := by
  have hstar := congrArg star h
  rwa [star_add, star_mul, star_mul, star_star, star_star, star_zero] at hstar

theorem toMatrix_oneQubit (a b c d : Amplitude F) :
    (oneQubit a b c d).toMatrix 2 = !![a, b; c, d] := by
  refine Matrix.ext fun i j => ?_
  fin_cases i <;> fin_cases j <;> rfl

theorem unitary_oneQubit {a b c d : Amplitude F} (hab : a * star a + b * star b = 1)
    (hcd : c * star c + d * star d = 1) (horth : a * star c + b * star d = 0) :
    (oneQubit a b c d).Unitary := by
  have horth' := orthogonal_symm horth
  rw [unitary_iff_mem (n := 2) rfl rfl, Matrix.mem_unitaryGroup_iff, toMatrix_oneQubit]
  refine Matrix.ext fun i j => ?_
  rw [Matrix.mul_apply, Fin.sum_univ_two, Matrix.one_apply, Matrix.star_apply, Matrix.star_apply]
  fin_cases i <;> fin_cases j
  · exact hab
  · exact horth
  · exact horth'
  · exact hcd

theorem toMatrix_crossed (d₀ d₁ d₂ d₃ a₀ a₁ a₂ a₃ : Amplitude F) :
    (crossed d₀ d₁ d₂ d₃ a₀ a₁ a₂ a₃).toMatrix 4 =
      !![d₀, 0, 0, a₀; 0, d₁, a₁, 0; 0, a₂, d₂, 0; a₃, 0, 0, d₃] := by
  refine Matrix.ext fun i j => ?_
  fin_cases i <;> fin_cases j <;> rfl

/-- The basis states 00 and 11 are mixed with each other, and so are 01 and 10. -/
theorem unitary_crossed {d₀ d₁ d₂ d₃ a₀ a₁ a₂ a₃ : Amplitude F}
    (h₀ : d₀ * star d₀ + a₀ * star a₀ = 1) (h₁ : d₁ * star d₁ + a₁ * star a₁ = 1)
    (h₂ : a₂ * star a₂ + d₂ * star d₂ = 1) (h₃ : a₃ * star a₃ + d₃ * star d₃ = 1)
    (houter : d₀ * star a₃ + a₀ * star d₃ = 0) (hinner : d₁ * star a₂ + a₁ * star d₂ = 0) :
    (crossed d₀ d₁ d₂ d₃ a₀ a₁ a₂ a₃).Unitary := by
  have houter' := orthogonal_symm houter
  have hinner' := orthogonal_symm hinner
  rw [unitary_iff_mem (n := 4) rfl rfl, Matrix.mem_unitaryGroup_iff, toMatrix_crossed]
  refine Matrix.ext fun i j => ?_
  rw [Matrix.mul_apply, Fin.sum_univ_four, Matrix.one_apply]
  simp only [Matrix.star_apply]
  fin_cases i <;> fin_cases j <;>
    simp only [Fin.zero_eta, Fin.mk_one, Fin.reduceFinMk, Fin.isValue, Matrix.of_apply,
      Matrix.cons_val', Matrix.cons_val_fin_one, Matrix.cons_val, Matrix.cons_val_zero,
      Matrix.cons_val_one, Fin.reduceEq, if_true, if_false, zero_ne_one, one_ne_zero, star_zero,
      mul_zero, zero_mul, add_zero, zero_add, h₀, h₁, h₂, h₃, houter, houter', hinner, hinner']

/-- A row with a single one in it picks an entry. -/
theorem sum_unit_row {f g : Nat → Amplitude F} {n r : Nat} (hr : r < n)
    (hf : ∀ k < n, f k = if k = r then 1 else 0) : ∑ k ∈ Finset.range n, f k * g k = g r := by
  rw [Finset.sum_eq_single_of_mem r (Finset.mem_range.2 hr) fun k hk hne => ?_]
  · rw [hf r hr, if_pos rfl, one_mul]
  · rw [hf k (Finset.mem_range.1 hk), if_neg hne, zero_mul]

theorem unitary_exchange {count a b : Nat} (ha : a < 2 ^ count) (hb : b < 2 ^ count) :
    (exchange count a b : Operator (Amplitude F)).Unitary := by
  have hdim : 1 <<< count = 2 ^ count := Nat.one_shiftLeft _
  have hget : ∀ r < 2 ^ count, ∀ k < 2 ^ count,
      (exchange count a b : Operator (Amplitude F)).matrix.get r k =
        if k = Equiv.swap a b r then 1 else 0 := by
    intro r hr k hk
    have hswap : r = Equiv.swap a b k ↔ k = Equiv.swap a b r := by
      rw [eq_comm, Equiv.swap_apply_eq_iff]
    rw [exchange, Grid.get_ofFn (hdim ▸ hr) (hdim ▸ hk), ← Equiv.swap_apply_def]
    exact if_congr hswap rfl rfl
  have hlt : ∀ k < 2 ^ count, Equiv.swap a b k < 2 ^ count := by
    intro k hk
    rw [Equiv.swap_apply_def]
    split_ifs <;> assumption
  refine (unitary_iff hdim hdim).2 fun r hr c hc => ?_
  rw [sum_unit_row (hlt r hr) (hget r hr), hget c hc _ (hlt r hr), apply_ite star, star_one,
    star_zero]
  exact if_congr (Equiv.swap a b).apply_eq_iff_eq rfl rfl

theorem unitary_controlled {op op' : Operator (Amplitude F)} (hop : op.WellFormed)
    (hu : op.Unitary) (h : op.controlled = .ok op') : op'.Unitary := by
  have hm := matrix_of_ofGrid h
  have hrows : op'.matrix.rows = op.dim + op.dim := by rw [hm, ← Nat.two_mul]; rfl
  have hcols : op'.matrix.cols = op.dim + op.dim := by rw [hm, ← Nat.two_mul]; rfl
  have hget : ∀ r < op.dim + op.dim, ∀ k < op.dim + op.dim, op'.matrix.get r k =
      if op.dim ≤ r ∧ op.dim ≤ k then op.matrix.get (r - op.dim) (k - op.dim)
      else if r = k then 1 else 0 := by
    intro r hr k hk
    exact get_controlled h (by omega) (by omega)
  have hidentity : ∀ r < op.dim, ∀ k < op.dim + op.dim, op'.matrix.get r k =
      if k = r then 1 else 0 := by
    intro r hr k hk
    rw [hget r (by omega) k hk, if_neg (by omega)]
    exact if_congr eq_comm rfl rfl
  refine (unitary_iff hrows hcols).2 fun r hr c hc => ?_
  by_cases hrd : r < op.dim
  · rw [sum_unit_row hr (hidentity r hrd), hget c hc r hr, if_neg (by omega), apply_ite star,
      star_one, star_zero]
    exact if_congr eq_comm rfl rfl
  by_cases hcd : c < op.dim
  · have hstar : ∀ k < op.dim + op.dim, star (op'.matrix.get c k) = if k = c then 1 else 0 := by
      intro k hk
      rw [hidentity c hcd k hk, apply_ite star, star_one, star_zero]
    simp only [mul_comm (op'.matrix.get r _)]
    rw [sum_unit_row hc hstar, hget r hr c hc, if_neg (by omega)]
  · -- both rows are zero in the columns where the control is 0
    have hleft : ∀ k ∈ Finset.range op.dim,
        op'.matrix.get r k * star (op'.matrix.get c k) = 0 := by
      intro k hk
      rw [Finset.mem_range] at hk
      rw [hget r hr k (by omega), if_neg (by omega), if_neg (by omega), zero_mul]
    have hright : ∀ k ∈ Finset.range op.dim,
        op'.matrix.get r (op.dim + k) * star (op'.matrix.get c (op.dim + k)) =
          op.matrix.get (r - op.dim) k * star (op.matrix.get (c - op.dim) k) := by
      intro k hk
      rw [Finset.mem_range] at hk
      rw [hget r hr _ (by omega), hget c hc _ (by omega), if_pos (by omega), if_pos (by omega),
        Nat.add_sub_cancel_left]
    have hrow := (unitary_iff hop.rows hop.cols).1 hu (r - op.dim) (by omega) (c - op.dim)
      (by omega)
    rw [Finset.sum_range_add, Finset.sum_eq_zero hleft, zero_add, Finset.sum_congr rfl hright, hrow]
    exact if_congr (by omega) rfl rfl

/-- A row with a real and an imaginary entry. -/
theorem mixed_row {u v : F} (h : u * u + v * v = 1) :
    Amplitude.ofReal u * star (Amplitude.ofReal u) +
      Amplitude.ofImaginary v * star (Amplitude.ofImaginary v) = 1 := by
  rw [Amplitude.ofReal_mul_star_ofReal, Amplitude.ofImaginary_mul_star_ofImaginary,
    Amplitude.ofReal_add, h, Amplitude.ofReal_one]

/-- Such a row and the one with the same entries in the other order. -/
theorem mixed_orthogonal (u v : F) :
    Amplitude.ofReal u * star (Amplitude.ofImaginary v) +
      Amplitude.ofImaginary v * star (Amplitude.ofReal u) = 0 := by
  rw [Amplitude.ofReal_mul_star_ofImaginary, Amplitude.ofImaginary_mul_star_ofReal,
    Amplitude.ofImaginary_add, mul_comm v, neg_add_cancel, Amplitude.ofImaginary_zero]

section Gates

variable [Scalar F]

theorem phase_mul_star {x : F} (hx : Scalar.OnCircle x) :
    Amplitude.phase x * star (Amplitude.phase x) = 1 := by
  refine Amplitude.ext ?_ ?_
  · change Scalar.cos x * Scalar.cos x - Scalar.sin x * -Scalar.sin x = 1
    rw [mul_neg, sub_neg_eq_add]
    exact hx
  · change Scalar.cos x * -Scalar.sin x + Scalar.sin x * Scalar.cos x = 0
    ring

theorem unitary_rotation {θ : F} (hθ : Scalar.OnCircle (Scalar.half θ))
    (hm : Scalar.Mirrored (Scalar.half θ)) (axis : Axis) :
    (rotation axis θ : Operator (Amplitude F)).Unitary := by
  cases axis with
  | x =>
    have hrow := mixed_row hθ.with_neg_sin
    exact unitary_oneQubit hrow ((add_comm _ _).trans hrow) (mixed_orthogonal _ _)
  | y =>
    refine unitary_oneQubit ?_ ?_ ?_ <;>
      simp only [Amplitude.neg_ofReal, Amplitude.ofReal_mul_star_ofReal, Amplitude.ofReal_add,
        neg_mul_neg]
    · rw [hθ, Amplitude.ofReal_one]
    · rw [add_comm, hθ, Amplitude.ofReal_one]
    · rw [neg_mul, mul_comm, add_neg_cancel, Amplitude.ofReal_zero]
  | z =>
    refine unitary_oneQubit ?_ ?_ ?_
    · rw [star_zero, mul_zero, add_zero, phase_mul_star (hθ.neg hm)]
    · rw [star_zero, mul_zero, zero_add, phase_mul_star hθ]
    · rw [star_zero, mul_zero, zero_mul, add_zero]

theorem unitary_pairRotation {θ : F} (hθ : Scalar.OnCircle (Scalar.half θ))
    (hm : Scalar.Mirrored (Scalar.half θ)) (axis : Axis) :
    (pairRotation axis θ : Operator (Amplitude F)).Unitary := by
  cases axis with
  | x =>
    have hrow := mixed_row hθ.with_neg_sin
    have hrow' := (add_comm _ _).trans hrow
    exact unitary_crossed hrow hrow hrow' hrow' (mixed_orthogonal _ _) (mixed_orthogonal _ _)
  | y =>
    have houter := mixed_row hθ
    have hinner := mixed_row hθ.with_neg_sin
    simp only [pairRotation, Amplitude.neg_ofImaginary]
    exact unitary_crossed houter hinner ((add_comm _ _).trans hinner) ((add_comm _ _).trans houter)
      (mixed_orthogonal _ _) (mixed_orthogonal _ _)
  | z =>
    have heven := phase_mul_star (hθ.neg hm)
    have hodd := phase_mul_star hθ
    refine unitary_crossed ?_ ?_ ?_ ?_ ?_ ?_ <;>
      simp only [star_zero, mul_zero, zero_mul, add_zero, zero_add, heven, hodd]

/-- The square root of one half, squared twice. -/
theorem unitary_hadamard (hroot : (2 : F) * (Scalar.invSqrtTwo * Scalar.invSqrtTwo) = 1) :
    (hadamard : Operator (Amplitude F)).Unitary := by
  rw [two_mul] at hroot
  refine unitary_oneQubit ?_ ?_ ?_ <;>
    simp only [Amplitude.neg_ofReal, Amplitude.ofReal_mul_star_ofReal, Amplitude.ofReal_add,
      neg_mul, mul_neg, neg_neg]
  · rw [hroot, Amplitude.ofReal_one]
  · rw [hroot, Amplitude.ofReal_one]
  · rw [add_neg_cancel, Amplitude.ofReal_zero]

theorem unitary_ofOneQubitGate (hroot : (2 : F) * (Scalar.invSqrtTwo * Scalar.invSqrtTwo) = 1)
    (hpi : Scalar.OnCircle (Scalar.quarterPi : F)) (g : OneQubitGate) :
    (ofOneQubitGate g : Operator (Amplitude F)).Unitary := by
  have hi : (Amplitude.i : Amplitude F) * star Amplitude.i = 1 := by
    have h := Amplitude.ofImaginary_mul_star_ofImaginary (1 : F) 1
    rwa [mul_one, Amplitude.ofReal_one] at h
  cases g with
  | h => exact unitary_hadamard hroot
  | _ =>
    refine unitary_oneQubit ?_ ?_ ?_ <;>
      simp only [star_zero, star_one, star_neg, neg_mul_neg, mul_zero, zero_mul, add_zero,
        zero_add, mul_one, hi, phase_mul_star hpi]

theorem unitary_of_ofTwoQubitGate
    (hroot : (2 : F) * (Scalar.invSqrtTwo * Scalar.invSqrtTwo) = 1)
    (hpi : Scalar.OnCircle (Scalar.quarterPi : F)) {g : TwoQubitGate} {op : Operator (Amplitude F)}
    (h : ofTwoQubitGate g = .ok op) : op.Unitary := by
  cases g with
  | cx =>
    cases h
    exact unitary_exchange (by decide) (by decide)
  | cz =>
    cases h
    refine unitary_crossed ?_ ?_ ?_ ?_ ?_ ?_ <;>
      simp only [star_zero, star_one, star_neg, neg_mul_neg, mul_zero, zero_mul, add_zero,
        zero_add, mul_one]
  | swap =>
    cases h
    exact unitary_exchange (by decide) (by decide)
  | cy =>
    exact unitary_controlled (actsOn_ofOneQubitGate .y).toWellFormed
      (unitary_ofOneQubitGate hroot hpi .y) h
  | ch =>
    exact unitary_controlled (actsOn_ofOneQubitGate .h).toWellFormed
      (unitary_ofOneQubitGate hroot hpi .h) h
  | cs =>
    exact unitary_controlled (actsOn_ofOneQubitGate .s).toWellFormed
      (unitary_ofOneQubitGate hroot hpi .s) h

/-- The operator of an instruction is unitary as soon as the cosine and the sine of half its angle
are the parts of a point of the unit circle. -/
theorem unitary_of_ofInstruction?
    (hroot : (2 : F) * (Scalar.invSqrtTwo * Scalar.invSqrtTwo) = 1)
    (hpi : Scalar.OnCircle (Scalar.quarterPi : F)) {i : Instruction F}
    (hi : ∀ θ ∈ i.angle?, Scalar.OnCircle (Scalar.half θ) ∧ Scalar.Mirrored (Scalar.half θ))
    {op : Operator (Amplitude F)} (h : ofInstruction? i = .ok (some op)) : op.Unitary := by
  cases i with
  | one g q =>
    cases h
    exact unitary_ofOneQubitGate hroot hpi g
  | two g a b =>
    simp only [ofInstruction?, ofGate?, Instruction.gate] at h
    split at h
    · rename_i op' hop
      cases h
      exact unitary_of_ofTwoQubitGate hroot hpi hop
    · cases h
  | three g a b c =>
    cases h
    cases g <;> exact unitary_exchange (by decide) (by decide)
  | rotation axis θ q =>
    obtain ⟨hθ, hm⟩ := hi θ rfl
    simp only [ofInstruction?, ofGate?, Instruction.gate] at h
    split at h
    · cases h
      exact unitary_rotation hθ hm axis
    · cases h
  | pairRotation axis θ a b =>
    obtain ⟨hθ, hm⟩ := hi θ rfl
    simp only [ofInstruction?, ofGate?, Instruction.gate] at h
    split at h
    · cases h
      exact unitary_pairRotation hθ hm axis
    · cases h
  | measure q => cases h

end Gates

end Ket.Operator
