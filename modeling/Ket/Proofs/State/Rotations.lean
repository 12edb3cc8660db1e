import Ket.Proofs.Operator.Rotations
import Ket.Proofs.State.Composition

/-! Gates that take an angle. Over exact scalars they are exponentials of Pauli operators, so turns
add up and a turn is taken back by the opposite one. On binary64 they refuse an angle that is not
finite. -/

namespace Ket

/-- A binary64 number is finite, infinite or not a number. -/
theorem Scalar.isFinite_float_eq_false_iff {θ : Float} :
    isFinite θ = false ↔ θ.isNaN = true ∨ θ.isInf = true := by
  have hfin : isFinite θ = θ.toModel.unpack.isFinite := rfl
  have hnan : θ.isNaN = θ.toModel.unpack.isNaN := rfl
  have hinf : θ.isInf = θ.toModel.unpack.isInf := rfl
  rw [hfin, hnan, hinf]
  cases θ.toModel.unpack with
  | notANumber => exact iff_of_true rfl (.inl rfl)
  | infinity => exact iff_of_true rfl (.inr rfl)
  | zero | finite => exact iff_of_false nofun (not_or.2 ⟨nofun, nofun⟩)

theorem Operator.ofGate?_of_not_finite {F : Type} [Zero F] [One F] [Neg F] [Scalar F] {g : Gate}
    (hg : g.isRotation = true) {θ : F} (hθ : Scalar.isFinite θ = false) :
    ofGate? g θ = .error (.angle ⟨g, θ⟩) := by
  have hfin : ¬Scalar.isFinite θ = true := ne_true_of_eq_false hθ
  cases g with
  | rotation axis => exact if_neg hfin
  | pairRotation axis => exact if_neg hfin
  | _ => cases hg

namespace State

open Operator Scalar

/-- Over exact scalars with an even cosine and an odd sine every rotation is the exponential of its
generator, and if angles can be added under them then the matrices are multiplied by adding the
angles and, as the cosine of zero is one, the opposite angle takes a rotation back. No rotation
takes an angle that is not finite, and the error names the gate and the angle. -/
theorem rotation_exponential {F : Type} [CommRing F] [Scalar F] :
    ((∀ φ : F, Mirrored φ) → ∀ (g : Gate) (n : Nat) (P : Matrix (Fin n) (Fin n) (Amplitude F)),
      Generator g n P →
      (∀ θ : F, isFinite θ = true → ∃ op, ofGate? g θ = .ok (some op) ∧ op.WellFormed ∧
        op.dim = n ∧ op.toMatrix n = rotor (cos (half θ)) (sin (half θ)) P) ∧
      (AngleAddition F →
        (∀ a b : F, isFinite a = true → isFinite b = true → isFinite (a + b) = true →
          ∃ opA opB opAB, ofGate? g a = .ok (some opA) ∧ ofGate? g b = .ok (some opB) ∧
            ofGate? g (a + b) = .ok (some opAB) ∧ opA.matrix.mul opB.matrix = opAB.matrix) ∧
        (cos (0 : F) = 1 → ∀ θ : F, isFinite θ = true → isFinite (-θ) = true →
          ∃ op op', ofGate? g θ = .ok (some op) ∧ ofGate? g (-θ) = .ok (some op') ∧
            ∀ (width : Nat) (qubits : List Nat), qubits.length = g.arity → qubits.Nodup →
            (∀ q ∈ qubits, q < width) →
            ∀ a : Array (Amplitude F), a.size = 2 ^ width → ∀ strategy strategy', ∃ st,
              apply ⟨width, a⟩ op qubits strategy = .ok st ∧
              st.apply op' qubits strategy' = .ok ⟨width, a⟩))) ∧
    ∀ p ∈ [(Gate.rotation .x, "rx"), (.rotation .y, "ry"), (.rotation .z, "rz"),
        (.pairRotation .x, "rxx"), (.pairRotation .y, "ryy"), (.pairRotation .z, "rzz")],
      ∀ θ : Float, θ.isNaN = true ∨ θ.isInf = true →
        ofGate? p.1 θ = .error (.angle ⟨p.1, θ⟩) ∧ p.1.name = p.2 := by
  refine ⟨fun hm g n P hg => ⟨?_, fun hadd => ⟨?_, ?_⟩⟩, ?_⟩
  · intro θ hθ
    obtain ⟨op, hop, -, h⟩ := hg.exists_exponential (hm _) hθ
    exact ⟨op, hop, h.toWellFormed, h.dim_eq, h.matrix⟩
  · intro a b ha hb hab
    obtain ⟨opA, hopA, -, hA⟩ := hg.exists_exponential (hm _) ha
    obtain ⟨opB, hopB, -, hB⟩ := hg.exists_exponential (hm _) hb
    obtain ⟨opAB, hopAB, -, hAB⟩ := hg.exists_exponential (hm _) hab
    rw [hadd.half_add] at hAB
    have hmul := (hA.mul hadd hg.mul_self hB).unique hAB
    exact ⟨opA, opB, opAB, hopA, hopB, hopAB, congrArg Operator.matrix hmul⟩
  · intro hcos θ hθ hθ'
    obtain ⟨op, hop, harity, h⟩ := hg.exists_exponential (hm _) hθ
    obtain ⟨op', hop', -, h'⟩ := hg.exists_exponential (hm _) hθ'
    rw [hadd.half_neg] at h'
    refine ⟨op, op', hop, hop',
      fun width qubits hlength hdistinct hrange a ha strategy strategy' => ?_⟩
    have hq : op.Addresses width qubits := ⟨hlength.trans harity.symm, hdistinct, hrange⟩
    exact apply_inverse h.toWellFormed h'.toWellFormed (h.arity_eq h')
      (h.mul_neg hadd hcos hg.mul_self h') hq ha strategy strategy'
  · intro p hp θ hθ
    have hrot : p.1.isRotation = true ∧ p.1.name = p.2 := by
      revert p
      decide
    exact ⟨ofGate?_of_not_finite hrot.1 (isFinite_float_eq_false_iff.2 hθ), hrot.2⟩

/-- A turn about the second axis on two qubits in descending order, where the signs of the entries
differ, over the real numbers, and an angle that is not a number. -/
theorem rotation_exponential_on_pair :
    (∃ opA opB opAB : Operator (Amplitude ℝ), ofGate? (.pairRotation .y) 1 = .ok (some opA) ∧
      ofGate? (.pairRotation .y) 2 = .ok (some opB) ∧
      ofGate? (.pairRotation .y) (1 + 2) = .ok (some opAB) ∧
      opA.matrix.mul opB.matrix = opAB.matrix) ∧
    (∃ (op op' : Operator (Amplitude ℝ)) (st : State (Amplitude ℝ)),
      ofGate? (.pairRotation .y) 1 = .ok (some op) ∧
      ofGate? (.pairRotation .y) (-1) = .ok (some op') ∧
      apply ⟨3, #[1, 2, 3, 4, 5, 6, 7, .i]⟩ op [2, 0] .sequential = .ok st ∧
      st.apply op' [2, 0] (.parallel 2) = .ok ⟨3, #[1, 2, 3, 4, 5, 6, 7, .i]⟩) ∧
    ofGate? (.rotation .z) (0 / 0 : Float) = .error (.angle ⟨.rotation .z, 0 / 0⟩) := by
  obtain ⟨hexact, hfloat⟩ := rotation_exponential (F := ℝ)
  obtain ⟨-, hangles⟩ := hexact mirrored_real _ _ _ (.pairRotation .y)
  obtain ⟨hmul, hneg⟩ := hangles angleAddition_real
  refine ⟨hmul 1 2 rfl rfl rfl, ?_, (hfloat (.rotation .z, "rz") (by decide) _ (.inl ?_)).1⟩
  · obtain ⟨op, op', hop, hop', h⟩ := hneg Real.cos_zero 1 rfl rfl
    obtain ⟨st, hst, hst'⟩ := h 3 [2, 0] rfl (by decide) (by decide)
      #[1, 2, 3, 4, 5, 6, 7, .i] rfl .sequential (.parallel 2)
    exact ⟨op, op', st, hop, hop', hst, hst'⟩
  · decide

end State

end Ket
