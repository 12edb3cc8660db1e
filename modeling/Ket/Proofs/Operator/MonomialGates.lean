import Ket.Proofs.Circuit.Tracked
import Ket.Proofs.Operator.Monomial

/-! The operators of the gates that move basis states move them as the tables of the gates say. -/

namespace Ket

namespace Operator

variable {F : Type} [Zero F] [One F] [Neg F] [Scalar F]

theorem moves_ofOneQubitGate {g : OneQubitGate} (hg : (Gate.one g).isMonomial = true) :
    (ofOneQubitGate g : Operator (Amplitude F)).Moves 1 (Gate.one g).target (Gate.one g).turns := by
  cases g with
  | h | t => cases hg
  | x => exact (moves_antidiagonal 0 0).congr fun c _ => ⟨rfl, ite_self 0⟩
  | y => exact moves_antidiagonal 1 3
  | i => exact (moves_diagonal 0 0).congr fun c _ => ⟨rfl, ite_self 0⟩
  | z => exact (moves_diagonal 0 2).congr (by decide)
  | s => exact (moves_diagonal 0 1).congr (by decide)

theorem moves_of_ofTwoQubitGate {g : TwoQubitGate} (hg : (Gate.two g).isMonomial = true)
    {op : Operator (Amplitude F)} (h : ofTwoQubitGate g = .ok op) :
    op.Moves 2 (Gate.two g).target (Gate.two g).turns := by
  cases g with
  | ch => cases hg
  | cx =>
    cases h
    exact moves_exchange (by decide) (by decide)
  | swap =>
    cases h
    exact moves_exchange (by decide) (by decide)
  | cz =>
    cases h
    exact moves_crossed 2
  | cy =>
    have hy : (ofOneQubitGate .y : Operator (Amplitude F)).Moves 1 _ _ := moves_ofOneQubitGate rfl
    exact (hy.controlled (by decide) h).congr (by decide)
  | cs =>
    have hs : (ofOneQubitGate .s : Operator (Amplitude F)).Moves 1 _ _ := moves_ofOneQubitGate rfl
    exact (hs.controlled (by decide) h).congr (by decide)

omit [Scalar F] in
theorem moves_ofThreeQubitGate (g : ThreeQubitGate) :
    (ofThreeQubitGate g : Operator (Amplitude F)).Moves 3 (Gate.three g).target
      (Gate.three g).turns := by
  cases g <;> exact moves_exchange (by decide) (by decide)

theorem moves_of_ofInstruction? {i : Instruction F} (hg : i.gate.isMonomial = true)
    {op : Operator (Amplitude F)} (h : ofInstruction? i = .ok (some op)) :
    op.Moves i.qubits.length i.gate.target i.gate.turns := by
  cases i with
  | one g q =>
    cases h
    exact moves_ofOneQubitGate hg
  | two g a b =>
    simp only [ofInstruction?, ofGate?, Instruction.gate] at h
    split at h
    · rename_i op' hop
      cases h
      exact moves_of_ofTwoQubitGate hg hop
    · cases h
  | three g a b c =>
    cases h
    exact moves_ofThreeQubitGate g
  | rotation axis θ q => cases hg
  | pairRotation axis θ a b => cases hg
  | measure q => cases h

end Operator

end Ket
