import Mathlib.Data.List.Nodup
import Ket.Circuit
import Ket.Operator.Gates

/-! Instructions with other operands in the same places. The gate, the angle and the operator stay,
and the instruction stays well formed if the new operands are distinct qubits of the register. -/

namespace Ket

variable {F : Type}

namespace Instruction

/-- Every operand is replaced in its place. -/
def rename (f : Qubit → Qubit) : Instruction F → Instruction F
  | one g q => one g (f q)
  | two g a b => two g (f a) (f b)
  | three g a b c => three g (f a) (f b) (f c)
  | rotation axis θ q => rotation axis θ (f q)
  | pairRotation axis θ a b => pairRotation axis θ (f a) (f b)
  | measure q => measure (f q)

variable (f : Qubit → Qubit) (i : Instruction F)

@[simp] theorem gate_rename : (i.rename f).gate = i.gate := by cases i <;> rfl

@[simp] theorem angle?_rename : (i.rename f).angle? = i.angle? := by cases i <;> rfl

@[simp] theorem qubits_rename : (i.rename f).qubits = i.qubits.map f := by cases i <;> rfl

@[simp] theorem isMeasure_rename : (i.rename f).isMeasure = i.isMeasure := by cases i <;> rfl

variable {f i}

theorem WellFormed.rename [Scalar F] {n m : Nat} (hi : i.WellFormed n)
    (hlt : ∀ q ∈ i.qubits, (f q).index < m)
    (hinj : ∀ q ∈ i.qubits, ∀ r ∈ i.qubits, f q = f r → q = r) : (i.rename f).WellFormed m := by
  refine ⟨?_, ?_, ?_⟩
  · rw [qubits_rename]
    exact List.forall_mem_map.2 hlt
  · rw [qubits_rename]
    exact List.Nodup.map_on hinj hi.distinct
  · rw [angle?_rename]
    exact hi.finite

end Instruction

theorem Operator.ofInstruction?_rename [Zero F] [One F] [Neg F] [Scalar F] (f : Qubit → Qubit)
    (i : Instruction F) : ofInstruction? (i.rename f) = ofInstruction? i := by
  rw [ofInstruction?, ofInstruction?, Instruction.gate_rename, Instruction.angle?_rename]

/-- The circuit with all operands renamed. -/
def Circuit.rename (f : Qubit → Qubit) (c : Circuit F) : Circuit F :=
  { c with instructions := c.instructions.map (·.rename f) }

theorem Circuit.WellFormed.rename [Scalar F] {c : Circuit F} (hc : c.WellFormed)
    {f : Qubit → Qubit} (hlt : ∀ q, q.index < c.numQubits → (f q).index < c.numQubits)
    (hinj : ∀ q r, q.index < c.numQubits → r.index < c.numQubits → f q = f r → q = r) :
    (c.rename f).WellFormed := by
  refine ⟨hc.numQubits_pos, fun j hj => ?_⟩
  obtain ⟨i, hi, rfl⟩ := Array.mem_map.1 hj
  have hwf := hc.instructions i hi
  exact hwf.rename (fun q hq => hlt q (hwf.inRange q hq)) fun q hq r hr =>
    hinj q r (hwf.inRange q hq) (hwf.inRange r hr)

end Ket
