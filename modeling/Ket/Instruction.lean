import Ket.Gate
import Ket.Operands
import Ket.Qubit

/-! Instructions: a gate with its operands and, for a rotation, its angle. An instruction is well
formed for a width when its operands are distinct qubits of the register and its angle is finite. -/

namespace Ket

/-- Controls come before targets. The first operand is the most significant bit of the row and
column index of the gate's matrix. -/
inductive Instruction (F : Type) where
  | one (gate : OneQubitGate) (q : Qubit)
  | two (gate : TwoQubitGate) (a b : Qubit)
  | three (gate : ThreeQubitGate) (a b c : Qubit)
  | rotation (axis : Axis) (angle : F) (q : Qubit)
  | pairRotation (axis : Axis) (angle : F) (a b : Qubit)
  | measure (q : Qubit)
deriving BEq

/-- The angle of a rotation is not finite. -/
structure AngleError (F : Type) where
  gate : Gate
  angle : F

/-- Why a circuit or an instruction of it is refused. -/
inductive CircuitError (F : Type) where
  | noQubits
  | operand (gate : Gate) (qubit : Qubit) (fault : OperandFault) (width : Nat)
  | angle (error : AngleError F)

namespace Instruction

variable {F : Type}

def gate : Instruction F → Gate
  | one g _ => .one g
  | two g _ _ => .two g
  | three g _ _ _ => .three g
  | rotation axis _ _ => .rotation axis
  | pairRotation axis _ _ _ => .pairRotation axis
  | measure _ => .measure

def qubits : Instruction F → List Qubit
  | one _ q | rotation _ _ q | measure q => [q]
  | two _ a b | pairRotation _ _ a b => [a, b]
  | three _ a b c => [a, b, c]

def angle? : Instruction F → Option F
  | rotation _ θ _ | pairRotation _ θ _ _ => some θ
  | _ => none

def isMeasure : Instruction F → Bool
  | measure _ => true
  | _ => false

/-- The instruction of a gate on given operands. The angle is used by rotations only. -/
def make? (g : Gate) (qs : List Qubit) (θ : F) : Option (Instruction F) :=
  match g, qs with
  | .one g, [q] => some (.one g q)
  | .two g, [a, b] => some (.two g a b)
  | .three g, [a, b, c] => some (.three g a b c)
  | .rotation axis, [q] => some (.rotation axis θ q)
  | .pairRotation axis, [a, b] => some (.pairRotation axis θ a b)
  | .measure, [q] => some (.measure q)
  | _, _ => none

def firstFault? (width : Nat) (i : Instruction F) : Option (Qubit × OperandFault) :=
  Ket.firstFault? (fun q => decide (q.index < width)) [] i.qubits

/-- An operand at fault is reported before an angle that is not finite. -/
def check [Scalar F] (width : Nat) (i : Instruction F) : Except (CircuitError F) Unit :=
  match i.firstFault? width with
  | some (q, fault) => .error (.operand i.gate q fault width)
  | none =>
    match i.angle? with
    | none => .ok ()
    | some θ => if Scalar.isFinite θ then .ok () else .error (.angle ⟨i.gate, θ⟩)

structure WellFormed [Scalar F] (width : Nat) (i : Instruction F) : Prop where
  inRange : ∀ q ∈ i.qubits, q.index < width
  distinct : i.qubits.Nodup
  finite : ∀ θ ∈ i.angle?, Scalar.isFinite θ = true

theorem firstFault?_eq_none_iff {width : Nat} {i : Instruction F} :
    i.firstFault? width = none ↔ (∀ q ∈ i.qubits, q.index < width) ∧ i.qubits.Nodup := by
  simp [firstFault?, Ket.firstFault?_eq_none_iff]

theorem check_eq_ok_iff [Scalar F] {width : Nat} {i : Instruction F} :
    i.check width = .ok () ↔ i.WellFormed width := by
  unfold check
  constructor
  · intro h
    cases hf : i.firstFault? width with
    | some fault => simp [hf] at h
    | none =>
      obtain ⟨hr, hd⟩ := firstFault?_eq_none_iff.1 hf
      refine ⟨hr, hd, fun θ hθ => ?_⟩
      cases hfin : Scalar.isFinite θ with
      | true => rfl
      | false => simp [hf, Option.mem_def.1 hθ, hfin] at h
  · rintro ⟨hr, hd, hfin⟩
    rw [firstFault?_eq_none_iff.2 ⟨hr, hd⟩]
    cases ha : i.angle? with
    | none => rfl
    | some θ => simp [hfin θ ha]

theorem length_qubits (i : Instruction F) : i.qubits.length = i.gate.arity := by
  cases i <;> rfl

theorem isSome_angle? (i : Instruction F) : i.angle?.isSome = i.gate.isRotation := by
  cases i <;> rfl

instance [HasText F] : HasText (Instruction F) where
  text i :=
    let angle := match i.angle? with
      | none => ""
      | some θ => "(" ++ text θ ++ ")"
    i.gate.name ++ angle ++ " " ++ ", ".intercalate (i.qubits.map text)

end Instruction

instance [HasText F] : HasText (AngleError F) where
  text e :=
    "Invalid parameter for gate '" ++ e.gate.name ++ "': " ++ text e.angle ++
      " is not a finite angle"

instance [HasText F] : HasText (CircuitError F) where
  text
    | .noQubits => "Invalid circuit dimension: 0 qubits (need at least 1)"
    | .operand gate qubit fault width =>
      let reason := match fault with
        | .outOfRange => "out of range for a " ++ width.repr ++ "-qubit circuit"
        | .repeated => "used more than once"
      "Invalid qubit " ++ text qubit ++ " for gate '" ++ gate.name ++ "': " ++ reason
    | .angle e => text e

end Ket
