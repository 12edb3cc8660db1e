import Ket.Instruction

/-! The shape of an instruction in JSON: an object whose only key is the tag of the gate, with the
operands as its value. -/

namespace Ket.Json

inductive Shape
  /-- The qubit itself. -/
  | single
  /-- An array of the qubits. -/
  | tuple
  /-- An object of the qubits under these names, and of the angle if there is one. -/
  | named (qubits : List String)

def shape : Gate → Shape
  | .one _ | .measure => .single
  | .two .swap => .tuple
  | .two _ => .named ["control", "target"]
  | .three .ccx => .named ["control1", "control2", "target"]
  | .three .cswap => .named ["control", "target1", "target2"]
  | .rotation _ => .named ["qubit"]
  | .pairRotation _ => .named ["qubit1", "qubit2"]

def angleName : String := "theta"

end Ket.Json
