import Ket.Circuit
import Std.Data.HashMap

/-! The depth of a circuit. Each instruction gets the first layer after those of all earlier
instructions that share a qubit with it, and the depth is the last layer in use. -/

namespace Ket.Circuit

variable {F : Type}

/-- The last layer in use at each qubit, 0 at a qubit that is not listed, and overall. -/
structure Layers where
  last : Std.HashMap Nat Nat := {}
  depth : Nat := 0

namespace Layers

def levelAt (l : Layers) (q : Qubit) : Nat := l.last.getD q.index 0

/-- The layer that an instruction on the given qubits is put into. -/
def next (l : Layers) (qs : List Qubit) : Nat :=
  (qs.map l.levelAt).foldl max 0 + 1

def place (l : Layers) (qs : List Qubit) : Layers :=
  let layer := l.next qs
  ⟨qs.foldl (fun last q => last.insert q.index layer) l.last, max l.depth layer⟩

end Layers

def layers (is : List (Instruction F)) : Layers :=
  is.foldl (fun l i => l.place i.qubits) {}

/-- The highest of the layers in which the qubits end (`WellFormed.max?_levelAt`). -/
def depth (c : Circuit F) : Nat := (layers c.instructions.toList).depth

end Ket.Circuit
