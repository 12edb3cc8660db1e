import Ket.Instruction

/-! What can go wrong in a simulation. -/

namespace Ket

/-- What can go wrong with registers, operators and states, whatever the amplitudes are. -/
inductive RegisterError
  | registerWidth (width : Nat)
  | stateLength (length : Nat)
  | widthMismatch (left right : Nat)
  | operatorShape (rows cols : Nat)
  | targetCount (count : Nat)
  | outOfRange (qubit width : Nat)
  | repeated (qubit : Nat)
  | arity (expected got : Nat)
deriving DecidableEq

instance : HasText RegisterError where
  text
    | .registerWidth n => "Cannot build a statevector over " ++ n.repr ++ " qubits"
    | .stateLength n => "Statevector length " ++ n.repr ++ " is not a power of two"
    | .widthMismatch l r =>
      "Statevector size mismatch: " ++ l.repr ++ " vs " ++ r.repr ++ " qubits"
    | .operatorShape rows cols =>
      "Operator matrix has shape " ++ rows.repr ++ "x" ++ cols.repr ++ "; expected 2x2, 4x4 or 8x8"
    | .targetCount n => "Operators address between 1 and 3 qubits, got " ++ n.repr
    | .outOfRange q n =>
      "Qubit " ++ q.repr ++ " out of range for a " ++ n.repr ++ "-qubit statevector"
    | .repeated q => "Qubit " ++ q.repr ++ " addressed more than once by one operator"
    | .arity expected got =>
      "Operator acts on " ++ expected.repr ++ " qubits but " ++ got.repr ++ " were addressed"

/-- Why a simulation fails. The faults that a text of settings can have are a parameter, because a
run has no such text to read. -/
inductive SimulationError (F : Type) (Fault : Type := Empty) where
  | circuit (error : CircuitError F)
  | angle (error : AngleError F)
  | register (error : RegisterError)
  | tooWide (width limit : Nat)
  | config (fault : Fault)

instance : HasText Empty := ⟨nofun⟩

/-- A fault of a text is told in the words of its reader. -/
instance [HasText F] [HasText Fault] : HasText (SimulationError F Fault) where
  text
    | .circuit e => "Circuit IR error: " ++ text e
    | .angle e => text e
    | .register e => text e
    | .tooWide n limit =>
      "Circuit has " ++ n.repr ++ " qubits but the simulator only supports " ++ limit.repr
    | .config fault => "Invalid simulator configuration: " ++ text fault

end Ket
