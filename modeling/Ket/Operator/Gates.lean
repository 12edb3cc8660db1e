import Ket.Operator

/-! The operator of every gate. -/

namespace Ket.Operator

section Matrices

variable {α : Type}

def oneQubit (a b c d : α) : Operator α := ⟨1, ⟨2, 2, #[a, b, c, d], rfl⟩⟩

/-- The entries that are not zero stand on the two diagonals only. -/
def crossed [Zero α] (d₀ d₁ d₂ d₃ a₀ a₁ a₂ a₃ : α) : Operator α :=
  ⟨2, ⟨4, 4, #[d₀, 0, 0, a₀, 0, d₁, a₁, 0, 0, a₂, d₂, 0, a₃, 0, 0, d₃], rfl⟩⟩

end Matrices

variable {F : Type} [Zero F] [One F] [Neg F] [Scalar F]

def identity : Operator (Amplitude F) := oneQubit 1 0 0 1

def pauliX : Operator (Amplitude F) := oneQubit 0 1 1 0

def pauliY : Operator (Amplitude F) := oneQubit 0 (-Amplitude.i) Amplitude.i 0

def pauliZ : Operator (Amplitude F) := oneQubit 1 0 0 (-1)

def hadamard : Operator (Amplitude F) :=
  let h := Amplitude.ofReal Scalar.invSqrtTwo
  oneQubit h h h (-h)

def phaseS : Operator (Amplitude F) := oneQubit 1 0 0 Amplitude.i

def phaseT : Operator (Amplitude F) := oneQubit 1 0 0 (Amplitude.phase Scalar.quarterPi)

def controlledX : Operator (Amplitude F) := exchange 2 0b10 0b11

def controlledZ : Operator (Amplitude F) := crossed 1 1 1 (-1) 0 0 0 0

def swap : Operator (Amplitude F) := exchange 2 0b01 0b10

def controlledY : Except RegisterError (Operator (Amplitude F)) := pauliY.controlled

def controlledHadamard : Except RegisterError (Operator (Amplitude F)) := hadamard.controlled

def controlledS : Except RegisterError (Operator (Amplitude F)) := phaseS.controlled

def toffoli : Operator (Amplitude F) := exchange 3 0b110 0b111

def fredkin : Operator (Amplitude F) := exchange 3 0b101 0b110

/-- The exponential of `-iθ/2` times the Pauli operator of the axis. -/
def rotation (axis : Axis) (θ : F) : Operator (Amplitude F) :=
  let half := Scalar.half θ
  match axis with
  | .x =>
    let c := Amplitude.ofReal (Scalar.cos half)
    let s := Amplitude.ofImaginary (-Scalar.sin half)
    oneQubit c s s c
  | .y =>
    let c := Amplitude.ofReal (Scalar.cos half)
    let s := Amplitude.ofReal (Scalar.sin half)
    oneQubit c (-s) s c
  | .z => oneQubit (Amplitude.phase (-half)) 0 0 (Amplitude.phase half)

/-- The exponential of `-iθ/2` times the Pauli operator of the axis on both qubits. The product of
two Pauli operators `Y` has the entry -1 between 00 and 11, and 1 between 01 and 10. -/
def pairRotation (axis : Axis) (θ : F) : Operator (Amplitude F) :=
  let half := Scalar.half θ
  match axis with
  | .x =>
    let c := Amplitude.ofReal (Scalar.cos half)
    let s := Amplitude.ofImaginary (-Scalar.sin half)
    crossed c c c c s s s s
  | .y =>
    let c := Amplitude.ofReal (Scalar.cos half)
    let s := Amplitude.ofImaginary (Scalar.sin half)
    crossed c c c c s (-s) (-s) s
  | .z =>
    let even := Amplitude.phase (-half)
    let odd := Amplitude.phase half
    crossed even odd odd even 0 0 0 0

def ofOneQubitGate : OneQubitGate → Operator (Amplitude F)
  | .i => identity
  | .h => hadamard
  | .x => pauliX
  | .y => pauliY
  | .z => pauliZ
  | .s => phaseS
  | .t => phaseT

def ofTwoQubitGate : TwoQubitGate → Except RegisterError (Operator (Amplitude F))
  | .cx => .ok controlledX
  | .cz => .ok controlledZ
  | .swap => .ok swap
  | .cy => controlledY
  | .ch => controlledHadamard
  | .cs => controlledS

def ofThreeQubitGate : ThreeQubitGate → Operator (Amplitude F)
  | .ccx => toffoli
  | .cswap => fredkin

/-- The operator of a gate, none for a measurement. Rotations need a finite angle, the other gates
ignore it. -/
def ofGate? (g : Gate) (θ : F) : Except (SimulationError F) (Option (Operator (Amplitude F))) :=
  match g with
  | .one g => .ok (some (ofOneQubitGate g))
  | .two g =>
    match ofTwoQubitGate g with
    | .ok op => .ok (some op)
    | .error e => .error (.register e)
  | .three g => .ok (some (ofThreeQubitGate g))
  | .rotation axis =>
    if Scalar.isFinite θ then .ok (some (rotation axis θ)) else .error (.angle ⟨g, θ⟩)
  | .pairRotation axis =>
    if Scalar.isFinite θ then .ok (some (pairRotation axis θ)) else .error (.angle ⟨g, θ⟩)
  | .measure => .ok none

def ofInstruction? (i : Instruction F) :
    Except (SimulationError F) (Option (Operator (Amplitude F))) :=
  ofGate? i.gate (i.angle?.getD 0)

end Ket.Operator
