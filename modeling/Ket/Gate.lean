import Ket.Basic

/-! Gates without their operands. They are grouped by the operands that they take, so that what
holds of a whole group is said once. -/

namespace Ket

inductive OneQubitGate
  | i | h | x | y | z | s | t
deriving DecidableEq

inductive TwoQubitGate
  | cx | cz | swap | cy | ch | cs
deriving DecidableEq

inductive ThreeQubitGate
  | ccx | cswap
deriving DecidableEq

/-- The Pauli operator that a rotation is generated by. -/
inductive Axis
  | x | y | z
deriving DecidableEq

/-- A pair rotation about an axis is generated by the Pauli operator on both of its qubits. -/
inductive Gate
  | one (gate : OneQubitGate)
  | two (gate : TwoQubitGate)
  | three (gate : ThreeQubitGate)
  | rotation (axis : Axis)
  | pairRotation (axis : Axis)
  | measure
deriving DecidableEq

def OneQubitGate.tag : OneQubitGate → String
  | i => "i" | h => "h" | x => "x" | y => "y" | z => "z" | s => "s" | t => "t"

def TwoQubitGate.tag : TwoQubitGate → String
  | cx => "cx" | cz => "cz" | swap => "swap" | cy => "cy" | ch => "ch" | cs => "cs"

def ThreeQubitGate.tag : ThreeQubitGate → String
  | ccx => "ccx" | cswap => "cswap"

namespace Gate

def all : List Gate :=
  [.one .i, .one .h, .one .x, .one .y, .one .z, .one .s, .one .t,
   .two .cx, .two .cz, .two .swap, .two .cy, .two .ch, .two .cs,
   .three .ccx, .three .cswap,
   .rotation .x, .rotation .y, .rotation .z,
   .pairRotation .x, .pairRotation .y, .pairRotation .z,
   .measure]

theorem mem_all : ∀ g : Gate, g ∈ all
  | one g => by cases g <;> decide
  | two g => by cases g <;> decide
  | three g => by cases g <;> decide
  | rotation a => by cases a <;> decide
  | pairRotation a => by cases a <;> decide
  | measure => by decide

/-- The word for the gate in documents. -/
def tag : Gate → String
  | one g => g.tag
  | two g => g.tag
  | three g => g.tag
  | rotation .x => "rx"
  | rotation .y => "ry"
  | rotation .z => "rz"
  | pairRotation .x => "rxx"
  | pairRotation .y => "ryy"
  | pairRotation .z => "rzz"
  | measure => "measure"

/-- The word for the gate in listings, which is the tag except that the identity is `id`. -/
def name : Gate → String
  | one .i => "id"
  | g => g.tag

def ofTag? (word : String) : Option Gate := all.find? (·.tag == word)

def arity : Gate → Nat
  | one _ | rotation _ | measure => 1
  | two _ | pairRotation _ => 2
  | three _ => 3

/-- Whether the gate takes an angle. -/
def isRotation : Gate → Bool
  | rotation _ | pairRotation _ => true
  | _ => false

instance : HasText Gate := ⟨name⟩

theorem ofTag?_tag : ∀ g : Gate, ofTag? g.tag = some g
  | one g => by cases g <;> decide
  | two g => by cases g <;> decide
  | three g => by cases g <;> decide
  | rotation a => by cases a <;> decide
  | pairRotation a => by cases a <;> decide
  | measure => by decide

theorem arity_pos (g : Gate) : 0 < g.arity := by cases g <;> simp [arity]

end Gate

end Ket
