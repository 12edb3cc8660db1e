import Ket.Application

/-! States of a register: one amplitude per basis index. The bits of an index are the values of the
qubits, qubit 0 first. -/

namespace Ket

structure State (α : Type) where
  width : Nat
  amplitudes : Array α
deriving BEq

namespace State

variable {α : Type}

/-- Indices have at most this many bits. -/
def maxWidth : Nat := 63

/-- The number of amplitudes fits the width. -/
structure WellFormed (st : State α) : Prop where
  width_pos : 1 ≤ st.width
  width_le : st.width ≤ maxWidth
  size : st.amplitudes.size = 1 <<< st.width

/-- All qubits are 0. -/
def zero [Zero α] [One α] (width : Nat) : Except RegisterError (State α) :=
  if width = 0 ∨ maxWidth < width then .error (.registerWidth width)
  else .ok ⟨width, (Array.replicate (1 <<< width) 0).setIfInBounds 0 1⟩

/-- The amplitudes are taken as they are. -/
def ofAmplitudes (a : Array α) : Except RegisterError (State α) :=
  if a.size < 2 ∨ 1 <<< a.size.log2 ≠ a.size then .error (.stateLength a.size)
  else .ok ⟨a.size.log2, a⟩

/-- The operands are qubit numbers. -/
def apply [Zero α] [Add α] [Mul α] (st : State α) (op : Operator α) (qubits : List Nat)
    (strategy : Strategy) : Except RegisterError (State α) :=
  match Support.ofQubits st.width qubits with
  | .error e => .error e
  | .ok s =>
    match op.apply s strategy st.amplitudes with
    | .error e => .error e
    | .ok amplitudes => .ok { st with amplitudes }

/-- The values of the qubits of a basis index, qubit 0 first. -/
def label (width index : Nat) : List Char := (Nat.toDigits 2 index).leftpad width '0'

/-- One line per basis index. -/
instance [HasText α] : HasText (State α) where
  text st :=
    let lines := st.amplitudes.toList.zipIdx.map fun (amplitude, index) =>
      "|" ++ String.ofList (label st.width index) ++ "⟩: " ++ text amplitude ++ "\n"
    String.join lines

section Measures

variable {F : Type} [Zero F] [Add F] [Mul F]

/-- The probability of each outcome of measuring all qubits. -/
def probabilities (st : State (Amplitude F)) : Array F := st.amplitudes.map (·.normSq)

def normSq (st : State (Amplitude F)) : F := st.probabilities.foldl (· + ·) 0

def norm [Scalar F] (st : State (Amplitude F)) : F := Scalar.sqrt st.normSq

/-- The inner product, conjugate in the first state. -/
def inner [Sub F] [Neg F] (left right : State (Amplitude F)) :
    Except RegisterError (Amplitude F) :=
  if left.width = right.width then
    .ok ((left.amplitudes.zip right.amplitudes).foldl (fun sum (z, w) => sum + z.conj * w) 0)
  else .error (.widthMismatch left.width right.width)

end Measures

end State

end Ket
