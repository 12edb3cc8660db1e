import Ket.Circuit
import Ket.Json.Number
import Ket.Json.Shape
import Ket.Settings

/-! Writing of JSON text, without blanks and with fields in a fixed order. None of the keys needs an
escape. -/

namespace Ket.Json

def stringText (s : String) : List Char := '"' :: s.toList ++ ['"']

def separated : List (List Char) → List Char
  | [] => []
  | [x] => x
  | x :: xs => x ++ ',' :: separated xs

def arrayText (xs : List (List Char)) : List Char := '[' :: separated xs ++ [']']

def objectText (members : List (String × List Char)) : List Char :=
  '{' :: separated (members.map fun (key, value) => stringText key ++ ':' :: value) ++ ['}']

def boolText (b : Bool) : List Char := (if b then "true" else "false").toList

def qubitText (q : Qubit) : List Char := natText q.index

def gateText (g : Gate) : List Char := stringText g.tag

def operandsText (i : Instruction Float) : List Char :=
  let qubits := i.qubits.map qubitText
  match shape i.gate with
  | .single => qubits.flatten
  | .tuple => arrayText qubits
  | .named names =>
    objectText (names.zip qubits ++ i.angle?.toList.map fun θ => (angleName, floatText θ))

def instructionText (i : Instruction Float) : List Char :=
  objectText [(i.gate.tag, operandsText i)]

/-- The text of a width and of instructions that need not fit it. -/
def programText (width : UInt32) (is : List (Instruction Float)) : List Char :=
  objectText [("num_qubits", natText width.toNat),
    ("instructions", arrayText (is.map instructionText))]

def circuitText (c : Circuit Float) : List Char := programText c.width c.instructions.toList

def settingsText (c : Settings) : List Char :=
  objectText [("max_qubits", natText c.maxQubits.toNat),
    ("parallel_threshold", natText c.parallelThreshold.toNat), ("parallel", boolText c.parallel)]

end Ket.Json
