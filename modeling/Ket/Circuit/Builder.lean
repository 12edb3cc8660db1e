import Ket.Circuit

/-! One operation per gate to extend a circuit, and two families of ready-made circuits. Angles come
first and operands follow in the order of the instruction. -/

namespace Ket.Circuit

variable {F : Type} [Scalar F]

def i (c : Circuit F) (q : Qubit) : Except (CircuitError F) (Circuit F) := c.append (.one .i q)

def h (c : Circuit F) (q : Qubit) : Except (CircuitError F) (Circuit F) := c.append (.one .h q)

def x (c : Circuit F) (q : Qubit) : Except (CircuitError F) (Circuit F) := c.append (.one .x q)

def y (c : Circuit F) (q : Qubit) : Except (CircuitError F) (Circuit F) := c.append (.one .y q)

def z (c : Circuit F) (q : Qubit) : Except (CircuitError F) (Circuit F) := c.append (.one .z q)

def s (c : Circuit F) (q : Qubit) : Except (CircuitError F) (Circuit F) := c.append (.one .s q)

def t (c : Circuit F) (q : Qubit) : Except (CircuitError F) (Circuit F) := c.append (.one .t q)

def rx (c : Circuit F) (θ : F) (q : Qubit) : Except (CircuitError F) (Circuit F) :=
  c.append (.rotation .x θ q)

def ry (c : Circuit F) (θ : F) (q : Qubit) : Except (CircuitError F) (Circuit F) :=
  c.append (.rotation .y θ q)

def rz (c : Circuit F) (θ : F) (q : Qubit) : Except (CircuitError F) (Circuit F) :=
  c.append (.rotation .z θ q)

def cx (c : Circuit F) (control target : Qubit) : Except (CircuitError F) (Circuit F) :=
  c.append (.two .cx control target)

/-- Another name of `cx`. -/
def cnot (c : Circuit F) (control target : Qubit) : Except (CircuitError F) (Circuit F) :=
  c.cx control target

def cz (c : Circuit F) (control target : Qubit) : Except (CircuitError F) (Circuit F) :=
  c.append (.two .cz control target)

def swap (c : Circuit F) (a b : Qubit) : Except (CircuitError F) (Circuit F) :=
  c.append (.two .swap a b)

def cy (c : Circuit F) (control target : Qubit) : Except (CircuitError F) (Circuit F) :=
  c.append (.two .cy control target)

def ch (c : Circuit F) (control target : Qubit) : Except (CircuitError F) (Circuit F) :=
  c.append (.two .ch control target)

def cs (c : Circuit F) (control target : Qubit) : Except (CircuitError F) (Circuit F) :=
  c.append (.two .cs control target)

def rxx (c : Circuit F) (θ : F) (a b : Qubit) : Except (CircuitError F) (Circuit F) :=
  c.append (.pairRotation .x θ a b)

def ryy (c : Circuit F) (θ : F) (a b : Qubit) : Except (CircuitError F) (Circuit F) :=
  c.append (.pairRotation .y θ a b)

def rzz (c : Circuit F) (θ : F) (a b : Qubit) : Except (CircuitError F) (Circuit F) :=
  c.append (.pairRotation .z θ a b)

def ccx (c : Circuit F) (control₁ control₂ target : Qubit) :
    Except (CircuitError F) (Circuit F) :=
  c.append (.three .ccx control₁ control₂ target)

def cswap (c : Circuit F) (control a b : Qubit) : Except (CircuitError F) (Circuit F) :=
  c.append (.three .cswap control a b)

def measure (c : Circuit F) (q : Qubit) : Except (CircuitError F) (Circuit F) :=
  c.append (.measure q)

/-- Measures every qubit, from qubit 0 on. -/
def measureAll (c : Circuit F) : Except (CircuitError F) (Circuit F) :=
  (List.range c.numQubits).foldlM (fun c q => c.measure (.ofNat q)) c

/-- Puts two qubits into an equal superposition of both being 0 and both being 1. -/
def bell : Except (CircuitError F) (Circuit F) := do
  let c ← empty 2
  let c ← c.h (.ofNat 0)
  c.cx (.ofNat 0) (.ofNat 1)

/-- Puts `n` qubits into an equal superposition of all being 0 and all being 1, along a chain. -/
def ghz (n : UInt32) : Except (CircuitError F) (Circuit F) := do
  let c ← empty n
  let c ← c.h (.ofNat 0)
  (List.range (n.toNat - 1)).foldlM (fun c k => c.cx (.ofNat k) (.ofNat (k + 1))) c

end Ket.Circuit
