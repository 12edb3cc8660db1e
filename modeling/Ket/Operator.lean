import Ket.Amplitude
import Ket.Grid
import Ket.SimulationError

/-! Operators on one, two or three qubits, given by their matrices. A row or column index lists the
bits of the operands, the first operand being the most significant. -/

namespace Ket

structure Operator (α : Type) where
  arity : Nat
  matrix : Grid α
deriving BEq

namespace Operator

variable {α : Type}

/-- The number of rows and of columns. -/
def dim (op : Operator α) : Nat := 1 <<< op.arity

def ofGrid (g : Grid α) : Except RegisterError (Operator α) :=
  match g.rows, g.cols with
  | 2, 2 => .ok ⟨1, g⟩
  | 4, 4 => .ok ⟨2, g⟩
  | 8, 8 => .ok ⟨3, g⟩
  | rows, cols => .error (.operatorShape rows cols)

/-- Whether the matrix fits the arity. Nothing is said of its entries. -/
structure WellFormed (op : Operator α) : Prop where
  arity_pos : 1 ≤ op.arity
  arity_le : op.arity ≤ 3
  rows : op.matrix.rows = op.dim
  cols : op.matrix.cols = op.dim

/-- One more operand in front. Where it is 0 nothing changes, where it is 1 the operator acts on the
others. -/
def controlled [Zero α] [One α] (op : Operator α) : Except RegisterError (Operator α) :=
  let d := op.dim
  ofGrid (.ofFn (2 * d) (2 * d) fun r c =>
    if d ≤ r ∧ d ≤ c then op.matrix.get (r - d) (c - d) else if r = c then 1 else 0)

/-- Exchanges two basis states and keeps the others. -/
def exchange [Zero α] [One α] (arity a b : Nat) : Operator α where
  arity := arity
  matrix := .ofFn (1 <<< arity) (1 <<< arity) fun r c =>
    if r = (if c = a then b else if c = b then a else c) then 1 else 0

def transform [Zero α] [Add α] [Mul α] (op : Operator α) (column : List α) : List α :=
  op.matrix.mulColumn column

section Adjoint

variable {F : Type} [Zero F] [Neg F]

def adjoint (op : Operator (Amplitude F)) : Operator (Amplitude F) :=
  ⟨op.arity, op.matrix.transpose.map .conj⟩

/-- The product with the adjoint, which is the identity for a unitary operator. -/
def gram [Add F] [Sub F] [Mul F] (op : Operator (Amplitude F)) : Grid (Amplitude F) :=
  op.matrix.mulWith .addMul op.adjoint.matrix

end Adjoint

/-- Whether every entry of the product with the adjoint is within `tolerance` of the identity's. No
entry that is not a number is. -/
def isUnitary (op : Operator (Amplitude Float)) (tolerance : Float) : Bool :=
  let product := op.gram
  (List.range product.rows).all fun r =>
    (List.range product.cols).all fun c =>
      (product.get r c - if r = c then 1 else 0).modulus ≤ tolerance

theorem wellFormed_of_ofGrid {g : Grid α} {op : Operator α} (h : ofGrid g = .ok op) :
    op.WellFormed := by
  unfold ofGrid at h
  split at h
  case h_4 => cases h
  all_goals
    cases h
    constructor <;> simp_all [dim]

end Operator

end Ket
