import Ket.Operands
import Ket.SimulationError

/-! The support of an operator in a register: the bit positions of its operands. Basis indices that
agree outside the support form a class. Each class has one member per setting of the addressed bits,
and its representative is the member in which all of them are zero. -/

namespace Ket

/-- The positions stand in operand order. -/
structure Support where
  positions : List Nat
deriving DecidableEq

namespace Support

/-- At most this many qubits can be addressed together. -/
def maxCount : Nat := 3

def ofQubits (width : Nat) (qubits : List Nat) : Except RegisterError Support :=
  if qubits.length = 0 ∨ maxCount < qubits.length then .error (.targetCount qubits.length)
  else
    match firstFault? (· < width) [] qubits with
    | some (q, .outOfRange) => .error (.outOfRange q width)
    | some (q, .repeated) => .error (.repeated q)
    | none => .ok ⟨qubits.map (width - 1 - ·)⟩

/-- The number of addressed qubits. -/
def count (s : Support) : Nat := s.positions.length

def classSize (s : Support) : Nat := 1 <<< s.count

def ascending (s : Support) : List Nat := s.positions.mergeSort

def lowest (s : Support) : Nat := s.ascending.head?.getD 0

def highest (s : Support) : Nat := s.ascending.getLast?.getD 0

def mask (s : Support) : Nat := s.positions.foldl (fun m p => m ||| 1 <<< p) 0

/-- The index with the bits of `b` at the given positions, the first position taking the most
significant bit, and zeros elsewhere. -/
def deposit : List Nat → Nat → Nat
  | [], _ => 0
  | p :: ps, b => (if b.testBit ps.length then 1 <<< p else 0) ||| deposit ps b

/-- What is added to a representative to get each member of its class, in the order of the rows of
the matrix. -/
def offsets (s : Support) : List Nat := (List.range s.classSize).map (deposit s.positions)

/-- Moves the bits from position `p` on up by one place and leaves a zero there. -/
def insertZero (i p : Nat) : Nat := (i >>> p) <<< (p + 1) ||| i % (1 <<< p)

/-- The representative of the class with the given number. -/
def representative (s : Support) (number : Nat) : Nat := s.ascending.foldl insertZero number

/-- The representatives among the first `length` indices, in increasing order. -/
def representatives (s : Support) (length : Nat) : List Nat :=
  (List.range (length >>> s.count)).map s.representative

def members (s : Support) (representative : Nat) : List Nat :=
  s.offsets.map (representative ||| ·)

/-- The addressed bits of an index as a row number. -/
def localIndex (s : Support) (i : Nat) : Nat :=
  s.positions.foldl (fun b p => b <<< 1 ||| (i >>> p) % 2) 0

/-- The representative of the class that an index belongs to. -/
def clear (s : Support) (i : Nat) : Nat := i ^^^ (i &&& s.mask)

/-- What `ofQubits` promises. -/
structure Valid (s : Support) (width : Nat) : Prop where
  count_pos : 1 ≤ s.count
  count_le : s.count ≤ maxCount
  distinct : s.positions.Nodup
  inRange : ∀ p ∈ s.positions, p < width

end Support

end Ket
