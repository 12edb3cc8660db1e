import Ket.Operator
import Ket.Support

/-! Application of an operator to the amplitudes of a register, without building the matrix on the
whole register. Amplitudes of one class are replaced by their product with the matrix, and classes
do not meet, so they may be processed one after the other or side by side. -/

namespace Ket

/-- In a parallel application the work is spread over a number of threads. -/
inductive Strategy
  | sequential
  | parallel (threads : Nat)
deriving DecidableEq

variable {α : Type}

/-- Consecutive pieces of a given length, of which the last may be shorter. -/
def pieces (length : Nat) (a : Array α) : List (Array α) :=
  (List.range ((a.size + length - 1) / length)).map fun k =>
    a.extract (k * length) (k * length + length)

/-- The entries at the given indices. -/
def gather [Zero α] (a : Array α) (indices : List Nat) : List α := indices.map fun i => a.getD i 0

/-- Puts each value at its index. -/
def scatter (a : Array α) (indices : List Nat) (values : List α) : Array α :=
  (indices.zip values).foldl (fun a (i, value) => a.setIfInBounds i value) a

namespace Operator

variable [Zero α] [Add α] [Mul α]

/-- Reads all members before it writes any. -/
def applyToClass (op : Operator α) (members : List Nat) (a : Array α) : Array α :=
  scatter a members (op.transform (gather a members))

/-- Processes the classes in the order of their representatives. -/
def applySequentially (op : Operator α) (s : Support) (a : Array α) : Array α :=
  let offsets := s.offsets
  (s.representatives a.size).foldl
    (fun a representative => op.applyToClass (offsets.map (representative ||| ·)) a) a

/-- Cuts the array into blocks of whole classes and processes each block on its own. -/
def applyToBlocks (op : Operator α) (s : Support) (block : Nat) (a : Array α) : Array α :=
  ((pieces block a).map (op.applySequentially s)).foldl (· ++ ·) #[]

end Operator

/-- A stretch of the array on which the addressed bits are constant. -/
structure Run (α : Type) where
  start : Nat
  values : Array α

namespace Run

/-- Runs that differ in addressed bits only share the first part, and the second is the row that
they stand for. -/
def key (s : Support) (r : Run α) : Nat × Nat := (s.clear r.start, s.localIndex r.start)

def cut (length : Nat) (a : Array α) : List (Run α) :=
  (pieces length a).zipIdx.map fun (values, k) => ⟨k * length, values⟩

/-- Groups of runs that differ in addressed bits only, each in the order of the rows. The runs of a
register fill groups of one run for each row (`length_cut_eq`), so `pieces` leaves no shorter group
over at the end. -/
def groups (s : Support) (runs : List (Run α)) : List (Array (Run α)) :=
  let keyed := (runs.map fun r => (r.key s, r)).mergeSort fun x y =>
    decide (x.1.1 < y.1.1) || (x.1.1 == y.1.1 && decide (x.1.2 ≤ y.1.2))
  pieces s.classSize (keyed.map (·.2)).toArray

/-- The elements at one place of all the runs of a group are a class. -/
def transformGroup [Zero α] [Add α] [Mul α] (op : Operator α) (length : Nat)
    (group : Array (Run α)) : Array (Run α) :=
  let columns := (List.range length).map fun j =>
    op.transform (group.toList.map fun r => r.values.getD j 0)
  group.mapIdx fun b r =>
    { r with values := (columns.map fun column => column.getD b 0).toArray }

def writeTo (a : Array α) (r : Run α) : Array α :=
  (r.values.toList.zipIdx r.start).foldl (fun a (value, i) => a.setIfInBounds i value) a

end Run

namespace Operator

variable [Zero α] [Add α] [Mul α]

/-- Runs are at most `2 ^ maxRunBits` long. -/
def maxRunBits : Nat := 12

/-- Cuts the array into runs and processes each group of runs on its own. -/
def applyToGroups (op : Operator α) (s : Support) (a : Array α) : Array α :=
  let length := 1 <<< min s.lowest maxRunBits
  let groups := (Run.groups s (Run.cut length a)).map (Run.transformGroup op length)
  groups.foldl (fun a group => group.foldl Run.writeTo a) a

/-- Uses blocks if there are enough of them for all threads. -/
def applyInParallel (op : Operator α) (s : Support) (threads : Nat) (a : Array α) : Array α :=
  let block := 1 <<< (s.highest + 1)
  if threads ≤ a.size / block then op.applyToBlocks s block a else op.applyToGroups s a

def apply (op : Operator α) (s : Support) (strategy : Strategy) (a : Array α) :
    Except RegisterError (Array α) :=
  if op.arity = s.count then
    match strategy with
    | .sequential => .ok (op.applySequentially s a)
    | .parallel threads => .ok (op.applyInParallel s threads a)
  else .error (.arity op.arity s.count)

end Operator

end Ket
