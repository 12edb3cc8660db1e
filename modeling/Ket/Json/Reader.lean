/-! Reading of JSON text from left to right. A reader takes what it reads off the front of the text
or fails; of several things that are wrong with a text, the first one is reported. -/

namespace Ket.Json

inductive Fault
  /-- The text ends inside a value. -/
  | ended
  /-- From here on it is no JSON, or there is more of it than one value. -/
  | malformed
  /-- A value is there, but not one of the wanted type or range. -/
  | mismatch
deriving DecidableEq

abbrev Reader (β : Type) := StateT (List Char) (Except Fault) β

def isBlank (c : Char) : Bool := c == ' ' || c == '\n' || c == '\t' || c == '\r'

def isDigit (c : Char) : Bool := '0' ≤ c && c ≤ '9'

def digitValue (c : Char) : Nat := c.toNat - '0'.toNat

/-- The next character that is not blank, which stays in the text. -/
def peek : Reader (Option Char) := fun s =>
  let s := s.dropWhile isBlank
  .ok (s.head?, s)

/-- Takes one character. -/
def advance : Reader Unit := fun s => .ok ((), s.tail)

/-- Takes exactly the given characters. -/
def word : List Char → Reader Unit
  | [], s => .ok ((), s)
  | _ :: _, [] => .error .ended
  | w :: ws, c :: s => if c = w then word ws s else .error .malformed

/-- Takes the given character after blanks. -/
def mark (m : Char) : Reader Unit := do
  match ← peek with
  | none => throw .ended
  | some c => if c = m then advance else throw .malformed

/-- Nothing but blanks may be left. -/
def finish : Reader Unit := do
  match ← peek with
  | none => pure ()
  | some _ => throw .malformed

end Ket.Json
