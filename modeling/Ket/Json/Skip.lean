import Ket.Json.Text

/-! Skipping of a value that nobody wants. It must still be JSON, of any depth, but its numbers may
be of any size and its escapes may name lone surrogates. The text is checked by a machine that looks
at one character after the other and keeps a stack of the arrays and objects that are open. -/

namespace Ket.Json

inductive Frame
  | array
  | object
deriving DecidableEq

/-- What the machine has just seen or waits for. Strings are keys or values. -/
inductive Skip
  | value
  | firstItem
  | firstKey
  | key
  | colon
  | after
  | word (left : List Char)
  | sign
  | zero
  | digits
  | point
  | fraction
  | exponent
  | exponentSign
  | exponentDigits
  | text (isKey : Bool)
  | escape (isKey : Bool)
  | hex (isKey : Bool) (left : Nat)
deriving DecidableEq

namespace Skip

/-- Whether a value is complete if no character continues it. -/
def isComplete : Skip → Bool
  | after | zero | digits | fraction | exponentDigits => true
  | _ => false

/-- A number that stops too early is no JSON. Anything else is just not finished. -/
def faultAtEnd : Skip → Fault
  | sign | point | exponent | exponentSign => .malformed
  | _ => .ended

/-- The first character of a value, or a blank before it. -/
def begin? (frames : List Frame) (c : Char) : Option (Skip × List Frame) :=
  if isBlank c then some (value, frames)
  else if c = '0' then some (zero, frames)
  else if isDigit c then some (digits, frames)
  else match c with
    | 'n' => some (word ['u', 'l', 'l'], frames)
    | 't' => some (word ['r', 'u', 'e'], frames)
    | 'f' => some (word ['a', 'l', 's', 'e'], frames)
    | '-' => some (sign, frames)
    | '"' => some (text false, frames)
    | '[' => some (firstItem, .array :: frames)
    | '{' => some (firstKey, .object :: frames)
    | _ => none

/-- A character behind a complete value that is in an array or object. -/
def continue? (frame : Frame) (frames : List Frame) (c : Char) : Option (Skip × List Frame) :=
  if isBlank c then some (after, frame :: frames)
  else match frame, c with
    | .array, ',' => some (value, frame :: frames)
    | .object, ',' => some (key, frame :: frames)
    | .array, ']' | .object, '}' => some (after, frames)
    | _, _ => none

/-- How a character extends what has been seen, apart from closing a value. The text behind the
character shows whether there is room for an escape. -/
def extend? (state : Skip) (frames : List Frame) (c : Char) (rest : List Char) :
    Except Fault (Option (Skip × List Frame)) :=
  let move (state : Skip) : Except Fault (Option (Skip × List Frame)) :=
    .ok (some (state, frames))
  match state with
  | value => .ok (begin? frames c)
  | firstItem =>
    if isBlank c then move firstItem
    else if c = ']' then .ok (some (after, frames.tail))
    else .ok (begin? frames c)
  | firstKey =>
    if isBlank c then move firstKey
    else if c = '}' then .ok (some (after, frames.tail))
    else if c = '"' then move (text true)
    else .ok none
  | key => if isBlank c then move key else if c = '"' then move (text true) else .ok none
  | colon => if isBlank c then move colon else if c = ':' then move value else .ok none
  | after => .ok none
  | word [] => .ok none
  | word (w :: ws) => if c = w then move (if ws.isEmpty then after else word ws) else .ok none
  | sign => if c = '0' then move zero else if isDigit c then move digits else .ok none
  | zero =>
    if isDigit c then .error .malformed
    else if c = '.' then move point
    else if c = 'e' ∨ c = 'E' then move exponent
    else .ok none
  | digits =>
    if isDigit c then move digits
    else if c = '.' then move point
    else if c = 'e' ∨ c = 'E' then move exponent
    else .ok none
  | point => if isDigit c then move fraction else .ok none
  | fraction =>
    if isDigit c then move fraction else if c = 'e' ∨ c = 'E' then move exponent else .ok none
  | exponent =>
    if isDigit c then move exponentDigits
    else if c = '+' ∨ c = '-' then move exponentSign
    else .ok none
  | exponentSign | exponentDigits => if isDigit c then move exponentDigits else .ok none
  | text isKey =>
    if c = '"' then move (if isKey then colon else after)
    else if c = '\\' then move (escape isKey)
    else if isControl c then .ok none
    else move (text isKey)
  | escape isKey =>
    if c = 'u' then if holdsFourBytes rest then move (hex isKey 4) else .error .ended
    else if (simpleEscape? c).isSome then move (text isKey)
    else .ok none
  | hex isKey left =>
    if (hexValue? c).isNone then .ok none
    else move (if left ≤ 1 then text isKey else hex isKey (left - 1))

/-- Runs the machine until the value is complete and nothing is open. -/
def run (state : Skip) (frames : List Frame) : Reader Unit
  | [] =>
    if state.isComplete && frames.isEmpty then .ok ((), []) else .error state.faultAtEnd
  | c :: s =>
    match extend? state frames c s with
    | .error e => .error e
    | .ok (some (state, frames)) => run state frames s
    | .ok none =>
      if state.isComplete then
        match frames with
        | [] => .ok ((), c :: s)
        | frame :: outer =>
          match continue? frame outer c with
          | some (state, frames) => run state frames s
          | none => .error .malformed
      else .error .malformed

end Skip

def skipValue : Reader Unit := Skip.run .value []

end Ket.Json
