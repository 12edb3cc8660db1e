import Ket.Json.Reader

/-! Strings in JSON text. -/

namespace Ket.Json

def hexValue? (c : Char) : Option Nat :=
  if isDigit c then some (digitValue c)
  else if 'a' ≤ c && c ≤ 'f' then some (c.toNat - 'a'.toNat + 10)
  else if 'A' ≤ c && c ≤ 'F' then some (c.toNat - 'A'.toNat + 10)
  else none

/-- Whether at least four bytes of text are left. -/
def holdsFourBytes (s : List Char) : Bool :=
  4 ≤ (s.take 4).foldl (fun bytes c => bytes + c.utf8Size) 0

/-- The four hexadecimal digits of an escape. A text that has no room for them has ended, whatever
is left of it. -/
def hexUnit : Reader Nat := fun s =>
  if holdsFourBytes s then
    match s with
    | a :: b :: c :: d :: rest =>
      match hexValue? a, hexValue? b, hexValue? c, hexValue? d with
      | some a, some b, some c, some d => .ok (((a * 16 + b) * 16 + c) * 16 + d, rest)
      | _, _, _, _ => .error .malformed
    | _ => .error .malformed
  else .error .ended

def isLeading (unit : Nat) : Bool := 0xD800 ≤ unit && unit ≤ 0xDBFF

def isTrailing (unit : Nat) : Bool := 0xDC00 ≤ unit && unit ≤ 0xDFFF

/-- The character of an escape by number, after its `u`. A leading surrogate needs a trailing one
right behind it, and a trailing one never comes first. -/
def unicodeEscape : Reader Char := do
  let unit ← hexUnit
  if isTrailing unit then throw .malformed
  else if isLeading unit then
    word ['\\', 'u']
    let second ← hexUnit
    if isTrailing second then
      return .ofNat ((unit - 0xD800) * 0x400 + (second - 0xDC00) + 0x10000)
    else throw .malformed
  else return .ofNat unit

def simpleEscape? : Char → Option Char
  | '"' => some '"'
  | '\\' => some '\\'
  | '/' => some '/'
  | 'b' => some '\x08'
  | 'f' => some '\x0c'
  | 'n' => some '\n'
  | 'r' => some '\r'
  | 't' => some '\t'
  | _ => none

def isControl (c : Char) : Bool := c < ' '

/-- The rest of a string after its opening quote. The characters read so far stand in reverse, and
each step takes one at least, so `fuel` need not exceed the length of the text. -/
def stringLoop : Nat → List Char → Reader (List Char)
  | 0, _, _ => .error .ended
  | _ + 1, _, [] => .error .ended
  | fuel + 1, taken, c :: s =>
    if c = '"' then .ok (taken.reverse, s)
    else if c = '\\' then
      match s with
      | [] => .error .ended
      | 'u' :: s =>
        match unicodeEscape s with
        | .error e => .error e
        | .ok (c, s) => stringLoop fuel (c :: taken) s
      | c :: s =>
        match simpleEscape? c with
        | none => .error .malformed
        | some c => stringLoop fuel (c :: taken) s
    else if isControl c then .error .malformed
    else stringLoop fuel (c :: taken) s

/-- The content of a string, after its opening quote. -/
def string : Reader (List Char) := fun s => stringLoop (s.length + 1) [] s

end Ket.Json
