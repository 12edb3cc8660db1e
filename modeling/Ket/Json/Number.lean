import Ket.Decimal.Plain
import Ket.Json.Reader

/-! Numbers in JSON text. A number without point and exponent whose digits fit 64 bits is whole. Any
other is read as binary64: its leading digits as far as they fit 64 bits, scaled by a power of
ten. -/

namespace Ket.Json

inductive Number
  | whole (n : Nat)
  /-- The number `-n`, for `n` from 1 to `2 ^ 63`. -/
  | negative (n : Nat)
  | real (x : Float)

namespace Number

/-- The sign bit of a zero counts. -/
def withSign (negative : Bool) (x : Float) : Float := if negative then -x else x

def fits (n : Nat) : Bool := n < UInt64.size

def ofDigits (significand : Nat) : Float := (UInt64.ofNat significand).toFloat

/-- The largest power of ten among the finite numbers. -/
def greatestPower : Nat := 308

def powerOfTen (k : Nat) : Float := .ofScientific 1 false k

/-- Divides by powers of ten until the exponent is small enough for a single one. -/
def shrink (x : Float) (exponent : Int) : Float :=
  if exponent < -greatestPower then
    if x == 0 then x else shrink (x / powerOfTen greatestPower) (exponent + greatestPower)
  else x / powerOfTen exponent.natAbs
termination_by (-exponent).toNat
decreasing_by simp only [greatestPower] at *; omega

/-- The number `significand * 10 ^ exponent`, unless it is too large. -/
def scale? (significand : Nat) (exponent : Int) : Option Float :=
  let x := ofDigits significand
  if exponent < 0 then some (shrink x exponent)
  else if greatestPower < exponent.toNat then if x == 0 then some x else none
  else
    let y := x * powerOfTen exponent.toNat
    if y.isInf then none else some y

def scaled (negative : Bool) (significand : Nat) (exponent : Int) : Reader Number :=
  match scale? significand exponent with
  | some x => pure (.real (withSign negative x))
  | none => throw .malformed

/-- Digits before the point. The second part counts those that no longer fit. -/
def wholeDigits (significand : Nat) : List Char → Nat × Nat × List Char
  | [] => (significand, 0, [])
  | c :: s =>
    if isDigit c then
      let next := significand * 10 + digitValue c
      if fits next then wholeDigits next s
      else (significand, ((c :: s).takeWhile isDigit).length, (c :: s).dropWhile isDigit)
    else (significand, 0, c :: s)

/-- Digits after the point. Those that no longer fit are ignored, and the others are counted. -/
def fractionDigits (significand places : Nat) : List Char → Nat × Nat × List Char
  | [] => (significand, places, [])
  | c :: s =>
    if isDigit c then
      let next := significand * 10 + digitValue c
      if fits next then fractionDigits next (places + 1) s
      else (significand, places, (c :: s).dropWhile isDigit)
    else (significand, places, c :: s)

def greatestExponent : Nat := 1 <<< 31 - 1

/-- The value of the digits of an exponent, none as soon as it is too large. -/
def exponentDigits (value : Nat) : List Char → Option Nat × List Char
  | [] => (some value, [])
  | c :: s =>
    if isDigit c then
      let next := value * 10 + digitValue c
      if next ≤ greatestExponent then exponentDigits next s else (none, c :: s)
    else (some value, c :: s)

/-- At least one digit must follow. -/
def needDigit : Reader Unit := fun
  | [] => .error .ended
  | c :: s => if isDigit c then .ok ((), c :: s) else .error .malformed

/-- What follows the `e` of a number whose digits so far stand for `significand * 10 ^ exponent`. -/
def exponentPart (negative : Bool) (significand : Nat) (exponent : Int) : Reader Number := do
  let downwards ← fun
    | '+' :: s => .ok (false, s)
    | '-' :: s => .ok (true, s)
    | s => .ok (false, s)
  needDigit
  match exponentDigits 0 (← get) with
  | (some power, s) =>
    set s
    scaled negative significand (if downwards then exponent - power else exponent + power)
  | (none, s) =>
    if significand ≠ 0 ∧ downwards = false then throw .malformed
    set (s.dropWhile isDigit)
    return .real (withSign negative 0)

/-- What follows the point. -/
def fractionPart (negative : Bool) (significand : Nat) (exponent : Int) : Reader Number := do
  needDigit
  let (significand, places, s) := fractionDigits significand 0 (← get)
  let exponent := exponent - places
  match s with
  | 'e' :: s | 'E' :: s => set s; exponentPart negative significand exponent
  | s => set s; scaled negative significand exponent

/-- Below zero, 64 bits hold whole numbers down to `-2 ^ 63`. There is no whole negative zero. -/
def ofWhole (negative : Bool) (n : Nat) : Number :=
  if negative then
    if n = 0 ∨ 1 <<< 63 < n then .real (-(ofDigits n)) else .negative n
  else .whole n

/-- What follows the digits before the point, `surplus` of which did not fit. -/
def tailPart (negative : Bool) (significand surplus : Nat) : Reader Number := fun
  | '.' :: s => fractionPart negative significand surplus s
  | 'e' :: s | 'E' :: s => exponentPart negative significand surplus s
  | s =>
    if surplus = 0 then .ok (ofWhole negative significand, s)
    else scaled negative significand surplus s

/-- A number after its sign. A zero is not followed by another digit. -/
def unsigned (negative : Bool) : Reader Number := do
  needDigit
  match ← get with
  | '0' :: s =>
    if (s.head?.map isDigit).getD false then throw .malformed
    set s
    tailPart negative 0 0
  | s =>
    let (significand, surplus, s) := wholeDigits 0 s
    set s
    tailPart negative significand surplus

/-- A number, of which the first character is known to be there: a sign or a digit. -/
def read : Reader Number := fun
  | '-' :: s => unsigned true s
  | s => unsigned false s

def toFloat : Number → Float
  | whole n => ofDigits n
  | negative n => -(ofDigits n)
  | real x => x

end Number

def startsNumber (c : Char) : Bool := c == '-' || isDigit c

/-- The shortest digits, with a point or an exponent so that they are not taken for a whole number.
The layout is positional for magnitudes from -5 to 15, and there is no text but `null` for what is
not finite. Of two equally near decimals the one with the even last digit is taken. -/
def floatText (x : Float) : List Char :=
  match Binary64.ofFloat x with
  | .nan | .infinite _ => ['n', 'u', 'l', 'l']
  | .finite negative 0 _ => Decimal.signed negative ['0', '.', '0']
  | .finite negative significand exponent =>
    let d := Decimal.shortest .even significand exponent
    let text :=
      if -5 ≤ d.magnitude ∧ d.magnitude ≤ 15 then
        if 0 ≤ d.exponent then d.positional ++ ['.', '0'] else d.positional
      else d.scientific
    Decimal.signed negative text

def natText (n : Nat) : List Char := Decimal.numeral n

end Ket.Json
