import Ket.Basic
import Ket.Decimal.Shortest

/-! How a decimal is laid out in characters, and the plain form of a number: the shortest digits in
positional layout, however many zeros that takes. Whole numbers have no point, and of two equally
near decimals the larger one is taken. -/

namespace Ket

namespace Decimal

def numeral (n : Nat) : List Char := Nat.toDigits 10 n

/-- All places from the first digit, or the units, to the last digit, or the units. -/
def positional (d : Decimal) : List Char :=
  let digits := numeral d.digits
  if 0 ≤ d.exponent then digits ++ List.replicate d.exponent.toNat '0'
  else
    let places := (-d.exponent).toNat
    if places < digits.length then
      digits.take (digits.length - places) ++ '.' :: digits.drop (digits.length - places)
    else '0' :: '.' :: List.replicate (places - digits.length) '0' ++ digits

/-- The power of ten of the first digit. -/
def magnitude (d : Decimal) : Int := (numeral d.digits).length - 1 + d.exponent

/-- One digit before the point, and the power of ten with its sign. -/
def scientific (d : Decimal) : List Char :=
  let sign := if d.magnitude < 0 then '-' else '+'
  let power := 'e' :: sign :: numeral d.magnitude.natAbs
  match numeral d.digits with
  | [] => power
  | [first] => first :: power
  | first :: rest => first :: '.' :: rest ++ power

def signed (negative : Bool) (text : List Char) : List Char :=
  if negative then '-' :: text else text

def plain : Binary64 → List Char
  | .nan => ['N', 'a', 'N']
  | .infinite negative => signed negative ['i', 'n', 'f']
  | .finite negative 0 _ => signed negative ['0']
  | .finite negative significand exponent =>
    signed negative (shortest .up significand exponent).positional

end Decimal

instance : HasText Float := ⟨fun x => String.ofList (Decimal.plain (.ofFloat x))⟩

end Ket
