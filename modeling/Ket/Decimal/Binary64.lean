/-! Binary64 numbers as exact values: a sign, and a significand times a power of two. -/

namespace Ket

/-- What a binary64 number stands for. A finite one is `significand * 2 ^ exponent` in size. -/
inductive Binary64
  | nan
  | infinite (negative : Bool)
  | finite (negative : Bool) (significand : Nat) (exponent : Int)
deriving DecidableEq

namespace Binary64

def leastExponent : Int := -1074

/-- A normal significand is at least this large. -/
def leastNormal : Nat := 1 <<< 52

def ofBits (bits : Nat) : Binary64 :=
  let negative := bits.testBit 63
  let fraction := bits % leastNormal
  let exponent : Nat := bits / leastNormal % 2048
  if exponent = 2047 then if fraction = 0 then infinite negative else nan
  else if exponent = 0 then finite negative fraction leastExponent
  else finite negative (leastNormal + fraction) (leastExponent + ((exponent - 1 : Nat) : Int))

def ofFloat (x : Float) : Binary64 := ofBits x.toBits.toNat

end Binary64

end Ket
