import Ket.Basic

/-! Amplitudes: complex numbers over any scalars that can be added, subtracted and multiplied. Each
operation is the plain formula on the parts, so on binary64 every part is rounded exactly as often
as the formula has operations. -/

namespace Ket

structure Amplitude (F : Type) where
  re : F
  im : F
deriving BEq

namespace Amplitude

variable {F : Type}

instance [Zero F] : Zero (Amplitude F) := ⟨⟨0, 0⟩⟩

instance [Zero F] [One F] : One (Amplitude F) := ⟨⟨1, 0⟩⟩

instance [Add F] : Add (Amplitude F) := ⟨fun z w => ⟨z.re + w.re, z.im + w.im⟩⟩

instance [Sub F] : Sub (Amplitude F) := ⟨fun z w => ⟨z.re - w.re, z.im - w.im⟩⟩

/-- Both parts change their sign, zeros included. -/
instance [Neg F] : Neg (Amplitude F) := ⟨fun z => ⟨-z.re, -z.im⟩⟩

instance [Add F] [Sub F] [Mul F] : Mul (Amplitude F) :=
  ⟨fun z w => ⟨z.re * w.re - z.im * w.im, z.re * w.im + z.im * w.re⟩⟩

/-- The sum `s + z * w`. Each part takes up its two products one after the other, so a sum of many
terms is rounded at other places than by `+` and `*`. -/
def addMul [Add F] [Sub F] [Mul F] (s z w : Amplitude F) : Amplitude F :=
  ⟨s.re + z.re * w.re - z.im * w.im, s.im + z.re * w.im + z.im * w.re⟩

def i [Zero F] [One F] : Amplitude F := ⟨0, 1⟩

def ofReal [Zero F] (x : F) : Amplitude F := ⟨x, 0⟩

def ofImaginary [Zero F] (y : F) : Amplitude F := ⟨0, y⟩

/-- The point of the unit circle at an angle. -/
def phase [Scalar F] (θ : F) : Amplitude F := ⟨Scalar.cos θ, Scalar.sin θ⟩

def conj [Neg F] (z : Amplitude F) : Amplitude F := ⟨z.re, -z.im⟩

def normSq [Add F] [Mul F] (z : Amplitude F) : F := z.re * z.re + z.im * z.im

/-- The modulus, computed on parts scaled to be at most one, so that it neither overflows nor
vanishes early. It is infinite if one part is and the other is finite. -/
def modulus (z : Amplitude Float) : Float :=
  let x := z.re.abs
  let y := z.im.abs
  if x.isFinite && y.isFinite then
    let big := if x < y then y else x
    if big == 0 then 0
    else
      let x := x / big
      let y := y / big
      big * (x * x + y * y).sqrt
  else if x.isFinite || y.isFinite then x + y
  else 0 / 0

/-- The sign before the imaginary part is a minus for numbers below zero only, so a negative zero
keeps its own sign after a plus. -/
instance [Zero F] [Neg F] [LT F] [DecidableLT F] [HasText F] : HasText (Amplitude F) where
  text z :=
    if z.im < 0 then text z.re ++ "-" ++ text (-z.im) ++ "i"
    else text z.re ++ "+" ++ text z.im ++ "i"

end Amplitude

end Ket
