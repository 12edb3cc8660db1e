import Ket.Decimal.Binary64

/-! The shortest decimal that stands for a binary64 number: of the decimals that are read back as
the number it has the fewest digits, and of those it is nearest to the number.

A decimal is read back as the number if it lies in the interval halfway to its neighbours, whose
ends count when the significand is even. Every grid of multiples of a power of ten has at most two
points next to the number, one on either side, so the coarsest grid that has a point in the interval
is found by trying those two on each grid. -/

namespace Ket

/-- The number `digits * 10 ^ exponent`. -/
structure Decimal where
  digits : Nat
  exponent : Int
deriving DecidableEq

namespace Decimal

/-- Which of two equally near decimals is taken. -/
inductive Tie
  | up
  | even
deriving DecidableEq

/-- Four times a number and the ends of its interval, as multiples of `1 / denominator` on a
grid. -/
structure Interval where
  low : Nat
  middle : Nat
  high : Nat
  denominator : Nat
  closed : Bool

namespace Interval

/-- The interval of `significand * 2 ^ exponent` on the grid of multiples of `10 ^ grid`. The gap
below a power of two is half as wide as the one above. -/
def of (significand : Nat) (exponent grid : Int) : Interval :=
  let scale := (1 <<< exponent.toNat) * Nat.pow 10 (-grid).toNat
  { low := (4 * significand - if significand = Binary64.leastNormal then 1 else 2) * scale
    middle := 4 * significand * scale
    high := (4 * significand + 2) * scale
    denominator := 4 * ((1 <<< (-exponent).toNat) * Nat.pow 10 grid.toNat)
    closed := significand % 2 = 0 }

def contains (i : Interval) (point : Nat) : Bool :=
  let x := point * i.denominator
  if i.closed then i.low ≤ x && x ≤ i.high else i.low < x && x < i.high

/-- The nearest grid point in the interval. -/
def nearest? (i : Interval) (tie : Tie) : Option Nat :=
  let below := i.middle / i.denominator
  let above := below + 1
  match i.contains below, i.contains above with
  | false, false => none
  | true, false => some below
  | false, true => some above
  | true, true =>
    let twice := 2 * i.middle
    let half := (below + above) * i.denominator
    if twice < half then some below
    else if half < twice then some above
    else match tie with
      | .up => some above
      | .even => some (if below % 2 = 0 then below else above)

end Interval

/-- Goes from coarse grids to finer ones. Without a hit in the given number of steps it ends with
the digits below the number. -/
def search (tie : Tie) (significand : Nat) (exponent : Int) : Nat → Int → Decimal
  | 0, grid =>
    let i := Interval.of significand exponent grid
    ⟨i.middle / i.denominator, grid⟩
  | steps + 1, grid =>
    match (Interval.of significand exponent grid).nearest? tie with
    | some digits => ⟨digits, grid⟩
    | none => search tie significand exponent steps (grid - 1)

/-- Seventeen digits always suffice. The first grid is a few steps too coarse at most: the factor
is above the logarithm of two by less than one part in ten thousand. -/
def shortest (tie : Tie) (significand : Nat) (exponent : Int) : Decimal :=
  let bits := significand.log2 + exponent
  search tie significand exponent 24 ((bits + 2) * 30103 / 100000 + 1)

end Decimal

end Ket
