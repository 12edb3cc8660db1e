/-! Two classes that everything else is built on: the numbers that the simulation computes with, and
the values that have a written form. -/

namespace Ket

/-- What is needed of numbers besides their ring operations. The simulation runs on binary64, whose
instance stands below. The laws of rotations and norms are laws about any ring that has these
functions. -/
class Scalar (F : Type) where
  half : F → F
  cos : F → F
  sin : F → F
  sqrt : F → F
  /-- The square root of one half. -/
  invSqrtTwo : F
  /-- An eighth of a turn. -/
  quarterPi : F
  isFinite : F → Bool

/-- `invSqrtTwo` and `quarterPi` are the binary64 numbers nearest to `1/√2` and `π/4`. -/
instance : Scalar Float where
  half x := x / 2
  cos := Float.cos
  sin := Float.sin
  sqrt := Float.sqrt
  invSqrtTwo := Float.ofBits 0x3fe6a09e667f3bcd
  quarterPi := Float.ofBits 0x3fe921fb54442d18
  isFinite := Float.isFinite

/-- The written form of a value, for people to read. Only the forms that a reader of the output sees
are instances: qubits, gates, instructions, numbers, amplitudes, states and errors. -/
class HasText (α : Type) where
  text : α → String

export HasText (text)

end Ket
