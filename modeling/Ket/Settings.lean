/-! Settings of a simulation. -/

namespace Ket

structure Settings where
  /-- The widest register that is simulated. -/
  maxQubits : UInt32 := 28
  /-- Registers from this width on are simulated in parallel. -/
  parallelThreshold : UInt32 := 14
  /-- Whether anything is done in parallel at all. -/
  parallel : Bool := true
deriving DecidableEq

namespace Settings

def withMaxQubits (c : Settings) (n : UInt32) : Settings := { c with maxQubits := n }

def withParallelThreshold (c : Settings) (n : UInt32) : Settings :=
  { c with parallelThreshold := n }

def withParallel (c : Settings) (on : Bool) : Settings := { c with parallel := on }

def usesParallel (c : Settings) (width : Nat) : Bool :=
  c.parallel && decide (c.parallelThreshold.toNat ≤ width)

end Settings

end Ket
