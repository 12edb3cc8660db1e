import Ket.Circuit
import Ket.Operator.Gates
import Ket.Settings
import Ket.State

/-! Simulation of a circuit from the state in which all qubits are 0. Besides its outcome a run
leaves a log of what it did. -/

namespace Ket

inductive Event (F : Type) where
  | opened (width instructions : Nat)
  | started (width instructions : Nat) (parallel : Bool)
  | applied (i : Instruction F)
  | skipped (i : Instruction F)
  | completed (gates : Nat)

/-- The time that a run took is left out. -/
instance {F : Type} [HasText F] : HasText (Event F) where
  text
    | .opened n m => "SPAN run num_qubits=" ++ n.repr ++ " instructions=" ++ m.repr
    | .started n m parallel =>
      "DEBUG Starting simulation: " ++ n.repr ++ " qubits, " ++ m.repr ++ " instructions, " ++
        (if parallel then "Parallel" else "Sequential") ++ " kernel"
    | .applied i => "TRACE Applied " ++ text i
    | .skipped i => "TRACE Skipping " ++ text i
    | .completed k => "DEBUG Simulation completed in _: " ++ k.repr ++ " gates applied"

structure Outcome (F : Type) where
  log : List (Event F)
  result : Except (SimulationError F) (State (Amplitude F))

namespace Outcome

variable {F : Type}

def after (e : Event F) (o : Outcome F) : Outcome F := { o with log := e :: o.log }

end Outcome

namespace Simulation

variable {F : Type} [Zero F] [One F] [Add F] [Sub F] [Mul F] [Neg F] [Scalar F]

/-- Measurements are skipped. The last argument counts the gates applied so far. -/
def replay (strategy : Strategy) :
    List (Instruction F) → State (Amplitude F) → Nat → Outcome F
  | [], st, applied => ⟨[.completed applied], .ok st⟩
  | i :: rest, st, applied =>
    match Operator.ofInstruction? i with
    | .error e => ⟨[], .error e⟩
    | .ok none => (replay strategy rest st applied).after (.skipped i)
    | .ok (some op) =>
      match st.apply op (i.qubits.map (·.index)) strategy with
      | .error e => ⟨[], .error (.register e)⟩
      | .ok st => (replay strategy rest st (applied + 1)).after (.applied i)

/-- No register is wider than the settings and the size of an index allow. -/
def limit (settings : Settings) : Nat := min settings.maxQubits.toNat State.maxWidth

def run (settings : Settings) (threads : Nat) (c : Circuit F) : Outcome F :=
  let width := c.numQubits
  let length := c.instructions.size
  let parallel := settings.usesParallel width
  let outcome : Outcome F :=
    if limit settings < width then ⟨[], .error (.tooWide width (limit settings))⟩
    else
      let rest : Outcome F :=
        match State.zero width with
        | .error e => ⟨[], .error (.register e)⟩
        | .ok st =>
          replay (if parallel then .parallel threads else .sequential) c.instructions.toList st 0
      rest.after (.started width length parallel)
  outcome.after (.opened width length)

end Simulation

end Ket
