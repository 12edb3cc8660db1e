import Ket.Instruction

/-! Circuits: a register of at least one qubit and the instructions on it, in order. An instruction
is checked when it is appended, so a circuit that was built by `empty` and `append` holds only well
formed instructions, and a refused instruction leaves no trace. -/

namespace Ket

structure Circuit (F : Type) where
  width : UInt32
  instructions : Array (Instruction F)
deriving BEq

namespace Circuit

variable {F : Type}

def numQubits (c : Circuit F) : Nat := c.width.toNat

def empty (width : UInt32) : Except (CircuitError F) (Circuit F) :=
  if width = 0 then .error .noQubits else .ok ⟨width, #[]⟩

def append [Scalar F] (c : Circuit F) (i : Instruction F) :
    Except (CircuitError F) (Circuit F) :=
  match i.check c.numQubits with
  | .error e => .error e
  | .ok () => .ok { c with instructions := c.instructions.push i }

/-- Appends in order and stops at the first instruction that is refused. -/
def appendAll [Scalar F] (c : Circuit F) (is : List (Instruction F)) :
    Except (CircuitError F) (Circuit F) :=
  is.foldlM append c

def ofInstructions [Scalar F] (width : UInt32) (is : List (Instruction F)) :
    Except (CircuitError F) (Circuit F) := do
  (← empty width).appendAll is

structure WellFormed [Scalar F] (c : Circuit F) : Prop where
  numQubits_pos : 0 < c.numQubits
  instructions : ∀ i ∈ c.instructions, i.WellFormed c.numQubits

def gateNames (c : Circuit F) : List String := c.instructions.toList.map (·.gate.name)

def count (c : Circuit F) (g : Gate) : Nat := c.instructions.countP (·.gate = g)

/-- How often each gate occurs, without the gates that do not occur. -/
def gateCounts (c : Circuit F) : List (Gate × Nat) :=
  Gate.all.filterMap fun g => if c.count g = 0 then none else some (g, c.count g)

theorem wellFormed_of_empty [Scalar F] {width : UInt32} {c : Circuit F}
    (h : empty width = .ok c) : c.WellFormed := by
  unfold empty at h
  split at h
  · cases h
  · rename_i hw
    cases h
    refine ⟨Nat.pos_of_ne_zero fun h0 => hw ?_, by simp⟩
    exact UInt32.toNat_inj.1 h0

theorem WellFormed.append [Scalar F] {c d : Circuit F} {i : Instruction F}
    (hc : c.WellFormed) (h : c.append i = .ok d) : d.WellFormed := by
  unfold Circuit.append at h
  split at h
  · cases h
  · rename_i hi
    cases h
    refine ⟨hc.numQubits_pos, fun j hj => ?_⟩
    rcases Array.mem_push.1 hj with hj | rfl
    · exact hc.instructions j hj
    · exact Instruction.check_eq_ok_iff.1 hi

end Circuit

end Ket
