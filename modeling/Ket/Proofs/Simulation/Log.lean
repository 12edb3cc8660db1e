import Ket.Decimal.Plain
import Ket.Proofs.Simulation.Run

/-! The log of a run. It tells the circuit: one event for each instruction, in their order, between
the size of the circuit and the number of gates that were applied. Nothing that comes after the
check of the width cuts it short. -/

namespace Ket

variable {F : Type}

def Event.isApplied : Event F → Bool
  | .applied _ => true
  | _ => false

namespace Instruction

theorem isApplied_event (i : Instruction F) : i.event.isApplied = !i.isMeasure := by
  rw [event]
  cases i.isMeasure <;> rfl

theorem countP_isApplied_event (is : List (Instruction F)) :
    (is.map (·.event)).countP (·.isApplied) = is.countP (!·.isMeasure) := by
  rw [List.countP_map]
  exact List.countP_congr fun i _ => by rw [Function.comp_apply, isApplied_event]

/-- The line that an instruction leaves in the printed log. -/
theorem text_event [HasText F] (i : Instruction F) :
    text i.event = (if i.isMeasure then "TRACE Skipping " else "TRACE Applied ") ++ text i := by
  rw [event]
  cases i.isMeasure <;> rfl

theorem gate_eq_measure_iff (i : Instruction F) : i.gate = .measure ↔ i.isMeasure = true := by
  cases i <;> simp [gate, isMeasure]

end Instruction

/-- Every instruction is a gate or a measurement. -/
theorem Circuit.countP_add_count_measure (c : Circuit F) :
    c.instructions.toList.countP (!·.isMeasure) + c.count .measure = c.instructions.size := by
  have hmeasure : c.count .measure = c.instructions.toList.countP (·.isMeasure) := by
    rw [count, ← Array.countP_toList]
    exact List.countP_congr fun i _ => by simp [i.gate_eq_measure_iff]
  have hsplit := c.instructions.toList.length_eq_countP_add_countP (·.isMeasure)
  rw [Array.length_toList] at hsplit
  rw [hmeasure, hsplit, Nat.add_comm]
  simp only [Bool.not_eq_true, Bool.decide_eq_false]

namespace Simulation

/-- The log of a run opens with the size of the circuit. A circuit that is too wide leaves nothing
else. Any other circuit leaves the kernel, then one event for each instruction, by which it was
applied or skipped, and at last the number of those that were applied. -/
theorem run_log {c : Circuit Float} (hc : c.Reachable) (settings : Settings) (threads : Nat) :
    (min settings.maxQubits.toNat 63 < c.numQubits →
      (run settings threads c).log = [.opened c.numQubits c.instructions.size] ∧
      (run settings threads c).log.map text =
        ["SPAN run num_qubits=" ++ c.numQubits.repr ++ " instructions=" ++
          c.instructions.size.repr]) ∧
    (c.numQubits ≤ min settings.maxQubits.toNat 63 → ∃ parallel gates,
      (run settings threads c).log =
        .opened c.numQubits c.instructions.size ::
        .started c.numQubits c.instructions.size parallel ::
        (c.instructions.toList.map (fun i => if i.isMeasure then .skipped i else .applied i) ++
          [.completed gates]) ∧
      (run settings threads c).log.map text =
        ("SPAN run num_qubits=" ++ c.numQubits.repr ++ " instructions=" ++
          c.instructions.size.repr) ::
        ("DEBUG Starting simulation: " ++ c.numQubits.repr ++ " qubits, " ++
          c.instructions.size.repr ++ " instructions, " ++
          (if parallel then "Parallel" else "Sequential") ++ " kernel") ::
        (c.instructions.toList.map (fun i =>
          (if i.isMeasure then "TRACE Skipping " else "TRACE Applied ") ++ text i) ++
          ["DEBUG Simulation completed in _: " ++ gates.repr ++ " gates applied"]) ∧
      (parallel = true ↔
        settings.parallel = true ∧ settings.parallelThreshold.toNat ≤ c.numQubits) ∧
      gates = (run settings threads c).log.countP (·.isApplied) ∧
      gates + c.count .measure = c.instructions.size) := by
  refine ⟨fun hwide => ?_, fun hfit => ?_⟩
  · rw [run_of_wide hwide]
    exact ⟨rfl, rfl⟩
  · rw [run_of_fits hc.wellFormed hfit]
    refine ⟨settings.usesParallel c.numQubits, c.instructions.toList.countP (!·.isMeasure), rfl,
      ?_, ?_, ?_, c.countP_add_count_measure⟩
    · rw [List.map_cons, List.map_cons, List.map_append, List.map_map]
      exact congrArg (_ :: _ :: · ++ _) (List.map_congr_left fun i _ => i.text_event)
    · rw [Settings.usesParallel, Bool.and_eq_true, decide_eq_true_iff]
    · rw [List.countP_cons_of_neg Bool.false_ne_true, List.countP_cons_of_neg Bool.false_ne_true,
        List.countP_append, Instruction.countP_isApplied_event, List.countP_singleton]
      rfl

/-- The measured pair is too wide for the first settings. For the second ones it is just wide enough
to be simulated in parallel. -/
theorem run_log_of_measured_pair :
    ∃ c : Circuit Float, c.Reachable ∧
      (run { maxQubits := 1 } 4 c).log.map text = ["SPAN run num_qubits=2 instructions=4"] ∧
      (run { parallelThreshold := 2 } 4 c).log.map text =
        ["SPAN run num_qubits=2 instructions=4",
          "DEBUG Starting simulation: 2 qubits, 4 instructions, Parallel kernel",
          "TRACE Applied h q0", "TRACE Applied cx q0, q1", "TRACE Skipping measure q0",
          "TRACE Skipping measure q1", "DEBUG Simulation completed in _: 2 gates applied"] := by
  have hc := (Circuit.Reachable.bell Circuit.bell_eq_ok).call .measureAll rfl
  have hwide := (run_log hc { maxQubits := 1 } 4).1 (by decide)
  obtain ⟨parallel, gates, -, htext, hparallel, -, hgates⟩ :=
    (run_log hc { parallelThreshold := 2 } 4).2 (by decide)
  obtain rfl : parallel = true := hparallel.2 (by decide)
  obtain rfl : gates = 2 := by
    have hmeasure : gates + 2 = 4 := hgates
    omega
  exact ⟨_, hc, hwide.2, htext.trans rfl⟩

end Simulation

end Ket
