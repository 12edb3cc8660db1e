import Ket.Proofs.Circuit.Reachable

/-! Histories of a circuit that is changed in place by one call after the other. Some of the calls
may fail. The measurement of all qubits is the only call that appends more than one instruction, so
it is the only one that could stop half-way and leave a part of them behind. -/

namespace Ket

namespace Circuit

variable {F : Type} [Scalar F]

/-- Measures one qubit after the other, up to the first that is refused. What was appended before
it stays. -/
def measureEach (c : Circuit F) : List Nat → Circuit F × Except (CircuitError F) Unit
  | [] => (c, .ok ())
  | q :: qs =>
    match c.measure (.ofNat q) with
    | .ok d => d.measureEach qs
    | .error e => (c, .error e)

/-- What a call leaves of the circuit, and its answer. -/
def Call.inPlace (c : Circuit F) : Call F → Circuit F × Except (CircuitError F) Unit
  | .measureAll => c.measureEach (List.range c.numQubits)
  | call =>
    match call.perform c with
    | .ok d => (d, .ok ())
    | .error e => (c, .error e)

/-- The circuit that is left after all of the calls. -/
def after (c : Circuit F) (calls : List (Call F)) : Circuit F :=
  calls.foldl (fun c call => (call.inPlace c).1) c

/-- The calls that succeed, in order, when all of them are made. -/
def accepted (c : Circuit F) : List (Call F) → List (Call F)
  | [] => []
  | call :: calls =>
    match call.inPlace c with
    | (d, .ok ()) => call :: d.accepted calls
    | (d, .error _) => d.accepted calls

theorem check_measure {width q : Nat} (hw : width < UInt32.size) (hq : q < width) :
    (Instruction.measure (.ofNat q) : Instruction F).check width = .ok () := by
  have hindex : (Qubit.ofNat q).index = q := Qubit.index_ofNat (Nat.lt_trans hq hw)
  refine Instruction.check_eq_ok_iff.2 ⟨?_, by simp [Instruction.qubits], fun θ hθ => nomatch hθ⟩
  intro p hp
  rwa [List.mem_singleton.1 hp, hindex]

theorem measureAll_eq_ok (c : Circuit F) :
    c.measureAll = .ok { c with instructions := c.instructions ++
      ((List.range c.numQubits).map fun q => .measure (.ofNat q)).toArray } := by
  rw [measureAll_eq, appendAll_eq_ok_iff]
  refine ⟨List.forall_mem_map.2 fun q hq => ?_, rfl⟩
  exact check_measure c.width.toNat_lt (List.mem_range.1 hq)

theorem measureEach_eq (c : Circuit F) (qs : List Nat) {d : Circuit F}
    (h : c.appendAll (qs.map fun q => .measure (.ofNat q)) = .ok d) :
    c.measureEach qs = (d, .ok ()) := by
  induction qs generalizing c with
  | nil =>
    cases h
    rfl
  | cons q qs ih =>
    rw [List.map_cons, appendAll_cons, bind_eq_ok_iff] at h
    obtain ⟨c', hq, h⟩ := h
    rw [measureEach, measure, hq]
    exact ih c' h

/-- In place, too, a call does all that it stands for or nothing. -/
theorem Call.inPlace_eq (c : Circuit F) (call : Call F) :
    call.inPlace c =
      match call.perform c with
      | .ok d => (d, .ok ())
      | .error e => (c, .error e) := by
  cases call with
  | measureAll =>
    have h := measureAll_eq_ok c
    have heach := measureEach_eq c (List.range c.numQubits) ((measureAll_eq c).symm.trans h)
    rw [inPlace, heach, perform, h]
  | _ => rfl

/-- One step that succeeds. -/
theorem Call.inPlace_ok {c d : Circuit F} {call : Call F} (h : call.inPlace c = (d, .ok ())) :
    (∀ i ∈ call.instructions c.numQubits, i.check c.numQubits = .ok ()) ∧
      d = { c with
        instructions := c.instructions ++ (call.instructions c.numQubits).toArray } := by
  rw [inPlace_eq] at h
  split at h
  · rename_i d' hd
    obtain ⟨rfl, -⟩ := Prod.mk.inj h
    rwa [perform_eq, appendAll_eq_ok_iff] at hd
  · cases h

/-- One step that fails. -/
theorem Call.inPlace_error {c d : Circuit F} {call : Call F} {e : CircuitError F}
    (h : call.inPlace c = (d, .error e)) : d = c := by
  rw [inPlace_eq] at h
  split at h
  · cases h
  · exact (Prod.mk.inj h).1.symm

theorem after_cons (c : Circuit F) (call : Call F) (calls : List (Call F)) :
    c.after (call :: calls) = (call.inPlace c).1.after calls := rfl

/-- The width never changes, and the instructions of the calls that succeed are appended in order.
Each of them was checked. -/
theorem after_eq (c : Circuit F) (calls : List (Call F)) :
    (∀ i ∈ (c.accepted calls).flatMap (·.instructions c.numQubits),
        i.check c.numQubits = .ok ()) ∧
      c.after calls = { c with
        instructions := c.instructions ++
          ((c.accepted calls).flatMap (·.instructions c.numQubits)).toArray } := by
  induction calls generalizing c with
  | nil => simp [after, accepted]
  | cons call calls ih =>
    rw [after_cons, accepted]
    rcases h : call.inPlace c with ⟨d, _ | _⟩
    · obtain rfl := Call.inPlace_error h
      exact ih d
    · obtain ⟨hcheck, rfl⟩ := Call.inPlace_ok h
      obtain ⟨hchecks, hafter⟩ := ih { c with
        instructions := c.instructions ++ (call.instructions c.numQubits).toArray }
      refine ⟨?_, ?_⟩
      · rw [List.flatMap_cons]
        exact List.forall_mem_append.2 ⟨hcheck, hchecks⟩
      · refine hafter.trans ?_
        simp [numQubits]

section Reachable

omit [Scalar F]

/-- After any calls a circuit has the qubits that it began with, holds only instructions that pass
the check, and holds those that it began with and then those of the calls that succeeded. -/
theorem history_invariant {c : Circuit Float} (hc : c.Reachable) (calls : List (Call Float)) :
    1 ≤ (c.after calls).numQubits ∧
      (c.after calls).numQubits = c.numQubits ∧
      (∀ i ∈ (c.after calls).instructions,
        i.check (c.after calls).numQubits = .ok () ∧
          (∀ q ∈ i.qubits, q.index < (c.after calls).numQubits) ∧ i.qubits.Nodup ∧
          ∀ θ ∈ i.angle?, Scalar.isFinite θ = true) ∧
      (c.after calls).instructions.toList =
        c.instructions.toList ++ (c.accepted calls).flatMap (·.instructions c.numQubits) ∧
      ∃ d, Call.measureAll.inPlace (c.after calls) = (d, .ok ()) ∧
        (c.after calls).measureAll = .ok d ∧
        d.instructions.toList = (c.after calls).instructions.toList ++
          (List.range c.numQubits).map (fun q => .measure (.ofNat q)) ∧
        ∀ q < c.numQubits, (Qubit.ofNat q).index = q := by
  obtain ⟨hchecks, hafter⟩ := after_eq c calls
  have hwf := hc.wellFormed
  have hall := measureAll_eq_ok (c.after calls)
  have hplace := Call.inPlace_eq (c.after calls) .measureAll
  rw [Call.perform, hall] at hplace
  have hwidth : (c.after calls).numQubits = c.numQubits := by rw [hafter]; rfl
  have hvalid : ∀ i ∈ (c.after calls).instructions, i.check c.numQubits = .ok () := by
    intro i hi
    simp only [hafter, Array.mem_append, List.mem_toArray] at hi
    rcases hi with hi | hi
    · exact Instruction.check_eq_ok_iff.2 (hwf.instructions i hi)
    · exact hchecks i hi
  refine ⟨hwidth ▸ hwf.numQubits_pos, hwidth, fun i hi => ?_, ?_, _, hplace, hall, ?_, ?_⟩
  · have hi' := Instruction.check_eq_ok_iff.1 (hvalid i hi)
    rw [hwidth]
    exact ⟨hvalid i hi, hi'.inRange, hi'.distinct, hi'.finite⟩
  · rw [hafter]
    simp
  · simp [hwidth]
  · intro q hq
    exact Qubit.index_ofNat (Nat.lt_trans hq c.width.toNat_lt)

/-- Two calls that succeed and four that do not: a repeated operand, an operand out of range, an
angle that is not finite, and a fault in the second operand of three. -/
theorem history_invariant_of_pair :
    ∃ c : Circuit Float, c.Reachable ∧
      c.accepted [.two .cx (.ofNat 1) (.ofNat 1), .measureAll, .one .y (.ofNat 2),
        .rotation .x (1 / 0) (.ofNat 0), .cnot (.ofNat 1) (.ofNat 0),
        .three .ccx (.ofNat 0) (.ofNat 7) (.ofNat 1)] = [.measureAll, .cnot (.ofNat 1) (.ofNat 0)] ∧
      (c.after [.two .cx (.ofNat 1) (.ofNat 1), .measureAll, .one .y (.ofNat 2),
        .rotation .x (1 / 0) (.ofNat 0), .cnot (.ofNat 1) (.ofNat 0),
        .three .ccx (.ofNat 0) (.ofNat 7) (.ofNat 1)]).instructions.toList =
        [.one .h (.ofNat 0), .two .cx (.ofNat 0) (.ofNat 1), .measure (.ofNat 0),
          .measure (.ofNat 1), .two .cx (.ofNat 1) (.ofNat 0)] := by
  have hc := Reachable.bell bell_eq_ok
  obtain ⟨-, -, -, h, -⟩ := history_invariant hc [.two .cx (.ofNat 1) (.ofNat 1), .measureAll,
    .one .y (.ofNat 2), .rotation .x (1 / 0) (.ofNat 0), .cnot (.ofNat 1) (.ofNat 0),
    .three .ccx (.ofNat 0) (.ofNat 7) (.ofNat 1)]
  exact ⟨_, hc, rfl, h⟩

end Reachable

end Circuit

end Ket
