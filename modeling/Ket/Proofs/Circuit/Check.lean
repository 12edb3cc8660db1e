import Ket.Instruction
import Ket.Proofs.Operands

/-! What the check of an instruction answers. There is one rule for each fault and one for an
instruction without any. The first operand at fault counts before the angle, and of its two possible
faults the range counts before the repetition. -/

namespace Ket.Instruction

variable {F : Type}

/-- An instruction is made of its gate, its operands in their order and its angle, if it has one. -/
theorem make?_eq_some_iff {g : Gate} {qs : List Qubit} {θ : F} {i : Instruction F} :
    make? g qs θ = some i ↔ i.gate = g ∧ i.qubits = qs ∧ ∀ x ∈ i.angle?, x = θ := by
  constructor
  · intro h
    unfold make? at h
    split at h <;> cases h <;> simp [gate, qubits, angle?]
  · rintro ⟨rfl, rfl, hθ⟩
    cases i with
    | rotation axis x q | pairRotation axis x a b =>
      obtain rfl := hθ x rfl
      rfl
    | _ => rfl

variable [Scalar F]

/-- The answers to the check for a register of the given width. -/
inductive Verdict (width : Nat) (i : Instruction F) : Except (CircuitError F) Unit → Prop
  | outOfRange {j : Nat} {q : Qubit} (h : FirstFaultAt (·.index < width) i.qubits j q)
      (hq : width ≤ q.index) : Verdict width i (.error (.operand i.gate q .outOfRange width))
  | repeated {j : Nat} {q : Qubit} (h : FirstFaultAt (·.index < width) i.qubits j q)
      (hq : q.index < width) : Verdict width i (.error (.operand i.gate q .repeated width))
  | angle {θ : F} (hr : ∀ q ∈ i.qubits, q.index < width) (hd : i.qubits.Nodup)
      (hθ : θ ∈ i.angle?) (hfin : Scalar.isFinite θ = false) :
      Verdict width i (.error (.angle ⟨i.gate, θ⟩))
  | accepted (h : i.WellFormed width) : Verdict width i (.ok ())

variable {width : Nat} {i : Instruction F}

omit [Scalar F] in
theorem firstFault?_eq_some_iff {q : Qubit} {fault : OperandFault} :
    i.firstFault? width = some (q, fault) ↔
      (∃ j, FirstFaultAt (·.index < width) i.qubits j q) ∧
        fault = if q.index < width then .repeated else .outOfRange :=
  Ket.firstFault?_eq_some_iff

/-- The answer of the check follows from the rules. -/
theorem verdict_check (width : Nat) (i : Instruction F) : i.Verdict width (i.check width) := by
  unfold check
  cases hf : i.firstFault? width with
  | some found =>
    obtain ⟨q, fault⟩ := found
    obtain ⟨⟨j, h⟩, rfl⟩ := firstFault?_eq_some_iff.1 hf
    by_cases hq : q.index < width
    · rw [if_pos hq]
      exact .repeated h hq
    · rw [if_neg hq]
      exact .outOfRange h (Nat.le_of_not_lt hq)
  | none =>
    obtain ⟨hr, hd⟩ := firstFault?_eq_none_iff.1 hf
    cases hθ : i.angle? with
    | none => exact .accepted ⟨hr, hd, fun θ h => by simp [hθ] at h⟩
    | some θ =>
      cases hfin : Scalar.isFinite θ with
      | false => simpa [hfin] using Verdict.angle hr hd hθ hfin
      | true =>
        have hx : ∀ x ∈ i.angle?, Scalar.isFinite x = true := by simpa [hθ] using hfin
        simpa [hfin] using Verdict.accepted ⟨hr, hd, hx⟩

/-- No other answer follows from them. -/
theorem Verdict.check_eq {r : Except (CircuitError F) Unit} (h : i.Verdict width r) :
    i.check width = r := by
  cases h with
  | outOfRange h hq =>
    have hf := firstFault?_eq_some_iff.2 ⟨⟨_, h⟩, (if_neg (Nat.not_lt.2 hq)).symm⟩
    rw [check, hf]
  | repeated h hq =>
    have hf := firstFault?_eq_some_iff.2 ⟨⟨_, h⟩, (if_pos hq).symm⟩
    rw [check, hf]
  | angle hr hd hθ hfin =>
    rw [check, firstFault?_eq_none_iff.2 ⟨hr, hd⟩, Option.mem_def.1 hθ]
    simp [hfin]
  | accepted h => exact check_eq_ok_iff.2 h

theorem WellFormed.mono (h : i.WellFormed width) {m : Nat} (hm : width ≤ m) : i.WellFormed m :=
  ⟨fun q hq => Nat.lt_of_lt_of_le (h.inRange q hq) hm, h.distinct, h.finite⟩

/-- An instruction passes the check exactly if its operands are distinct qubits of the register and
its angle is finite, and then it passes for every wider register. Otherwise the first fault in the
order of the rules is reported. -/
theorem check_verdict (width : Nat) (i : Instruction F) :
    (∀ g qs θ, make? g qs θ = some i ↔ i.gate = g ∧ i.qubits = qs ∧ ∀ x ∈ i.angle?, x = θ) ∧
      (i.check width = .ok () ↔ (∀ q ∈ i.qubits, q.index < width) ∧ i.qubits.Nodup ∧
        ∀ θ ∈ i.angle?, Scalar.isFinite θ = true) ∧
      (∀ r, i.check width = r ↔ i.Verdict width r) ∧
      ∀ m, width ≤ m → i.check width = .ok () → i.check m = .ok () := by
  refine ⟨fun g qs θ => make?_eq_some_iff, ?_, fun r => ⟨?_, Verdict.check_eq⟩, fun m hm h => ?_⟩
  · rw [check_eq_ok_iff]
    exact ⟨fun h => ⟨h.inRange, h.distinct, h.finite⟩, fun ⟨hr, hd, hfin⟩ => ⟨hr, hd, hfin⟩⟩
  · rintro rfl
    exact verdict_check width i
  · exact check_eq_ok_iff.2 ((check_eq_ok_iff.1 h).mono hm)

/-- Two faults in one instruction: a repetition before an operand out of range, a repeated operand
that is out of range, and a repetition beside an angle that is not a number. -/
theorem check_verdict_of_two_faults :
    (.three .ccx (.ofNat 1) (.ofNat 1) (.ofNat 9) : Instruction Float).Verdict 3
        (.error (.operand (.three .ccx) (.ofNat 1) .repeated 3)) ∧
      (.three .cswap (.ofNat 0) (.ofNat 9) (.ofNat 9) : Instruction Float).Verdict 3
        (.error (.operand (.three .cswap) (.ofNat 9) .outOfRange 3)) ∧
      (.pairRotation .x (0 / 0) (.ofNat 2) (.ofNat 2) : Instruction Float).Verdict 3
        (.error (.operand (.pairRotation .x) (.ofNat 2) .repeated 3)) ∧
      (.pairRotation .x (0 / 0) (.ofNat 2) (.ofNat 1) : Instruction Float).Verdict 3
        (.error (.angle ⟨.pairRotation .x, 0 / 0⟩)) ∧
      (.rotation .z 1 (.ofNat 2) : Instruction Float).check 3 = .ok () ∧
      (.rotation .z 1 (.ofNat 2) : Instruction Float).check 7 = .ok () := by
  obtain ⟨-, hok, -, hwider⟩ := check_verdict 3 (.rotation .z 1 (.ofNat 2) : Instruction Float)
  have haccepted := hok.2 ⟨by decide, by decide, by decide⟩
  exact ⟨((check_verdict _ _).2.2.1 _).1 rfl, ((check_verdict _ _).2.2.1 _).1 rfl,
    ((check_verdict _ _).2.2.1 _).1 rfl, ((check_verdict _ _).2.2.1 _).1 rfl, haccepted,
    hwider 7 (by decide) haccepted⟩

end Ket.Instruction
