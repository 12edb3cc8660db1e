import Ket.Circuit.Builder
import Ket.Json.Document

/-! Circuits that can come up: ready-made or read from a text, and then extended by any calls of the
operations on circuits. Each of these ways appends a list of instructions, so all such circuits are
well formed. -/

namespace Ket

theorem bind_eq_ok_iff {ε α β : Type} {x : Except ε α} {f : α → Except ε β} {b : β} :
    x >>= f = .ok b ↔ ∃ a, x = .ok a ∧ f a = .ok b := by
  cases x with
  | error e =>
    refine ⟨fun h => ?_, fun ⟨_, h, _⟩ => ?_⟩ <;> cases h
  | ok a =>
    refine ⟨fun h => ⟨a, rfl, h⟩, fun ⟨_, h, hf⟩ => ?_⟩
    cases h
    exact hf

namespace Circuit

variable {F : Type}

/-- A call of an operation that extends a circuit. -/
inductive Call (F : Type)
  | append (i : Instruction F)
  | one (g : OneQubitGate) (q : Qubit)
  | two (g : TwoQubitGate) (a b : Qubit)
  | cnot (control target : Qubit)
  | three (g : ThreeQubitGate) (a b c : Qubit)
  | rotation (axis : Axis) (θ : F) (q : Qubit)
  | pairRotation (axis : Axis) (θ : F) (a b : Qubit)
  | measure (q : Qubit)
  | measureAll

namespace Call

def perform [Scalar F] (c : Circuit F) : Call F → Except (CircuitError F) (Circuit F)
  | append i => c.append i
  | one .i q => c.i q
  | one .h q => c.h q
  | one .x q => c.x q
  | one .y q => c.y q
  | one .z q => c.z q
  | one .s q => c.s q
  | one .t q => c.t q
  | two .cx a b => c.cx a b
  | two .cz a b => c.cz a b
  | two .swap a b => c.swap a b
  | two .cy a b => c.cy a b
  | two .ch a b => c.ch a b
  | two .cs a b => c.cs a b
  | cnot control target => c.cnot control target
  | three .ccx a b t => c.ccx a b t
  | three .cswap a b t => c.cswap a b t
  | rotation .x θ q => c.rx θ q
  | rotation .y θ q => c.ry θ q
  | rotation .z θ q => c.rz θ q
  | pairRotation .x θ a b => c.rxx θ a b
  | pairRotation .y θ a b => c.ryy θ a b
  | pairRotation .z θ a b => c.rzz θ a b
  | measure q => c.measure q
  | measureAll => c.measureAll

/-- What a call appends to a circuit on the given number of qubits. -/
def instructions (width : Nat) : Call F → List (Instruction F)
  | append i => [i]
  | one g q => [.one g q]
  | two g a b => [.two g a b]
  | cnot control target => [.two .cx control target]
  | three g a b c => [.three g a b c]
  | rotation axis θ q => [.rotation axis θ q]
  | pairRotation axis θ a b => [.pairRotation axis θ a b]
  | measure q => [.measure q]
  | measureAll => (List.range width).map fun q => .measure (.ofNat q)

end Call

/-- Besides JSON text, a circuit may be converted from a width and a list of instructions that were
read in any other way. -/
inductive Reachable : Circuit Float → Prop
  | empty {width : UInt32} {c : Circuit Float} (h : empty width = .ok c) : Reachable c
  | bell {c : Circuit Float} (h : bell = .ok c) : Reachable c
  | ghz {n : UInt32} {c : Circuit Float} (h : ghz n = .ok c) : Reachable c
  | read {text : String} {c : Circuit Float} (h : Json.circuit text = .ok c) : Reachable c
  | converted {width : UInt32} {is : List (Instruction Float)} {c : Circuit Float}
      (h : ofInstructions width is = .ok c) : Reachable c
  | call {c d : Circuit Float} (hc : Reachable c) (call : Call Float)
      (h : call.perform c = .ok d) : Reachable d

variable [Scalar F]

theorem appendAll_singleton (c : Circuit F) (i : Instruction F) : c.appendAll [i] = c.append i := by
  rw [appendAll, List.foldlM_cons]
  exact bind_pure _

theorem appendAll_cons (c : Circuit F) (i : Instruction F) (is : List (Instruction F)) :
    c.appendAll (i :: is) = c.append i >>= fun d => d.appendAll is :=
  List.foldlM_cons

theorem measureAll_eq (c : Circuit F) :
    c.measureAll = c.appendAll ((List.range c.numQubits).map fun q => .measure (.ofNat q)) := by
  rw [appendAll, List.foldlM_map]
  rfl

theorem bell_eq : (bell : Except (CircuitError F) (Circuit F)) =
    ofInstructions 2 [.one .h (.ofNat 0), .two .cx (.ofNat 0) (.ofNat 1)] := by
  simp only [bell, ofInstructions, appendAll_cons]
  rfl

theorem bell_eq_ok : (bell : Except (CircuitError F) (Circuit F)) =
    .ok ⟨2, #[.one .h (.ofNat 0), .two .cx (.ofNat 0) (.ofNat 1)]⟩ := rfl

theorem ghz_eq (n : UInt32) : (ghz n : Except (CircuitError F) (Circuit F)) =
    ofInstructions n (.one .h (.ofNat 0) ::
      (List.range (n.toNat - 1)).map fun k => .two .cx (.ofNat k) (.ofNat (k + 1))) := by
  simp only [ghz, ofInstructions, appendAll, List.foldlM_cons, List.foldlM_map]
  rfl

theorem Call.perform_eq (c : Circuit F) (call : Call F) :
    call.perform c = c.appendAll (call.instructions c.numQubits) := by
  cases call with
  | append i => exact (appendAll_singleton c i).symm
  | measureAll => exact measureAll_eq c
  | one g q => cases g <;> exact (appendAll_singleton c _).symm
  | two g a b => cases g <;> exact (appendAll_singleton c _).symm
  | cnot control target => exact (appendAll_singleton c _).symm
  | three g a b t => cases g <;> exact (appendAll_singleton c _).symm
  | rotation axis θ q => cases axis <;> exact (appendAll_singleton c _).symm
  | pairRotation axis θ a b => cases axis <;> exact (appendAll_singleton c _).symm
  | measure q => exact (appendAll_singleton c _).symm

theorem WellFormed.appendAll {is : List (Instruction F)} {c d : Circuit F} (hc : c.WellFormed)
    (h : c.appendAll is = .ok d) : d.WellFormed := by
  induction is generalizing c with
  | nil =>
    cases h
    exact hc
  | cons i is ih =>
    rw [appendAll_cons, bind_eq_ok_iff] at h
    obtain ⟨c', hi, h⟩ := h
    exact ih (hc.append hi) h

theorem append_eq_ok_iff {c d : Circuit F} {i : Instruction F} :
    c.append i = .ok d ↔
      i.check c.numQubits = .ok () ∧ d = { c with instructions := c.instructions.push i } := by
  rw [append]
  split
  · simp [*]
  · simp [*, eq_comm]

/-- All of the instructions must pass, and then all of them are appended. -/
theorem appendAll_eq_ok_iff {is : List (Instruction F)} {c d : Circuit F} :
    c.appendAll is = .ok d ↔
      (∀ i ∈ is, i.check c.numQubits = .ok ()) ∧
        d = { c with instructions := c.instructions ++ is.toArray } := by
  induction is generalizing c with
  | nil => simp [appendAll, pure, Except.pure, eq_comm]
  | cons i is ih =>
    rw [appendAll_cons, bind_eq_ok_iff, List.forall_mem_cons, and_assoc]
    refine ⟨?_, ?_⟩
    · rintro ⟨c', hi, h⟩
      obtain ⟨hcheck, rfl⟩ := append_eq_ok_iff.1 hi
      obtain ⟨his, rfl⟩ := ih.1 h
      exact ⟨hcheck, his, by simp⟩
    · rintro ⟨hcheck, his, rfl⟩
      exact ⟨_, append_eq_ok_iff.2 ⟨hcheck, rfl⟩, ih.2 ⟨his, by simp⟩⟩

/-- Appending stops at the first instruction that is refused. -/
theorem appendAll_eq_error_iff {is : List (Instruction F)} {c : Circuit F} {e : CircuitError F} :
    c.appendAll is = .error e ↔ ∃ before i after d,
      is = before ++ i :: after ∧ c.appendAll before = .ok d ∧ d.append i = .error e := by
  induction is generalizing c with
  | nil => simp [appendAll, pure, Except.pure]
  | cons i is ih =>
    rw [appendAll_cons]
    refine ⟨fun h => ?_, ?_⟩
    · cases hi : c.append i with
      | error e' =>
        rw [hi] at h
        cases h
        exact ⟨[], i, is, c, rfl, rfl, hi⟩
      | ok c' =>
        rw [hi] at h
        obtain ⟨before, j, after, d, rfl, hd, hj⟩ := ih.1 h
        refine ⟨i :: before, j, after, d, rfl, ?_, hj⟩
        rw [appendAll_cons, hi]
        exact hd
    · rintro ⟨before, j, after, d, his, hd, hj⟩
      cases before with
      | nil =>
        cases his
        cases hd
        rw [hj]
        rfl
      | cons _ before =>
        cases his
        rw [appendAll_cons, bind_eq_ok_iff] at hd
        obtain ⟨c', hi, hd⟩ := hd
        rw [hi]
        exact ih.2 ⟨before, j, after, d, rfl, hd, hj⟩

theorem ofInstructions_eq_error_iff {width : UInt32} {is : List (Instruction F)}
    {e : CircuitError F} :
    ofInstructions width is = .error e ↔
      (width = 0 ∧ e = .noQubits) ∨ ∃ before i after d, is = before ++ i :: after ∧
        ofInstructions width before = .ok d ∧ d.append i = .error e := by
  by_cases hw : width = 0
  · subst hw
    have hempty (is : List (Instruction F)) : ofInstructions 0 is = .error .noQubits := rfl
    simp [hempty, eq_comm]
  · have hempty (is : List (Instruction F)) :
        ofInstructions width is = (⟨width, #[]⟩ : Circuit F).appendAll is := by
      rw [ofInstructions, empty, if_neg hw]
      rfl
    simp only [hempty, hw, false_and, false_or, appendAll_eq_error_iff]

theorem WellFormed.ofInstructions_eq {c : Circuit F} (hc : c.WellFormed) :
    ofInstructions c.width c.instructions.toList = .ok c := by
  have hwidth : c.width ≠ 0 := fun h => Nat.ne_of_gt hc.numQubits_pos (UInt32.toNat_inj.2 h)
  have hcheck : ∀ i ∈ c.instructions.toList, i.check c.numQubits = .ok () := fun i hi =>
    Instruction.check_eq_ok_iff.2 (hc.instructions i (Array.mem_toList_iff.1 hi))
  rw [ofInstructions, empty, if_neg hwidth]
  exact appendAll_eq_ok_iff.2 ⟨hcheck, by simp⟩

theorem wellFormed_of_ofInstructions {width : UInt32} {is : List (Instruction F)} {c : Circuit F}
    (h : ofInstructions width is = .ok c) : c.WellFormed := by
  rw [ofInstructions, bind_eq_ok_iff] at h
  obtain ⟨c₀, he, h⟩ := h
  exact (wellFormed_of_empty he).appendAll h

omit [Scalar F]

/-- A text that is read in full was converted from what it says. -/
theorem exists_ofInstructions_of_read {text : String} {c : Circuit Float}
    (h : Json.circuit text = .ok c) : ∃ width is, ofInstructions width is = .ok c := by
  unfold Json.circuit at h
  split at h
  · cases h
  · rename_i width is rest _
    split at h
    · cases h
    · rename_i c' hc
      split at h
      · cases h
      · cases h
        exact ⟨width, is, hc⟩

/-- No way to make a circuit gets around the checks. -/
theorem Reachable.wellFormed {c : Circuit Float} (hc : Reachable c) : c.WellFormed := by
  induction hc with
  | empty h => exact wellFormed_of_empty h
  | bell h => exact wellFormed_of_ofInstructions (bell_eq.symm.trans h)
  | ghz h => exact wellFormed_of_ofInstructions ((ghz_eq _).symm.trans h)
  | read h =>
    obtain ⟨width, is, hc⟩ := exists_ofInstructions_of_read h
    exact wellFormed_of_ofInstructions hc
  | converted h => exact wellFormed_of_ofInstructions h
  | call _ _ h ih => exact ih.appendAll ((Call.perform_eq _ _).symm.trans h)

end Circuit

end Ket
