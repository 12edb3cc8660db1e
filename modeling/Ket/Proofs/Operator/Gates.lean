import Mathlib.Algebra.Group.Nat.Defs
import Ket.Operator.Gates

/-! Every well formed instruction other than a measurement has an operator, and the operator acts
on as many qubits as the instruction has operands. -/

namespace Ket.Operator

/-- A well formed operator on the given number of qubits. -/
structure ActsOn {α : Type} (op : Operator α) (count : Nat) : Prop extends op.WellFormed where
  arity_eq : op.arity = count

section Matrices

variable {α : Type}

theorem actsOn_oneQubit (a b c d : α) : (oneQubit a b c d).ActsOn 1 where
  arity_pos := Nat.le_refl 1
  arity_le := Nat.le_add_right 1 2
  rows := rfl
  cols := rfl
  arity_eq := rfl

theorem actsOn_crossed [Zero α] (d₀ d₁ d₂ d₃ a₀ a₁ a₂ a₃ : α) :
    (crossed d₀ d₁ d₂ d₃ a₀ a₁ a₂ a₃).ActsOn 2 where
  arity_pos := Nat.le_add_left 1 1
  arity_le := Nat.le_succ 2
  rows := rfl
  cols := rfl
  arity_eq := rfl

theorem actsOn_exchange [Zero α] [One α] {count : Nat} (h₁ : 1 ≤ count) (h₃ : count ≤ 3)
    (a b : Nat) : (exchange count a b : Operator α).ActsOn count where
  arity_pos := h₁
  arity_le := h₃
  rows := rfl
  cols := rfl
  arity_eq := rfl

theorem ofGrid_eq_ok {count : Nat} (h₁ : 1 ≤ count) (h₃ : count ≤ 3) {g : Grid α}
    (hr : g.rows = 2 ^ count) (hc : g.cols = 2 ^ count) : ofGrid g = .ok ⟨count, g⟩ := by
  obtain rfl | rfl | rfl : count = 1 ∨ count = 2 ∨ count = 3 := by omega
  all_goals
    rw [ofGrid, hr, hc]
    rfl

theorem matrix_of_ofGrid {g : Grid α} {op : Operator α} (h : ofGrid g = .ok op) :
    op.matrix = g := by
  unfold ofGrid at h
  split at h
  case h_4 => cases h
  all_goals
    cases h
    rfl

theorem get_controlled [Zero α] [One α] {op op' : Operator α} (h : op.controlled = .ok op')
    {r c : Nat} (hr : r < 2 * op.dim) (hc : c < 2 * op.dim) :
    op'.matrix.get r c =
      if op.dim ≤ r ∧ op.dim ≤ c then op.matrix.get (r - op.dim) (c - op.dim)
      else if r = c then 1 else 0 := by
  rw [matrix_of_ofGrid h, Grid.get_ofFn hr hc]

/-- A control can be added as long as there is room for one more operand. -/
theorem exists_controlled [Zero α] [One α] {op : Operator α} (h : op.arity ≤ 2) :
    ∃ op', op.controlled = .ok op' ∧ op'.ActsOn (op.arity + 1) := by
  have hdim : 2 * op.dim = 2 ^ (op.arity + 1) := by rw [dim, Nat.one_shiftLeft, Nat.pow_succ']
  have hok := ofGrid_eq_ok (Nat.le_add_left 1 op.arity) (Nat.succ_le_succ h)
    (g := Grid.ofFn (2 * op.dim) (2 * op.dim) fun r c =>
      if op.dim ≤ r ∧ op.dim ≤ c then op.matrix.get (r - op.dim) (c - op.dim)
      else if r = c then 1 else 0) hdim hdim
  exact ⟨_, hok, ⟨wellFormed_of_ofGrid hok, rfl⟩⟩

end Matrices

variable {F : Type} [Zero F] [Neg F] [Scalar F]

theorem actsOn_rotation (axis : Axis) (θ : F) : (rotation axis θ).ActsOn 1 := by
  cases axis <;> exact actsOn_oneQubit _ _ _ _

theorem actsOn_pairRotation (axis : Axis) (θ : F) : (pairRotation axis θ).ActsOn 2 := by
  cases axis <;> exact actsOn_crossed _ _ _ _ _ _ _ _

variable [One F]

theorem actsOn_ofOneQubitGate (g : OneQubitGate) :
    (ofOneQubitGate g : Operator (Amplitude F)).ActsOn 1 := by
  cases g <;> exact actsOn_oneQubit _ _ _ _

theorem exists_ofTwoQubitGate (g : TwoQubitGate) :
    ∃ op : Operator (Amplitude F), ofTwoQubitGate g = .ok op ∧ op.ActsOn 2 := by
  cases g with
  | cx | swap => exact ⟨_, rfl, actsOn_exchange (Nat.le_succ 1) (Nat.le_succ 2) _ _⟩
  | cz => exact ⟨_, rfl, actsOn_crossed _ _ _ _ _ _ _ _⟩
  | cy =>
    have h : (pauliY : Operator (Amplitude F)).arity ≤ 2 := Nat.le_succ 1
    exact exists_controlled h
  | ch =>
    have h : (hadamard : Operator (Amplitude F)).arity ≤ 2 := Nat.le_succ 1
    exact exists_controlled h
  | cs =>
    have h : (phaseS : Operator (Amplitude F)).arity ≤ 2 := Nat.le_succ 1
    exact exists_controlled h

omit [Neg F] [Scalar F] in
theorem actsOn_ofThreeQubitGate (g : ThreeQubitGate) :
    (ofThreeQubitGate g : Operator (Amplitude F)).ActsOn 3 := by
  cases g <;> exact actsOn_exchange (Nat.le_add_left 1 2) (Nat.le_refl 3) _ _

theorem ofInstruction?_of_isMeasure {i : Instruction F} (hi : i.isMeasure = true) :
    ofInstruction? i = .ok none := by
  cases i with
  | measure q => rfl
  | _ => cases hi

/-- Neither a missing matrix nor a refused angle can come up once an instruction was checked. -/
theorem exists_ofInstruction? {width : Nat} {i : Instruction F} (hi : i.WellFormed width)
    (hm : i.isMeasure = false) :
    ∃ op, ofInstruction? i = .ok (some op) ∧ op.ActsOn i.qubits.length := by
  cases i with
  | one g q => exact ⟨_, rfl, actsOn_ofOneQubitGate g⟩
  | two g a b =>
    obtain ⟨op, hop, hacts⟩ := exists_ofTwoQubitGate (F := F) g
    exact ⟨op, by simp [ofInstruction?, ofGate?, Instruction.gate, hop], hacts⟩
  | three g a b c => exact ⟨_, rfl, actsOn_ofThreeQubitGate g⟩
  | rotation axis θ q =>
    have hfin : Scalar.isFinite θ = true := hi.finite θ rfl
    exact ⟨_, if_pos hfin, actsOn_rotation axis θ⟩
  | pairRotation axis θ a b =>
    have hfin : Scalar.isFinite θ = true := hi.finite θ rfl
    exact ⟨_, if_pos hfin, actsOn_pairRotation axis θ⟩
  | measure q => cases hm

end Ket.Operator
