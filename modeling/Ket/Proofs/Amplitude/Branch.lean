import Mathlib.Tactic.IntervalCases
import Ket.Operator.Gates
import Ket.Proofs.Amplitude.Agreement

/-! Arithmetic on five binary64 numbers: the zeros, one, and the square root of one half with both
signs. It is all that a Hadamard gate and exchanges need on a basis state, so any numbers that
behave like these five do as well. -/

namespace Ket

namespace Amplitude

/-- The square root of one half, or zero. -/
def branch {F : Type} [Zero F] [Scalar F] (b : Bool) : Amplitude F :=
  if b then ⟨Scalar.invSqrtTwo, 0⟩ else ⟨0, 0⟩

/-- The only numbers that are ever added, subtracted or multiplied. -/
def BranchOperand (x : Float) : Prop :=
  x = 0 ∨ x = -0 ∨ x = 1 ∨ x = Scalar.invSqrtTwo ∨ x = -Scalar.invSqrtTwo

instance : DecidablePred BranchOperand := fun x =>
  inferInstanceAs (Decidable (x = 0 ∨ x = -0 ∨ x = 1 ∨ x = Scalar.invSqrtTwo ∨
    x = -Scalar.invSqrtTwo))

theorem covered_one_mul : ∀ b, Covered BranchOperand 0 1 (branch b) := by decide

theorem covered_zero_mul : ∀ a b, Covered BranchOperand (branch a) 0 (branch b) := by decide

theorem covered_hadamard : ∀ r < 2, ∀ b : Bool,
    Covered BranchOperand 0 (Operator.hadamard.matrix.get r 0) (if b then 1 else 0) ∧
      Covered BranchOperand (0 + Operator.hadamard.matrix.get r 0 * if b then 1 else 0)
        (Operator.hadamard.matrix.get r 1) 0 := by
  decide

variable {F : Type} [Zero F] [One F] [Add F] [Sub F] [Mul F] [Neg F] [Scalar F]

/-- Numbers that behave like the zeros, one, and the square root of one half with both signs. -/
structure AgreesOnBranches (of : Float → F) : Prop extends AgreesOn BranchOperand of where
  root : of Scalar.invSqrtTwo = Scalar.invSqrtTwo
  neg_root : of (-Scalar.invSqrtTwo) = -Scalar.invSqrtTwo

theorem agreesOnBranches_id : AgreesOnBranches (id : Float → Float) := ⟨agreesOn_id _, rfl, rfl⟩

theorem agreesOnBranches_guarded :
    @AgreesOnBranches Float _ _ (guardedAdd BranchOperand) (guardedSub BranchOperand)
      (guardedMul BranchOperand) _ _ id :=
  @AgreesOnBranches.mk Float _ _ (guardedAdd BranchOperand) (guardedSub BranchOperand)
    (guardedMul BranchOperand) _ _ id (agreesOn_guarded _) rfl rfl

namespace AgreesOnBranches

variable {of : Float → F} (h : AgreesOnBranches of)

include h

theorem lift_branch (b : Bool) : lift of (branch b) = branch b := by
  cases b with
  | false => exact congrArg₂ Amplitude.mk h.zero h.zero
  | true => exact congrArg₂ Amplitude.mk h.root h.zero

theorem lift_hadamard {r c : Nat} (hr : r < 2) (hc : c < 2) :
    lift of (Operator.hadamard.matrix.get r c) = Operator.hadamard.matrix.get r c := by
  have hentry : lift of (ofReal Scalar.invSqrtTwo) = ofReal Scalar.invSqrtTwo :=
    congrArg₂ Amplitude.mk h.root h.zero
  have hneg : lift of (-ofReal Scalar.invSqrtTwo) = -ofReal Scalar.invSqrtTwo :=
    congrArg₂ Amplitude.mk h.neg_root h.neg_zero
  interval_cases r <;> interval_cases c <;> assumption

theorem zero_add_one_mul_branch (b : Bool) : (0 : Amplitude F) + 1 * branch b = branch b := by
  have hfloat : ∀ b, (0 : Amplitude Float) + 1 * branch b = branch b := by decide
  rw [← h.lift_zero, ← h.lift_one, ← h.lift_branch, h.lift_addMul (covered_one_mul b), hfloat]

theorem branch_add_zero_mul_branch (a b : Bool) :
    branch a + (0 : Amplitude F) * branch b = branch a := by
  have hfloat : ∀ a b, branch a + (0 : Amplitude Float) * branch b = branch a := by decide
  rw [← h.lift_zero, ← h.lift_branch, ← h.lift_branch, h.lift_addMul (covered_zero_mul a b),
    hfloat]

/-- A row of zeros with a one at place `r`. -/
theorem total_unit_mul_branch (p : Nat → Bool) (r n : Nat) :
    Grid.total (fun c => (if c = r then (1 : Amplitude F) else 0) * branch (p c)) n =
      branch (decide (r < n) && p r) := by
  induction n with
  | zero => rfl
  | succ n ih =>
    rw [Grid.total, ih]
    by_cases hr : n = r
    · subst hr
      simp only [Nat.lt_irrefl, decide_false, Bool.false_and, if_true, Nat.lt_succ_self,
        decide_true, Bool.true_and]
      exact h.zero_add_one_mul_branch (p n)
    · have hsame : r < n + 1 ↔ r < n := by omega
      simp only [if_neg hr, hsame]
      exact h.branch_add_zero_mul_branch _ _

/-- A row of the Hadamard gate times a column that is zero below its first entry. -/
theorem total_hadamard_mul {r : Nat} (hr : r < 2) (b : Bool) :
    Grid.total (fun c => Operator.hadamard.matrix.get r c *
      if b ∧ c = 0 then (1 : Amplitude F) else 0) 2 = branch b := by
  have hfloat : ∀ r < 2, ∀ b : Bool, 0 + Operator.hadamard.matrix.get r 0 * (if b then 1 else 0) +
      Operator.hadamard.matrix.get r 1 * 0 = (branch b : Amplitude Float) := by decide
  obtain ⟨hfirst, hsecond⟩ := covered_hadamard r hr b
  have hcolumn : lift of (if b then 1 else 0) = if b then 1 else 0 := by
    rw [apply_ite (lift of), h.lift_one, h.lift_zero]
  calc Grid.total (fun c => Operator.hadamard.matrix.get r c * if b ∧ c = 0 then 1 else 0) 2
      = 0 + Operator.hadamard.matrix.get r 0 * (if b then 1 else 0) +
          Operator.hadamard.matrix.get r 1 * 0 := by simp [Grid.total]
    _ = lift of (0 + Operator.hadamard.matrix.get r 0 * (if b then 1 else 0) +
          Operator.hadamard.matrix.get r 1 * 0) := by
        rw [← h.lift_addMul hsecond, ← h.lift_addMul hfirst, h.lift_hadamard hr Nat.zero_lt_two,
          h.lift_hadamard hr Nat.one_lt_two, hcolumn, h.lift_zero]
    _ = branch b := by rw [hfloat r hr b, h.lift_branch]

end AgreesOnBranches

end Amplitude

end Ket
