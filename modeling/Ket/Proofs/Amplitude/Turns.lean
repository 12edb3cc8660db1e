import Mathlib.Data.Fintype.Option
import Ket.Grid
import Ket.Proofs.Amplitude.Agreement

/-! Quarter turns. The entries of some matrices are zero or one of the four units, which are told by
a number of quarter turns. On binary64 negation gives the units -1 and -i a negative zero. A sum of
products that begins with zero loses every negative zero, so it ends in exactly one of five
amplitudes. All that this needs are the zeros and one with both signs. -/

namespace Ket

namespace Amplitude

section Turns

variable {F : Type} [Zero F] [One F] [Neg F]

/-- The unit after a number of quarter turns, as it stands in a matrix. -/
def unit : Fin 4 → Amplitude F
  | 0 => 1
  | 1 => i
  | 2 => -1
  | 3 => -i

/-- The phase after a number of quarter turns. None of its parts is a negative zero, which on
binary64 is not equal to zero. -/
def turned : Fin 4 → Amplitude F
  | 0 => ⟨1, 0⟩
  | 1 => ⟨0, 1⟩
  | 2 => ⟨-1, 0⟩
  | 3 => ⟨0, -1⟩

/-- A unit or zero. -/
def entry (turns : Option (Fin 4)) : Amplitude F := turns.elim 0 unit

/-- A phase or zero. -/
def settled (turns : Option (Fin 4)) : Amplitude F := turns.elim 0 turned

end Turns

example : (⟨-0, 0⟩ : Amplitude Float) ≠ 0 := by decide

theorem turned_ne_zero : ∀ t, (turned t : Amplitude Float) ≠ 0 := by decide

/-- The only numbers that are ever added, subtracted or multiplied. -/
def UnitOperand (x : Float) : Prop := x = 0 ∨ x = -0 ∨ x = 1 ∨ x = -1

instance : DecidablePred UnitOperand := fun x =>
  inferInstanceAs (Decidable (x = 0 ∨ x = -0 ∨ x = 1 ∨ x = -1))

theorem covered_entry_mul_zero : ∀ s m, Covered UnitOperand (settled s) (entry m) 0 := by decide

theorem covered_entry_mul_turned : ∀ m t, Covered UnitOperand 0 (entry m) (turned t) := by decide

variable {F : Type} [Zero F] [One F] [Add F] [Sub F] [Mul F] [Neg F]

/-- Numbers that behave like the zeros and one with both signs. -/
structure AgreesOnUnits (of : Float → F) : Prop extends AgreesOn UnitOperand of where
  neg_one : of (-1) = -1

theorem agreesOnUnits_id : AgreesOnUnits (id : Float → Float) := ⟨agreesOn_id _, rfl⟩

theorem agreesOnUnits_guarded :
    @AgreesOnUnits Float _ _ (guardedAdd UnitOperand) (guardedSub UnitOperand)
      (guardedMul UnitOperand) _ id :=
  @AgreesOnUnits.mk Float _ _ (guardedAdd UnitOperand) (guardedSub UnitOperand)
    (guardedMul UnitOperand) _ id (agreesOn_guarded _) rfl

namespace AgreesOnUnits

variable {of : Float → F} (h : AgreesOnUnits of)

include h

theorem lift_turned (t : Fin 4) : lift of (turned t) = turned t := by
  match t with
  | 0 => exact congrArg₂ Amplitude.mk h.one h.zero
  | 1 => exact congrArg₂ Amplitude.mk h.zero h.one
  | 2 => exact congrArg₂ Amplitude.mk h.neg_one h.zero
  | 3 => exact congrArg₂ Amplitude.mk h.zero h.neg_one

theorem lift_settled (s : Option (Fin 4)) : lift of (settled s) = settled s := by
  cases s with
  | none => exact h.lift_zero
  | some t => exact h.lift_turned t

theorem lift_entry (m : Option (Fin 4)) : lift of (entry m) = entry m := by
  match m with
  | none => exact h.lift_zero
  | some 0 => exact h.lift_one
  | some 1 => exact congrArg₂ Amplitude.mk h.zero h.one
  | some 2 => exact congrArg₂ Amplitude.mk h.neg_one h.neg_zero
  | some 3 => exact congrArg₂ Amplitude.mk h.neg_zero h.neg_one

theorem settled_add_entry_mul_zero (s m : Option (Fin 4)) :
    settled s + entry m * (0 : Amplitude F) = settled s := by
  have hfloat : ∀ s m, settled s + entry m * (0 : Amplitude Float) = settled s := by decide
  rw [← h.lift_settled, ← h.lift_entry, ← h.lift_zero, h.lift_addMul (covered_entry_mul_zero s m),
    hfloat]

theorem zero_add_entry_mul_turned (m : Option (Fin 4)) (t : Fin 4) :
    (0 : Amplitude F) + entry m * turned t = settled (m.map (· + t)) := by
  have hfloat : ∀ m t, (0 : Amplitude Float) + entry m * turned t = settled (m.map (· + t)) := by
    decide
  rw [← h.lift_zero, ← h.lift_entry, ← h.lift_turned, h.lift_addMul (covered_entry_mul_turned m t),
    hfloat, h.lift_settled]

/-- A row of such entries times a column that has a phase at place `r`, if `p` holds, and zeros
elsewhere. -/
theorem total_entry_mul_settled (m : Nat → Option (Fin 4)) (t : Fin 4) (p : Prop) [Decidable p]
    (r n : Nat) :
    Grid.total (fun c => entry (m c) * (settled (if p ∧ c = r then some t else none) :
        Amplitude F)) n =
      settled (if p ∧ r < n then (m r).map (· + t) else none) := by
  induction n with
  | zero => simp [Grid.total, settled]
  | succ n ih =>
    rw [Grid.total, ih]
    by_cases hplace : p ∧ n = r
    · obtain ⟨hp, rfl⟩ := hplace
      simp only [hp, true_and, Nat.lt_irrefl, Nat.lt_succ_self, if_true, if_false]
      exact h.zero_add_entry_mul_turned (m n) t
    · have hsame : p ∧ r < n + 1 ↔ p ∧ r < n := by grind
      simp only [if_neg hplace, hsame]
      exact h.settled_add_entry_mul_zero _ (m n)

end AgreesOnUnits

end Amplitude

end Ket
