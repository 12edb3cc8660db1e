import Ket.Proofs.Application.Runs
import Ket.Proofs.Operator.Unitary
import Ket.Proofs.State.Inner

/-! Application of unitary operators. On each class the operator is the product of its matrix with
the amplitudes of the class, so the share of the class in an inner product stays the same. Every
index is in one class, so the inner product of the whole register stays the same as well. -/

namespace Ket

namespace Support

variable {s : Support} {m length : Nat}

theorem runClasses_zero (s : Support) (length : Nat) :
    s.runClasses 0 length = s.representatives length :=
  List.filter_eq_self.2 fun rep _ => by simp [Nat.mod_one]

/-- The classes are a partition of the indices. -/
theorem perm_flatMap_members (hd : s.positions.Nodup) (hm : ∀ p ∈ s.positions, p < m)
    (hlen : 2 ^ m ∣ length) :
    ((s.representatives length).flatMap s.members).Perm (List.range length) := by
  have hone : 2 ^ 0 * length = length := Nat.one_mul length
  have hsort := mergeSort_starts hd (fun p _ => Nat.zero_le p) hm (hone.symm ▸ hlen)
  rw [hone, runClasses_zero] at hsort
  rw [← hsort]
  refine (List.mergeSort_perm _ _).trans (List.Perm.of_eq ?_)
  simp

end Support

namespace Operator

variable {F : Type} [CommRing F]

open Matrix

/-- The amplitudes of a class, in the order of the rows. -/
def classVector (s : Support) (rep : Nat) (a : Array (Amplitude F)) :
    Fin (2 ^ s.count) → Amplitude F :=
  fun b => a.getD (rep ||| Support.deposit s.positions b) 0

theorem overlap_members (s : Support) (rep : Nat) (a b : Array (Amplitude F)) :
    Register.overlap (s.members rep) a b = star (classVector s rep a) ⬝ᵥ classVector s rep b := by
  rw [Register.overlap, Support.members_eq, List.map_map, dotProduct]
  exact Finset.sum_range _

variable {op : Operator (Amplitude F)} {s : Support} {m : Nat} {a b : Array (Amplitude F)}

theorem entry_eq_mulVec (h : op.Fits s) {rep : Nat} (hrep : s.clear rep = rep)
    (r : Fin (2 ^ s.count)) :
    op.entry s a (rep ||| Support.deposit s.positions r) =
      (op.toMatrix (2 ^ s.count) *ᵥ classVector s rep a) r := by
  rw [entry, Grid.total_eq_sum, h.cols, Finset.sum_range,
    Support.localIndex_or_deposit h.distinct hrep r.isLt, Support.clear_or_deposit, hrep]
  rfl

theorem classVector_applySequentially (h : op.Fits s) (hm : ∀ p ∈ s.positions, p < m)
    (ha : 2 ^ m ∣ a.size) {rep : Nat} (hrep : rep ∈ s.representatives a.size) :
    classVector s rep (op.applySequentially s a) =
      op.toMatrix (2 ^ s.count) *ᵥ classVector s rep a := by
  obtain ⟨hlt, hclear⟩ := (Support.mem_representatives_iff h.distinct hm ha).1 hrep
  funext r
  have hr := Support.or_lt_of_dvd ha hlt (Support.deposit_lt hm r)
  rw [← entry_eq_mulVec h hclear, classVector, Array.getD_eq_getD_getElem?,
    getElem?_applySequentially h hm ha, Array.getElem?_eq_getElem hr]
  rfl

/-- The adjoint of the matrix cancels the matrix between the two vectors. -/
theorem overlap_members_applySequentially (h : op.Fits s) (hu : op.Unitary)
    (hm : ∀ p ∈ s.positions, p < m) (ha : 2 ^ m ∣ a.size) (hab : b.size = a.size) {rep : Nat}
    (hrep : rep ∈ s.representatives a.size) :
    Register.overlap (s.members rep) (op.applySequentially s a) (op.applySequentially s b) =
      Register.overlap (s.members rep) a b := by
  rw [overlap_members, overlap_members, classVector_applySequentially h hm ha hrep,
    classVector_applySequentially h hm (hab ▸ ha) (hab ▸ hrep)]
  generalize classVector s rep a = v
  generalize classVector s rep b = w
  calc star (op.toMatrix (2 ^ s.count) *ᵥ v) ⬝ᵥ op.toMatrix (2 ^ s.count) *ᵥ w
      = star v ⬝ᵥ ((op.toMatrix (2 ^ s.count))ᴴ * op.toMatrix (2 ^ s.count)) *ᵥ w := by
        rw [star_mulVec, ← dotProduct_mulVec, mulVec_mulVec]
    _ = star v ⬝ᵥ w := by rw [hu.adjoint_mul h.rows h.cols, one_mulVec]

theorem overlap_range_applySequentially (h : op.Fits s) (hu : op.Unitary)
    (hm : ∀ p ∈ s.positions, p < m) (ha : 2 ^ m ∣ a.size) (hab : b.size = a.size) :
    Register.overlap (List.range a.size) (op.applySequentially s a) (op.applySequentially s b) =
      Register.overlap (List.range a.size) a b := by
  have hperm := Support.perm_flatMap_members h.distinct hm ha
  rw [← Register.overlap_perm hperm, ← Register.overlap_perm hperm, Register.overlap_flatMap,
    Register.overlap_flatMap]
  refine congrArg List.sum (List.map_congr_left fun rep hrep => ?_)
  exact overlap_members_applySequentially h hu hm ha hab hrep

end Operator

end Ket
