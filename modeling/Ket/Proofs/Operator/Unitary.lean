import Mathlib.LinearAlgebra.UnitaryGroup
import Ket.Proofs.Amplitude.Ring
import Ket.Proofs.Operator.Embedding
import Ket.Proofs.Operator.Gates

/-! Unitary operators over exact scalars: the product with the adjoint is the identity, with no
tolerance. Over a commutative ring a one-sided inverse of a square matrix is two-sided, so the
adjoint times the operator is the identity as well. -/

namespace Ket

namespace Grid

variable {α β : Type} [Zero α] [Zero β]

theorem get_map (f : α → β) (g : Grid α) {r c : Nat} (hr : r < g.rows) (hc : c < g.cols) :
    (g.map f).get r c = f (g.get r c) := by
  have hk : r * g.cols + c < g.entries.size := by
    rw [g.size_entries]
    calc r * g.cols + c < r * g.cols + g.cols := by omega
      _ = (r + 1) * g.cols := by rw [Nat.succ_mul]
      _ ≤ g.rows * g.cols := Nat.mul_le_mul_right _ hr
  simp [get, map, hr, hc, Array.getD, hk]

theorem get_transpose (g : Grid α) {r c : Nat} (hr : r < g.cols) (hc : c < g.rows) :
    g.transpose.get r c = g.get c r := get_ofFn hr hc

omit [Zero β] in
theorem get_mulWith (addMul : α → α → α → α) (g h : Grid α) {r c : Nat} (hr : r < g.rows)
    (hc : c < h.cols) : (mulWith addMul g h).get r c =
      (List.range g.cols).foldl (fun sum k => addMul sum (g.get r k) (h.get k c)) 0 :=
  get_ofFn hr hc

end Grid

namespace Operator

variable {F : Type} [CommRing F]

/-- The product with the adjoint is the identity. -/
def Unitary (op : Operator (Amplitude F)) : Prop :=
  ∀ r < op.gram.rows, ∀ c < op.gram.cols, op.gram.get r c = if r = c then 1 else 0

def toMatrix (op : Operator (Amplitude F)) (n : Nat) : Matrix (Fin n) (Fin n) (Amplitude F) :=
  Matrix.of fun r c => op.matrix.get r c

variable {op : Operator (Amplitude F)} {n : Nat}

theorem get_gram (hrows : op.matrix.rows = n) (hcols : op.matrix.cols = n) {r c : Nat}
    (hr : r < n) (hc : c < n) :
    op.gram.get r c = ∑ k ∈ Finset.range n, op.matrix.get r k * star (op.matrix.get c k) := by
  have hr' : r < op.matrix.rows := hrows.symm ▸ hr
  have hc' : c < op.matrix.rows := hrows.symm ▸ hc
  rw [gram, Grid.get_mulWith _ _ _ hr' hc']
  simp only [Amplitude.addMul_eq]
  rw [← Grid.total_eq_foldl, Grid.total_eq_sum, hcols]
  refine Finset.sum_congr rfl fun k hk => ?_
  have hk' : k < op.matrix.cols := hcols.symm ▸ Finset.mem_range.1 hk
  rw [adjoint, Grid.get_map Amplitude.conj op.matrix.transpose hk' hc',
    Grid.get_transpose op.matrix hk' hc', Amplitude.star_def]

theorem unitary_iff (hrows : op.matrix.rows = n) (hcols : op.matrix.cols = n) :
    op.Unitary ↔ ∀ r < n, ∀ c < n,
      ∑ k ∈ Finset.range n, op.matrix.get r k * star (op.matrix.get c k) =
        if r = c then 1 else 0 := by
  have hr : op.gram.rows = n := hrows
  have hc : op.gram.cols = n := hrows
  rw [Unitary, hr, hc]
  refine forall₂_congr fun r hr => forall₂_congr fun c hc => ?_
  rw [get_gram hrows hcols hr hc]

theorem unitary_iff_mem (hrows : op.matrix.rows = n) (hcols : op.matrix.cols = n) :
    op.Unitary ↔ op.toMatrix n ∈ Matrix.unitaryGroup (Fin n) (Amplitude F) := by
  rw [unitary_iff hrows hcols, Matrix.mem_unitaryGroup_iff, ← Matrix.ext_iff, Fin.forall_iff]
  refine forall₂_congr fun r hr => ?_
  rw [Fin.forall_iff]
  refine forall₂_congr fun c hc => ?_
  rw [Matrix.mul_apply, Finset.sum_range, Matrix.one_apply]
  simp [toMatrix, Matrix.star_apply]

/-- The other order of the factors. -/
theorem Unitary.adjoint_mul (hu : op.Unitary) (hrows : op.matrix.rows = n)
    (hcols : op.matrix.cols = n) : (op.toMatrix n).conjTranspose * op.toMatrix n = 1 :=
  Matrix.mem_unitaryGroup_iff'.1 ((unitary_iff_mem hrows hcols).1 hu)

end Operator

end Ket
