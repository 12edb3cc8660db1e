import Ket.Proofs.Operator.Monomial
import Ket.Proofs.Operator.Unitary

/-! Products of operators on the same qubits. The neighbours of an index are neighbours of each
other, each for its own row, so what two applications sum over is what the product of the matrices
sums over. -/

namespace Ket

/-- Arrays of one size are known by their entries. -/
theorem ext_getD {α : Type} [Zero α] {a b : Array α} {n : Nat} (ha : a.size = n) (hb : b.size = n)
    (h : ∀ i < n, a.getD i 0 = b.getD i 0) : a = b := by
  refine Array.ext (ha.trans hb.symm) fun i hi hi' => ?_
  have hget := h i (ha ▸ hi)
  rwa [← Array.getElem_eq_getD (h := hi), ← Array.getElem_eq_getD (h := hi')] at hget

namespace Grid

variable {α : Type}

def identity [Zero α] [One α] (n : Nat) : Grid α := ofFn n n fun r c => if r = c then 1 else 0

/-- Tables of one shape are known by their entries. -/
theorem ext_get [Zero α] {g h : Grid α} (hrows : g.rows = h.rows) (hcols : g.cols = h.cols)
    (hget : ∀ r < g.rows, ∀ c < g.cols, g.get r c = h.get r c) : g = h := by
  obtain ⟨rows, cols, entries, hsize⟩ := g
  obtain ⟨rows', cols', entries', hsize'⟩ := h
  obtain rfl : rows = rows' := hrows
  obtain rfl : cols = cols' := hcols
  obtain rfl : entries = entries' := by
    refine ext_getD hsize hsize' fun k hk => ?_
    have hcols : 0 < cols := Nat.pos_of_mul_pos_left (Nat.zero_lt_of_lt hk)
    have hr : k / cols < rows := Nat.div_lt_of_lt_mul (Nat.mul_comm rows cols ▸ hk)
    have hc : k % cols < cols := Nat.mod_lt k hcols
    have hk := hget _ hr _ hc
    rwa [get, get, if_pos ⟨hr, hc⟩, if_pos ⟨hr, hc⟩, Nat.mul_comm, Nat.div_add_mod] at hk
  rfl

theorem get_mul [CommSemiring α] (g h : Grid α) {r c : Nat} (hr : r < g.rows) (hc : c < h.cols) :
    (g.mul h).get r c = ∑ k ∈ Finset.range g.cols, g.get r k * h.get k c := by
  rw [mul, get_mulWith _ _ _ hr hc, ← total_eq_foldl, total_eq_sum]

end Grid

theorem Register.neighbour_neighbour (width : Nat) (qubits : List Nat) (i c d : Nat) :
    neighbour width qubits (neighbour width qubits i c) d = neighbour width qubits i d := by
  refine eq_of_value (neighbour_lt _ _ _ _) (neighbour_lt _ _ _ _) fun q hq => ?_
  simp only [value_neighbour hq]
  split <;> rfl

namespace Operator

variable {α : Type}

theorem dim_eq (op : Operator α) : op.dim = 2 ^ op.arity := Nat.one_shiftLeft _

/-- The product of the matrices, which applies the second factor first. -/
def mul [Zero α] [Add α] [Mul α] (op₂ op₁ : Operator α) : Operator α :=
  ⟨op₂.arity, op₂.matrix.mul op₁.matrix⟩

def identityOn [Zero α] [One α] (count : Nat) : Operator α := ⟨count, .identity (2 ^ count)⟩

section Shape

variable {op op₁ op₂ : Operator α}

theorem WellFormed.rows_eq (hop : op.WellFormed) : op.matrix.rows = 2 ^ op.arity :=
  hop.rows.trans op.dim_eq

theorem WellFormed.cols_eq (hop : op.WellFormed) : op.matrix.cols = 2 ^ op.arity :=
  hop.cols.trans op.dim_eq

theorem WellFormed.ofGrid_eq (hop : op.WellFormed) : ofGrid op.matrix = .ok op :=
  ofGrid_eq_ok hop.arity_pos hop.arity_le hop.rows_eq hop.cols_eq

theorem WellFormed.mul [Zero α] [Add α] [Mul α] (h₂ : op₂.WellFormed) (h₁ : op₁.WellFormed)
    (h : op₁.arity = op₂.arity) : (op₂.mul op₁).WellFormed where
  arity_pos := h₂.arity_pos
  arity_le := h₂.arity_le
  rows := h₂.rows
  cols := h₁.cols.trans (congrArg (1 <<< ·) h)

theorem wellFormed_identityOn [Zero α] [One α] {count : Nat} (h₁ : 1 ≤ count) (h₃ : count ≤ 3) :
    (identityOn count : Operator α).WellFormed where
  arity_pos := h₁
  arity_le := h₃
  rows := (Nat.one_shiftLeft count).symm
  cols := (Nat.one_shiftLeft count).symm

theorem Addresses.congr {width : Nat} {qubits : List Nat} (hq : op₁.Addresses width qubits)
    (h : op₁.arity = op₂.arity) : op₂.Addresses width qubits :=
  ⟨hq.length.trans h, hq.distinct, hq.inRange⟩

end Shape

section Embedded

variable [CommSemiring α] {op₁ op₂ : Operator α} {width : Nat} {qubits : List Nat}

/-- An amplitude after two applications at the same qubits. The row of a neighbour is the column
that it belongs to. -/
theorem getD_embed_embed_same (hq₂ : op₂.Addresses width qubits) (a : Array α) {i : Nat}
    (hi : i < 2 ^ width) :
    (op₂.embed width qubits (op₁.embed width qubits a)).getD i 0 =
      ∑ c₂ ∈ Finset.range (2 ^ op₂.arity), ∑ c₁ ∈ Finset.range (2 ^ op₁.arity),
        op₂.matrix.get (Register.row width qubits i) c₂ *
          (op₁.matrix.get c₂ c₁ * a.getD (Register.neighbour width qubits i c₁) 0) := by
  rw [getD_embed_eq_sum _ _ _ hi]
  refine Finset.sum_congr rfl fun c₂ hc₂ => ?_
  have hlt : c₂ < 2 ^ qubits.length := by rwa [hq₂.length, ← Finset.mem_range]
  rw [getD_embed_eq_sum _ _ _ (Register.neighbour_lt _ _ _ _), Finset.mul_sum,
    Register.row_neighbour hq₂.distinct hq₂.inRange hi hlt]
  simp only [Register.neighbour_neighbour]

/-- Two applications at the same qubits are the application of the product. -/
theorem embed_mul (h₂ : op₂.WellFormed) (h₁ : op₁.WellFormed) (hq₂ : op₂.Addresses width qubits)
    (hq₁ : op₁.Addresses width qubits) (a : Array α) :
    (op₂.mul op₁).embed width qubits a = op₂.embed width qubits (op₁.embed width qubits a) := by
  have harity : op₁.arity = op₂.arity := hq₁.length.symm.trans hq₂.length
  refine ext_getD (size_embed _ _ _ _) (size_embed _ _ _ _) fun i hi => ?_
  have hrow : Register.row width qubits i < op₂.matrix.rows := by
    rw [h₂.rows_eq, ← hq₂.length]
    exact Register.row_lt width qubits i
  rw [getD_embed_eq_sum _ _ _ hi, getD_embed_embed_same hq₂ a hi, Finset.sum_comm, harity]
  refine Finset.sum_congr rfl fun c₁ hc₁ => ?_
  have hcol : c₁ < op₁.matrix.cols := by rwa [h₁.cols_eq, harity, ← Finset.mem_range]
  rw [mul, Grid.get_mul _ _ hrow hcol, h₂.cols_eq, Finset.sum_mul]
  simp only [mul_assoc]

/-- Of the neighbours of an index the one for its own row is the index itself. -/
theorem embed_identityOn {count : Nat}
    (hq : (identityOn count : Operator α).Addresses width qubits) {a : Array α}
    (ha : a.size = 2 ^ width) : (identityOn count).embed width qubits a = a := by
  refine ext_getD (size_embed _ _ _ _) ha fun i hi => ?_
  have hlength : qubits.length = count := hq.length
  have hrow : Register.row width qubits i < 2 ^ count := hlength ▸ Register.row_lt width qubits i
  have hget (c : Nat) (hc : c < 2 ^ count) :
      (identityOn count : Operator α).matrix.get (Register.row width qubits i) c =
        if Register.row width qubits i = c then 1 else 0 := Grid.get_ofFn hrow hc
  refine (getD_embed_eq_sum _ _ _ hi).trans ?_
  refine (Finset.sum_eq_single_of_mem _ (Finset.mem_range.2 hrow) fun c hc hne => ?_).trans ?_
  · rw [hget c (Finset.mem_range.1 hc), if_neg hne.symm, zero_mul]
  · rw [hget _ hrow, if_pos rfl, one_mul, Register.neighbour_row hq.distinct hq.inRange hi]

end Embedded

section Matrices

variable {F : Type} [CommRing F] {op op₁ op₂ : Operator (Amplitude F)} {n : Nat}

theorem toMatrix_mul (hrows : op₂.matrix.rows = n) (hcols : op₂.matrix.cols = n)
    (hcols₁ : op₁.matrix.cols = n) :
    (op₂.mul op₁).toMatrix n = op₂.toMatrix n * op₁.toMatrix n := by
  refine Matrix.ext fun r c => ?_
  have hget := Grid.get_mul op₂.matrix op₁.matrix (r := r) (c := c) (hrows ▸ r.isLt)
    (hcols₁ ▸ c.isLt)
  rw [hcols, Finset.sum_range] at hget
  rw [Matrix.mul_apply]
  exact hget

theorem toMatrix_adjoint (hrows : op.matrix.rows = n) (hcols : op.matrix.cols = n) :
    op.adjoint.toMatrix n = (op.toMatrix n).conjTranspose := by
  refine Matrix.ext fun r c => ?_
  have hr : r.val < op.matrix.cols := hcols ▸ r.isLt
  have hc : c.val < op.matrix.rows := hrows ▸ c.isLt
  exact (Grid.get_map Amplitude.conj op.matrix.transpose hr hc).trans
    (congrArg Amplitude.conj (Grid.get_transpose op.matrix hr hc))

theorem toMatrix_identityOn (count : Nat) :
    (identityOn count : Operator (Amplitude F)).toMatrix (2 ^ count) = 1 := by
  refine Matrix.ext fun r c => (Grid.get_ofFn r.isLt c.isLt).trans ?_
  rw [Matrix.one_apply]
  exact if_congr Fin.ext_iff.symm rfl rfl

/-- A well formed operator is known by its matrix. -/
theorem WellFormed.eq_of_toMatrix (h₁ : op₁.WellFormed) (h₂ : op₂.WellFormed)
    (harity : op₁.arity = op₂.arity) (hn : 2 ^ op₁.arity = n)
    (h : op₁.toMatrix n = op₂.toMatrix n) : op₁ = op₂ := by
  have hmatrix : op₁.matrix = op₂.matrix := by
    refine Grid.ext_get ?_ ?_ fun r hr c hc => ?_
    · rw [h₁.rows_eq, h₂.rows_eq, harity]
    · rw [h₁.cols_eq, h₂.cols_eq, harity]
    · rw [h₁.rows_eq, hn] at hr
      rw [h₁.cols_eq, hn] at hc
      exact congrFun₂ h ⟨r, hr⟩ ⟨c, hc⟩
  cases op₁
  cases op₂
  cases harity
  cases hmatrix
  rfl

theorem WellFormed.adjoint (hop : op.WellFormed) : op.adjoint.WellFormed :=
  ⟨hop.arity_pos, hop.arity_le, hop.cols, hop.rows⟩

/-- The adjoint of a unitary operator is its inverse. -/
theorem Unitary.adjoint_mul_eq (hop : op.WellFormed) (hu : op.Unitary) :
    op.adjoint.mul op = identityOn op.arity := by
  have hrows : op.adjoint.matrix.rows = 2 ^ op.arity := hop.cols_eq
  have hcols : op.adjoint.matrix.cols = 2 ^ op.arity := hop.rows_eq
  have hid := wellFormed_identityOn (α := Amplitude F) hop.arity_pos hop.arity_le
  refine (hop.adjoint.mul hop rfl).eq_of_toMatrix hid rfl (n := 2 ^ op.arity) rfl ?_
  rw [toMatrix_mul hrows hcols hop.cols_eq, toMatrix_adjoint hop.rows_eq hop.cols_eq,
    hu.adjoint_mul hop.rows_eq hop.cols_eq, toMatrix_identityOn]

end Matrices

end Operator

end Ket
