import Ket.Proofs.Operator.Embedding

/-! Registers inside other registers. A placement sends the qubits of one register to distinct
qubits of another, and a basis index to the one in which the placed qubits have their values and
all other qubits are 0. An operator on placed qubits adds up the same terms in the same order, so
it does to the placed amplitudes what it does to the original ones. -/

namespace Ket

namespace Register

/-- Distinct qubits of a register of width `outer` for the qubits of one of width `inner`. -/
structure Placement (inner outer : Nat) where
  qubit : Nat → Nat
  qubit_lt : ∀ q < inner, qubit q < outer
  injective : ∀ q < inner, ∀ r < inner, qubit q = qubit r → q = r

theorem row_congr {n m i j : Nat} {f : Nat → Nat} {qubits : List Nat}
    (h : ∀ q ∈ qubits, value m j (f q) = value n i q) :
    row m (qubits.map f) j = row n qubits i := by
  induction qubits with
  | nil => rfl
  | cons q qubits ih =>
    obtain ⟨hq, hqs⟩ := List.forall_mem_cons.1 h
    rw [List.map_cons, row_cons, row_cons, hq, ih hqs, List.length_map]

namespace Placement

variable {n m : Nat}

/-- The placed qubits have their values in `i`, the others are 0. -/
def index (w : Placement n m) (i : Nat) : Nat :=
  Nat.ofBits fun p : Fin m => decide (∃ q < n, w.qubit q = m - 1 - p ∧ value n i q = true)

variable (w : Placement n m)

theorem index_lt (i : Nat) : w.index i < 2 ^ m := Nat.ofBits_lt_two_pow _

theorem value_index_eq_true_iff {r : Nat} (hr : r < m) (i : Nat) :
    value m (w.index i) r = true ↔ ∃ q < n, w.qubit q = r ∧ value n i q = true := by
  have hp : m - 1 - r < m := by omega
  rw [value, index, Nat.testBit_ofBits_lt _ _ hp, decide_eq_true_iff]
  simp only [show m - 1 - (m - 1 - r) = r by omega]

theorem value_index {q : Nat} (hq : q < n) (i : Nat) :
    value m (w.index i) (w.qubit q) = value n i q := by
  rw [Bool.eq_iff_iff, value_index_eq_true_iff w (w.qubit_lt q hq)]
  constructor
  · rintro ⟨q', hq', heq, h⟩
    rwa [w.injective q' hq' q hq heq] at h
  · exact fun h => ⟨q, hq, rfl, h⟩

theorem value_index_of_free {r : Nat} (hr : r < m) (hfree : ∀ q < n, w.qubit q ≠ r) (i : Nat) :
    value m (w.index i) r = false := by
  rw [Bool.eq_false_iff, Ne, value_index_eq_true_iff w hr]
  rintro ⟨q, hq, heq, -⟩
  exact hfree q hq heq

theorem index_zero : w.index 0 = 0 := by
  refine eq_of_value (w.index_lt 0) (Nat.two_pow_pos m) fun r hr => ?_
  have hzero (width q : Nat) : value width 0 q = false := Nat.zero_testBit _
  rw [hzero, Bool.eq_false_iff, Ne, value_index_eq_true_iff w hr]
  rintro ⟨q, -, -, h⟩
  rw [hzero] at h
  cases h

theorem index_injective {i j : Nat} (hi : i < 2 ^ n) (hj : j < 2 ^ n)
    (h : w.index i = w.index j) : i = j :=
  eq_of_value hi hj fun q hq => by rw [← w.value_index hq, h, w.value_index hq]

variable {qubits : List Nat} (hd : qubits.Nodup) (hr : ∀ q ∈ qubits, q < n)

include hr

theorem row_index (i : Nat) : row m (qubits.map w.qubit) (w.index i) = row n qubits i :=
  row_congr fun q hq => w.value_index (hr q hq) i

theorem lt_of_mem_map : ∀ q ∈ qubits.map w.qubit, q < m :=
  List.forall_mem_map.2 fun q hq => w.qubit_lt q (hr q hq)

include hd

theorem nodup_map : (qubits.map w.qubit).Nodup :=
  hd.map_on fun q hq q' hq' => w.injective q (hr q hq) q' (hr q' hq')

/-- Told qubit by qubit: an addressed one, another placed one, and one that nothing is placed at. -/
theorem neighbour_index (i c : Nat) :
    neighbour m (qubits.map w.qubit) (w.index i) c = w.index (neighbour n qubits i c) := by
  have hd' := w.nodup_map hd hr
  have hr' := w.lt_of_mem_map hr
  refine eq_of_value (neighbour_lt _ _ _ _) (w.index_lt _) fun r hrm => ?_
  by_cases hplaced : ∃ q < n, w.qubit q = r
  · obtain ⟨q, hq, rfl⟩ := hplaced
    rw [w.value_index hq]
    by_cases hm : q ∈ qubits
    · obtain ⟨t, ht, rfl⟩ := List.getElem_of_mem hm
      have ht' : t < (qubits.map w.qubit).length := by rwa [List.length_map]
      have h := value_neighbour_getElem hd' hr' (w.index i) c ht'
      simp only [List.getElem_map, List.length_map] at h
      rw [h, value_neighbour_getElem hd hr i c ht]
    · have hm' : w.qubit q ∉ qubits.map w.qubit := by
        intro h
        obtain ⟨q', hq', heq⟩ := List.mem_map.1 h
        exact hm (w.injective q' (hr q' hq') q hq heq ▸ hq')
      rw [value_neighbour_of_notMem hrm hm', value_neighbour_of_notMem hq hm, w.value_index hq]
  · have hfree : ∀ q < n, w.qubit q ≠ r := fun q hq heq => hplaced ⟨q, hq, heq⟩
    have hm' : r ∉ qubits.map w.qubit := by
      intro h
      obtain ⟨q, hq, heq⟩ := List.mem_map.1 h
      exact hfree q (hr q hq) heq
    rw [value_neighbour_of_notMem hrm hm', w.value_index_of_free hrm hfree,
      w.value_index_of_free hrm hfree]

end Placement

end Register

namespace Register.Placement

variable {α : Type} [Zero α] {n m : Nat}

/-- The array `b` of the outer register has the amplitudes of `a` at the placed indices. -/
def Holds (w : Placement n m) (a b : Array α) : Prop :=
  ∀ i < 2 ^ n, b.getD (w.index i) 0 = a.getD i 0

/-- One application. Nothing is asked of the arithmetic. -/
theorem Holds.embed [Add α] [Mul α] {w : Placement n m} {a b : Array α} (h : w.Holds a b)
    {op : Operator α} {qubits : List Nat} (hq : op.Addresses n qubits) :
    w.Holds (op.embed n qubits a) (op.embed m (qubits.map w.qubit) b) := by
  intro i hi
  have hterm (c : Nat) : b.getD (neighbour m (qubits.map w.qubit) (w.index i) c) 0 =
      a.getD (neighbour n qubits i c) 0 := by
    rw [w.neighbour_index hq.distinct hq.inRange]
    exact h _ (neighbour_lt _ _ _ _)
  rw [Operator.getD_embed op _ b (w.index_lt i), Operator.getD_embed op _ a hi]
  simp only [w.row_index hq.inRange, hterm]

end Register.Placement

end Ket
