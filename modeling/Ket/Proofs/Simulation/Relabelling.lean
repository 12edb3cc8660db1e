import Mathlib.Logic.Equiv.Basic
import Ket.Proofs.Simulation.Placement

/-! Relabelling of qubits. If all operands of a circuit go through a permutation of the qubits, each
in its place, then the amplitudes of its run are moved to the indices whose bits went through the
same permutation, and no bit of an amplitude changes. -/

namespace Ket

variable {n : Nat} (π : Equiv.Perm (Fin n))

/-- The register's own qubits in another order. -/
def Register.Placement.ofPerm : Placement n n where
  qubit q := if h : q < n then π ⟨q, h⟩ else q
  qubit_lt q hq := by
    rw [dif_pos hq]
    exact (π ⟨q, hq⟩).isLt
  injective q hq r hr h := by
    rw [dif_pos hq, dif_pos hr] at h
    exact Fin.mk.inj (π.injective (Fin.ext h))

theorem Register.Placement.ofPerm_qubit (q : Fin n) : (ofPerm π).qubit q = π q := dif_pos q.isLt

/-- Qubits beyond the register stay as they are. -/
def Qubit.permute (q : Qubit) : Qubit :=
  if h : q.index < n then .ofNat (π ⟨q.index, h⟩) else q

theorem Qubit.index_permute (hn : n < UInt32.size) {q : Qubit} (hq : q.index < n) :
    (q.permute π).index = π ⟨q.index, hq⟩ := by
  rw [permute, dif_pos hq]
  exact index_ofNat (Nat.lt_trans (π _).isLt hn)

variable {F : Type} [Scalar F]

theorem Circuit.WellFormed.permute {c : Circuit F} (hc : c.WellFormed)
    (π : Equiv.Perm (Fin c.numQubits)) : (c.rename (.permute π)).WellFormed := by
  have hwidth : c.numQubits < UInt32.size := c.width.toNat_lt
  refine hc.rename (fun q hq => ?_) fun q r hq hr h => ?_
  · rw [Qubit.index_permute π hwidth hq]
    exact (π _).isLt
  · have hindex := congrArg Qubit.index h
    rw [Qubit.index_permute π hwidth hq, Qubit.index_permute π hwidth hr] at hindex
    exact Qubit.index_inj.1 (Fin.mk.inj (π.injective (Fin.ext hindex)))

variable [Zero F] [One F] [Neg F]

theorem Circuit.WellFormed.sends_permute {c : Circuit F} (hc : c.WellFormed)
    (π : Equiv.Perm (Fin c.numQubits)) :
    List.Forall₂ (Register.Placement.ofPerm π).Sends c.gates (c.rename (.permute π)).gates := by
  rw [gates_rename, List.forall₂_map_right_iff, List.forall₂_same]
  intro i hi
  refine ⟨Operator.ofInstruction?_rename _ _, ?_⟩
  rw [Instruction.qubits_rename, List.map_map, List.map_map]
  refine List.map_congr_left fun q hq => ?_
  have hlt : q.index < c.numQubits := (hc.of_mem_gates hi).inRange q hq
  exact (Qubit.index_permute π c.width.toNat_lt hlt).trans
    (Register.Placement.ofPerm_qubit π ⟨q.index, hlt⟩).symm

namespace Simulation

variable [Add F] [Sub F] [Mul F]

/-- A run of the relabelled circuit has every amplitude of a run of the circuit, at the index that
gives to each qubit's new name the value of the qubit. -/
theorem run_relabelled {c : Circuit F} (hc : c.WellFormed) (π : Equiv.Perm (Fin c.numQubits))
    (settings : Settings) (hfit : c.numQubits ≤ min settings.maxQubits.toNat 63) (threads : Nat) :
    ∃ st st', (run settings threads c).result = .ok st ∧
      (run settings threads (c.rename (.permute π))).result = .ok st' ∧
      ∀ i < 2 ^ c.numQubits, ∃ i' < 2 ^ c.numQubits,
        (∀ q : Fin c.numQubits,
          i'.testBit (c.numQubits - 1 - π q) = i.testBit (c.numQubits - 1 - q)) ∧
        ∃ z, st.amplitudes[i]? = some z ∧ st'.amplitudes[i']? = some z := by
  have hfit' : (c.rename (.permute π)).numQubits ≤ limit settings := hfit
  refine ⟨_, _, result_of_fits hc hfit threads, result_of_fits (hc.permute π) hfit' threads,
    fun i hi => ?_⟩
  have hsize : i < c.evolved.size := (size_evolved c).symm ▸ hi
  refine ⟨(Register.Placement.ofPerm π).index i, Register.Placement.index_lt _ i, fun q => ?_,
    c.evolved[i], Array.getElem?_eq_getElem hsize, ?_⟩
  · rw [← Register.Placement.ofPerm_qubit]
    exact Register.Placement.value_index _ q.isLt i
  · rw [← Array.getElem?_eq_getElem hsize]
    exact Register.Placement.getElem?_evolved (d := c.rename (.permute π)) hc (hc.sends_permute π)
      hi

/-- The three qubits go round: 0 becomes 1, 1 becomes 2 and 2 becomes 0, so the amplitude of 001
moves to 100. -/
theorem run_relabelled_round :
    (⟨3, #[.one .h (.ofNat 2), .measure (.ofNat 1),
        .three .cswap (.ofNat 2) (.ofNat 0) (.ofNat 1)]⟩ : Circuit Float).WellFormed ∧
      3 ≤ min (Settings.maxQubits {}).toNat 63 ∧
      ∃ st st',
        (run {} 4 (⟨3, #[.one .h (.ofNat 2), .measure (.ofNat 1),
          .three .cswap (.ofNat 2) (.ofNat 0) (.ofNat 1)]⟩ : Circuit Float)).result = .ok st ∧
        (run {} 4 (⟨3, #[.one .h (.ofNat 0), .measure (.ofNat 2),
          .three .cswap (.ofNat 0) (.ofNat 1) (.ofNat 2)]⟩ : Circuit Float)).result = .ok st' ∧
        ∃ z, st.amplitudes[0b001]? = some z ∧ st'.amplitudes[0b100]? = some z := by
  have hok : Circuit.ofInstructions 3 [.one .h (.ofNat 2), .measure (.ofNat 1),
      .three .cswap (.ofNat 2) (.ofNat 0) (.ofNat 1)] =
      .ok (⟨3, #[.one .h (.ofNat 2), .measure (.ofNat 1),
        .three .cswap (.ofNat 2) (.ofNat 0) (.ofNat 1)]⟩ : Circuit Float) := rfl
  have hmoved : ∀ i' < 2 ^ 3, (∀ q : Fin 3,
      i'.testBit (3 - 1 - (Equiv.swap 0 1).trans (Equiv.swap 0 2) q) =
        (0b001).testBit (3 - 1 - q)) → i' = 0b100 := by
    decide
  have hc := Circuit.wellFormed_of_ofInstructions hok
  obtain ⟨st, st', hrun, hrun', h⟩ := run_relabelled hc
    ((Equiv.swap (0 : Fin 3) 1).trans (Equiv.swap 0 2)) {} (by decide) 4
  obtain ⟨i', hi', hbits, z, hz, hz'⟩ := h 0b001 (by decide)
  obtain rfl := hmoved i' hi' hbits
  simp only [Circuit.rename, List.map_toArray, List.map_cons, List.map_nil,
    Instruction.rename] at hrun'
  exact ⟨hc, by decide, st, st', hrun, hrun', z, hz, hz'⟩

end Simulation

end Ket
