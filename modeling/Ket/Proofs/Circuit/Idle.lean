import Ket.Proofs.Circuit.Renaming

/-! Circuits with one qubit less. A qubit that is at most measured can be taken out: its
measurements are dropped, and the qubits above it are numbered down by one. -/

namespace Ket

/-- The number of a qubit after `q` is taken out. -/
def Qubit.lower (q r : Qubit) : Qubit := if q.index < r.index then .ofNat (r.index - 1) else r

theorem Qubit.index_lower (q r : Qubit) :
    (lower q r).index = if q.index < r.index then r.index - 1 else r.index := by
  have hlt := r.index_lt
  unfold lower
  split
  · exact index_ofNat (by omega)
  · rfl

namespace Circuit

variable {F : Type}

/-- Nothing but measurements addresses the qubit. -/
def Idle (c : Circuit F) (q : Qubit) : Prop :=
  ∀ i ∈ c.instructions, q ∈ i.qubits → i.isMeasure = true

def without (c : Circuit F) (q : Qubit) : Circuit F where
  width := c.width - 1
  instructions := (c.instructions.filter fun i => !(i.isMeasure && decide (q ∈ i.qubits))).map
    (·.rename (.lower q))

variable {c : Circuit F} {q : Qubit}

theorem numQubits_without (h : 0 < c.numQubits) (q : Qubit) :
    (c.without q).numQubits + 1 = c.numQubits := by
  have hsub : (c.width - 1).toNat = c.width.toNat - 1 := UInt32.toNat_sub_of_le _ _ h
  have hn : c.numQubits = c.width.toNat := rfl
  rw [numQubits, without, hsub]
  omega

theorem mem_without {j : Instruction F} (h : j ∈ (c.without q).instructions) :
    ∃ i ∈ c.instructions, (i.isMeasure = true → q ∉ i.qubits) ∧ i.rename (.lower q) = j := by
  obtain ⟨i, hi, rfl⟩ := Array.mem_map.1 h
  obtain ⟨hmem, hkept⟩ := Array.mem_filter.1 hi
  exact ⟨i, hmem, fun hm hq => by simp [hm, hq] at hkept, rfl⟩

/-- Two qubits other than `q` keep different numbers. -/
theorem WellFormed.without [Scalar F] (hc : c.WellFormed) (h2 : 2 ≤ c.numQubits)
    (hq : q.index < c.numQubits) (hidle : c.Idle q) : (c.without q).WellFormed := by
  have hn := numQubits_without hc.numQubits_pos q
  refine ⟨by omega, fun j hj => ?_⟩
  obtain ⟨i, hi, hkept, rfl⟩ := mem_without hj
  have hwf := hc.instructions i hi
  have hne : ∀ r ∈ i.qubits, r.index ≠ q.index := by
    intro r hr heq
    obtain rfl := Qubit.index_inj.1 heq
    exact hkept (hidle i hi hr) hr
  refine hwf.rename (fun r hr => ?_) fun r hr s hs heq => ?_
  · have hlt := hwf.inRange r hr
    have := hne r hr
    rw [Qubit.index_lower]
    split_ifs <;> omega
  · have hindex := congrArg Qubit.index heq
    have := hne r hr
    have := hne s hs
    rw [Qubit.index_lower, Qubit.index_lower] at hindex
    refine Qubit.index_inj.1 ?_
    split_ifs at hindex <;> omega

end Circuit

end Ket
