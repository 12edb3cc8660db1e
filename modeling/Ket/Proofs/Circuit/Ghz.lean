import Mathlib.Data.List.Range
import Ket.Proofs.Circuit.Depth
import Ket.Proofs.Circuit.Reachable

/-! The circuit that entangles all qubits along a chain. It has one instruction for each qubit, and
each instruction waits for the one before it, so nothing is done side by side. -/

namespace Ket.Circuit

variable {F : Type}

/-- The instruction that reaches qubit `k`, from the qubit before it. -/
def reaching : Nat → Instruction F
  | 0 => .one .h (.ofNat 0)
  | k + 1 => .two .cx (.ofNat k) (.ofNat (k + 1))

def entangling (n : Nat) : List (Instruction F) := (List.range n).map reaching

theorem length_entangling (n : Nat) : (entangling n : List (Instruction F)).length = n := by
  rw [entangling, List.length_map, List.length_range]

theorem getElem?_entangling {n k : Nat} (hk : k < n) :
    (entangling n : List (Instruction F))[k]? = some (reaching k) := by
  simp [entangling, hk]

theorem mem_qubits_reaching (k : Nat) : .ofNat k ∈ (reaching k : Instruction F).qubits := by
  cases k <;> simp [reaching, Instruction.qubits]

theorem chain_entangling (n : Nat) :
    Chain (entangling n : List (Instruction F)) (List.range n) := by
  refine ⟨fun k hk => ?_, ?_⟩
  · rw [length_entangling]
    exact List.mem_range.1 hk
  · rw [List.isChain_range]
    intro k hk
    have hnext : .ofNat k ∈ (reaching (k + 1) : Instruction F).qubits := by
      simp [reaching, Instruction.qubits]
    exact ⟨Nat.lt_succ_self k, _, _, getElem?_entangling (by omega), getElem?_entangling (by omega),
      _, mem_qubits_reaching k, hnext⟩

theorem depth_entangling (n : Nat) : (layers (entangling n : List (Instruction F))).depth = n := by
  have hle := (layering_succ (entangling n : List (Instruction F))).depth_le
  have hge := (chain_entangling (F := F) n).length_le_depth
  rw [length_entangling] at hle
  rw [List.length_range] at hge
  exact Nat.le_antisymm hle hge

variable [Scalar F]

theorem check_reaching {width k : Nat} (hw : width < UInt32.size) (hk : k < width) :
    (reaching k : Instruction F).check width = .ok () := by
  have hindex : ∀ j ≤ k, (Qubit.ofNat j).index = j := fun j hj => Qubit.index_ofNat (by omega)
  refine Instruction.check_eq_ok_iff.2 ?_
  cases k with
  | zero =>
    refine ⟨?_, by simp [reaching, Instruction.qubits], fun θ hθ => nomatch hθ⟩
    intro q hq
    rwa [List.mem_singleton.1 hq, hindex 0 le_rfl]
  | succ k =>
    have hne : Qubit.ofNat k ≠ .ofNat (k + 1) := by
      rw [Ne, ← Qubit.index_inj, hindex k (by omega), hindex (k + 1) le_rfl]
      omega
    refine ⟨?_, by simpa [reaching, Instruction.qubits] using hne, fun θ hθ => nomatch hθ⟩
    intro q hq
    rcases List.mem_pair.1 hq with rfl | rfl
    · rw [hindex k (by omega)]
      omega
    · rwa [hindex (k + 1) le_rfl]

theorem ghz_zero : (ghz 0 : Except (CircuitError F) (Circuit F)) = .error .noQubits := rfl

theorem ghz_eq_ok {n : UInt32} (hn : n ≠ 0) :
    (ghz n : Except (CircuitError F) (Circuit F)) = .ok ⟨n, (entangling n.toNat).toArray⟩ := by
  have hpos : 0 < n.toNat := Nat.pos_of_ne_zero fun h => hn (UInt32.toNat_inj.1 h)
  obtain ⟨m, hm⟩ := Nat.exists_eq_succ_of_ne_zero hpos.ne'
  have hlist : (.one .h (.ofNat 0) :: (List.range (n.toNat - 1)).map fun k =>
      .two .cx (.ofNat k) (.ofNat (k + 1)) : List (Instruction F)) = entangling n.toNat := by
    rw [entangling, hm, List.range_succ_eq_map, List.map_cons, List.map_map]
    rfl
  rw [ghz_eq, hlist, ofInstructions, empty, if_neg hn]
  refine appendAll_eq_ok_iff.2 ⟨?_, by simp⟩
  intro i hi
  obtain ⟨k, hk, rfl⟩ := List.mem_map.1 hi
  exact check_reaching n.toNat_lt (List.mem_range.1 hk)

section Words

/-- The machine word before `n`. There is none before zero. -/
def wordBefore? (n : UInt32) : Option UInt32 := if n = 0 then none else some (n - 1)

/-- `ghz` with its number of links computed on machine words. It has no outcome if that asks for the
word before zero. -/
def ghzOnWords (n : UInt32) : Option (Except (CircuitError F) (Circuit F)) :=
  match empty n with
  | .error e => some (.error e)
  | .ok c =>
    match c.h (.ofNat 0) with
    | .error e => some (.error e)
    | .ok c =>
      (wordBefore? n).map fun links =>
        (List.range links.toNat).foldlM (fun c k => c.cx (.ofNat k) (.ofNat (k + 1))) c

theorem ghzOnWords_eq (n : UInt32) :
    (ghzOnWords n : Option (Except (CircuitError F) (Circuit F))) = some (ghz n) := by
  by_cases hn : n = 0
  · subst hn
    rfl
  · have hle : (1 : UInt32) ≤ n := UInt32.le_iff_toNat_le.2
      (Nat.pos_of_ne_zero fun h => hn (UInt32.toNat_inj.1 h))
    have hlinks : (n - 1).toNat = n.toNat - 1 := UInt32.toNat_sub_of_le n 1 hle
    simp only [ghzOnWords, ghz, empty, if_neg hn, wordBefore?, Option.map_some, hlinks, bind,
      Except.bind]
    cases (⟨n, #[]⟩ : Circuit F).h (.ofNat 0) <;> rfl

end Words

end Ket.Circuit
