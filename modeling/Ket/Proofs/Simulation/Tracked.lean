import Ket.Proofs.Circuit.Tracked
import Ket.Proofs.Operator.MonomialGates
import Ket.Proofs.Simulation.Run

/-! Runs of gates that move basis states. A run ends in the basis state of the tracked values, with
the tracked phase in its amplitude, and no other amplitude has so much as a sign. That is so over
any numbers that agree with binary64 on the zeros and one with both signs. -/

namespace Ket

namespace Tracked

variable {t : Tracked}

/-- The qubits of the register have their values in the basis index. -/
def Matches (t : Tracked) (width idx : Nat) : Prop :=
  ∀ q : Qubit, q.index < width → Register.value width idx q.index = t.bit q

theorem matches_start (width : Nat) : start.Matches width 0 := fun _ _ => Nat.zero_testBit _

variable {width idx : Nat}

theorem Matches.row_eq (h : t.Matches width idx) {qs : List Qubit}
    (hr : ∀ q ∈ qs, q.index < width) :
    Register.row width (qs.map (·.index)) idx = t.read qs := by
  induction qs with
  | nil => rfl
  | cons q qs ih =>
    obtain ⟨hq, hqs⟩ := List.forall_mem_cons.1 hr
    rw [List.map_cons, Register.row_cons, h q hq, ih hqs, List.length_map, read]

theorem Matches.write (h : t.Matches width idx) {qs : List Qubit} (hd : qs.Nodup)
    (hr : ∀ q ∈ qs, q.index < width) (c : Nat) :
    (t.write c qs).Matches width (Register.neighbour width (qs.map (·.index)) idx c) := by
  have hd' : (qs.map (·.index)).Nodup := hd.map fun _ _ h => Qubit.index_inj.1 h
  have hr' : ∀ p ∈ qs.map (·.index), p < width := List.forall_mem_map.2 hr
  intro q hq
  by_cases hm : q ∈ qs
  · obtain ⟨j, hj, rfl⟩ := List.getElem_of_mem hm
    have hvalue := Register.value_neighbour_getElem hd' hr' idx c (t := j) (by simpa using hj)
    simp only [List.getElem_map, List.length_map] at hvalue
    rw [hvalue, bit_write_getElem c hd hj]
  · have hm' : q.index ∉ qs.map (·.index) := Qubit.index_mem_map_iff.not.2 hm
    rw [Register.value_neighbour_of_notMem hq hm', bit_write_of_notMem hm, h q hq]

section Run

variable {F : Type} [Zero F] [One F] [Add F] [Sub F] [Mul F] [Neg F] [Scalar F] {of : Float → F}
  (hof : Amplitude.AgreesOnUnits of)

include hof

/-- One step. -/
theorem Matches.step {i : Instruction F} (h : t.Matches width idx) (hi : i.WellFormed width)
    (hg : i.gate.isMonomial = true) (hidx : idx < 2 ^ width) :
    ∃ idx' < 2 ^ width, (t.step i).Matches width idx' ∧
      i.image width (Register.basis width idx t.turns) =
        Register.basis width idx' (t.step i).turns := by
  rcases Instruction.image_cases hi with ⟨hm, himage⟩ | ⟨op, hop, -, hq, himage⟩
  · have hstay : t.step i = t := by
      cases i with
      | measure a => rfl
      | _ => cases hm
    rw [himage, hstay]
    exact ⟨idx, hidx, h, rfl⟩
  · have hmoves := Operator.moves_of_ofInstruction? hg hop
    rw [← List.length_map (·.index)] at hmoves
    rw [step_eq hg hi.distinct, himage, ← h.row_eq hi.inRange]
    -- The new index is the neighbour in which the operands have the values written to them.
    refine ⟨_, Register.neighbour_lt _ _ _ _, h.write hi.distinct hi.inRange _, ?_⟩
    exact (hmoves.embed_basis hof hq.distinct hq.inRange hidx t.turns).trans
      (by rw [turn, turns_write])

theorem Matches.foldl {is : List (Instruction F)} (h : t.Matches width idx)
    (his : ∀ i ∈ is, i.WellFormed width ∧ i.gate.isMonomial = true) (hidx : idx < 2 ^ width) :
    ∃ idx' < 2 ^ width, (is.foldl Tracked.step t).Matches width idx' ∧
      is.foldl (fun a i => i.image width a) (Register.basis width idx t.turns) =
        Register.basis width idx' (is.foldl Tracked.step t).turns := by
  induction is generalizing t idx with
  | nil => exact ⟨idx, hidx, h, rfl⟩
  | cons i is ih =>
    obtain ⟨hi, his⟩ := List.forall_mem_cons.1 his
    obtain ⟨idx', hidx', h', himage⟩ := h.step hof hi.1 hi.2 hidx
    rw [List.foldl_cons, List.foldl_cons, himage]
    exact ih h' his hidx'

theorem exists_evolved_eq_basis {c : Circuit F} (hc : c.WellFormed)
    (hg : ∀ i ∈ c.instructions, i.gate.isMonomial = true) :
    ∃ idx < 2 ^ c.numQubits, (ofCircuit c).Matches c.numQubits idx ∧
      c.evolved = Register.basis c.numQubits idx (ofCircuit c).turns := by
  have his : ∀ i ∈ c.instructions.toList, i.WellFormed c.numQubits ∧ i.gate.isMonomial = true := by
    intro i hi
    have hmem := Array.mem_toList_iff.1 hi
    exact ⟨hc.instructions i hmem, hg i hmem⟩
  rw [Circuit.evolved_eq_foldl]
  exact (matches_start c.numQubits).foldl hof his (Nat.two_pow_pos _)

end Run

end Tracked

namespace Simulation

/-- A run of gates that move basis states is tracked exactly, bit for bit. Numbers that agree with
binary64 on the zeros and one with both signs lead to the same amplitudes, so nothing but these four
is ever added, subtracted or multiplied. -/
theorem run_tracked :
    (∀ c : Circuit Float, c.WellFormed → (∀ i ∈ c.instructions, i.gate.isMonomial = true) →
      ∀ settings : Settings, c.numQubits ≤ min settings.maxQubits.toNat 63 → ∀ threads,
        ∃ st, (run settings threads c).result = .ok st ∧ st.width = c.numQubits ∧
          st.amplitudes.size = 2 ^ c.numQubits ∧
          ∃ idx < 2 ^ c.numQubits,
            (∀ q : Qubit, q.index < c.numQubits →
              idx.testBit (c.numQubits - 1 - q.index) = (Tracked.ofCircuit c).bit q) ∧
            st.amplitudes[idx]? = some (.turned (Tracked.ofCircuit c).turns) ∧
            (Amplitude.turned (Tracked.ofCircuit c).turns : Amplitude Float) ≠ 0 ∧
            ∀ i < 2 ^ c.numQubits, i ≠ idx → st.amplitudes[i]? = some ⟨0, 0⟩) ∧
    ∀ (F : Type) [Zero F] [One F] [Add F] [Sub F] [Mul F] [Neg F] [Scalar F] (of : Float → F),
      Amplitude.AgreesOnUnits of → ∀ c : Circuit F, c.WellFormed →
        (∀ i ∈ c.instructions, i.gate.isMonomial = true) →
        ∀ settings : Settings, c.numQubits ≤ min settings.maxQubits.toNat 63 → ∀ threads,
          ∃ st, (run settings threads c).result = .ok st ∧
            ∃ idx < 2 ^ c.numQubits,
              (∀ q : Qubit, q.index < c.numQubits →
                idx.testBit (c.numQubits - 1 - q.index) = (Tracked.ofCircuit c).bit q) ∧
              ∀ i < 2 ^ c.numQubits, st.amplitudes[i]? =
                some (.lift of (if i = idx then .turned (Tracked.ofCircuit c).turns else 0)) := by
  refine ⟨fun c hc hg settings hfit threads => ?_, ?_⟩
  · obtain ⟨idx, hidx, hbits, hevolved⟩ :=
      Tracked.exists_evolved_eq_basis Amplitude.agreesOnUnits_id hc hg
    refine ⟨_, result_of_fits hc hfit threads, rfl, size_evolved c, idx, hidx, hbits, ?_,
      Amplitude.turned_ne_zero _, fun i hi hne => ?_⟩
    · rw [hevolved, Register.getElem?_basis _ hidx, if_pos rfl]
    · rw [hevolved, Register.getElem?_basis _ hi, if_neg hne]
      rfl
  · intro F _ _ _ _ _ _ _ of hof c hc hg settings hfit threads
    obtain ⟨idx, hidx, hbits, hevolved⟩ := Tracked.exists_evolved_eq_basis hof hc hg
    refine ⟨_, result_of_fits hc hfit threads, idx, hidx, hbits, fun i hi => ?_⟩
    rw [hevolved, Register.getElem?_basis _ hi, apply_ite (Amplitude.lift of), hof.lift_turned,
      hof.lift_zero]

open Amplitude in
/-- After the first two gates qubits 0 and 2 are 1 and the phase is i. The phase S makes it -1, the
exchange leads to 110, and the last gate flips qubit 0 back and turns the phase to i. Operations
that are guarded against any number but the zeros and one with both signs do the same. -/
theorem run_tracked_on_three :
    ∃ c : Circuit Float, c.WellFormed ∧ (∀ i ∈ c.instructions, i.gate.isMonomial = true) ∧
      c.numQubits ≤ min (Settings.maxQubits {}).toNat 63 ∧
      c.instructions = #[.one .y (.ofNat 0), .one .x (.ofNat 2), .two .cs (.ofNat 2) (.ofNat 0),
        .measure (.ofNat 1), .three .cswap (.ofNat 0) (.ofNat 1) (.ofNat 2),
        .two .cy (.ofNat 1) (.ofNat 0)] ∧
      (∃ st, (run {} 4 c).result = .ok st ∧ st.amplitudes[0b010]? = some ⟨0, 1⟩ ∧
        st.amplitudes[0b110]? = some ⟨0, 0⟩) ∧
      ∃ st, (@run Float _ _ (guardedAdd UnitOperand) (guardedSub UnitOperand)
          (guardedMul UnitOperand) _ _ {} 4 c).result = .ok st ∧
        st.amplitudes[0b010]? = some ⟨0, 1⟩ ∧ st.amplitudes[0b110]? = some ⟨0, 0⟩ := by
  let is : List (Instruction Float) := [.one .y (.ofNat 0), .one .x (.ofNat 2),
    .two .cs (.ofNat 2) (.ofNat 0), .measure (.ofNat 1),
    .three .cswap (.ofNat 0) (.ofNat 1) (.ofNat 2), .two .cy (.ofNat 1) (.ofNat 0)]
  have hok : Circuit.ofInstructions 3 is = .ok ⟨3, is.toArray⟩ := rfl
  have hc := Circuit.wellFormed_of_ofInstructions hok
  have hg : ∀ i ∈ is.toArray, i.gate.isMonomial = true := by decide
  have hplace : ∀ idx < 2 ^ 3, (∀ q : Qubit, q.index < 3 → idx.testBit (3 - 1 - q.index) =
      (Tracked.ofCircuit ⟨3, is.toArray⟩).bit q) → idx = 0b010 := by
    intro idx hidx hbits
    have hall : ∀ i < 2 ^ 3, (∀ q < 3, i.testBit (3 - 1 - q) =
        (Tracked.ofCircuit ⟨3, is.toArray⟩).bit (.ofNat q)) → i = 0b010 := by
      decide
    refine hall idx hidx fun q hq => ?_
    have hindex : (Qubit.ofNat q).index = q := Qubit.index_ofNat (Nat.lt_trans hq (by decide))
    have hbit := hbits (.ofNat q) (by rwa [hindex])
    rwa [hindex] at hbit
  obtain ⟨hfloat, hagree⟩ := run_tracked
  obtain ⟨st, hrun, -, -, idx, hidx, hbits, hat, -, hoff⟩ := hfloat _ hc hg {} (by decide) 4
  obtain rfl := hplace idx hidx hbits
  obtain ⟨st', hrun', idx', hidx', hbits', hat'⟩ := @hagree Float _ _ (guardedAdd UnitOperand)
    (guardedSub UnitOperand) (guardedMul UnitOperand) _ _ id agreesOnUnits_guarded _ hc hg {}
    (by decide) 4
  obtain rfl := hplace idx' hidx' hbits'
  exact ⟨_, hc, hg, by decide, rfl, ⟨st, hrun, hat, hoff 0b110 (by decide) (by decide)⟩, st', hrun',
    hat' 0b010 (by decide), hat' 0b110 (by decide)⟩

end Simulation

end Ket
