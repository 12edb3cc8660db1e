import Ket.Proofs.Amplitude.Vanishing
import Ket.Proofs.Circuit.Idle
import Ket.Proofs.Simulation.Placement

/-! Idle qubits. Where a qubit that is at most measured is 1 all amplitudes are zeros. Where it is 0
they are those of the run without the qubit, to the bit. Only the first half needs something of
binary64: that finite numbers do not disturb its zeros. -/

namespace Ket

namespace Circuit

variable {F : Type} {c : Circuit F} {q : Qubit}

theorem gates_without (c : Circuit F) (q : Qubit) :
    (c.without q).gates = c.gates.map (·.rename (.lower q)) := by
  have hkept : ∀ i ∈ c.instructions.toList,
      (!(i.rename (.lower q)).isMeasure && !(i.isMeasure && decide (q ∈ i.qubits))) =
        !i.isMeasure := by
    intro i _
    cases hm : i.isMeasure <;> simp [hm]
  simp only [gates, without, Array.toList_map, Array.toList_filter, List.filter_map,
    List.filter_filter, Function.comp_apply, List.filter_congr hkept]

theorem Idle.notMem_of_mem_gates (h : c.Idle q) {i : Instruction F} (hi : i ∈ c.gates) :
    q ∉ i.qubits := by
  obtain ⟨hmem, hm⟩ := List.mem_filter.1 hi
  intro hq
  simp [h i (Array.mem_toList_iff.1 hmem) hq] at hm

end Circuit

namespace Operator

/-- Every entry of the matrix is finite. -/
def Finite (op : Operator (Amplitude Float)) : Prop :=
  ∀ r < 2 ^ op.arity, ∀ c < 2 ^ op.arity, (op.matrix.get r c).IsFinite

instance (op : Operator (Amplitude Float)) : Decidable op.Finite :=
  inferInstanceAs (Decidable (∀ r < _, ∀ c < _, (op.matrix.get r c).IsFinite))

end Operator

namespace Register

/-- The amplitudes of all indices in which qubit `q` is 1 are zeros. -/
def VanishesAt (width q : Nat) (a : Array (Amplitude Float)) : Prop :=
  ∀ i < 2 ^ width, value width i q = true → (a.getD i 0).Vanishes

theorem vanishesAt_ground (width q : Nat) : VanishesAt width q (ground width) := by
  intro i hi hv
  have hne : i ≠ 0 := by
    rintro rfl
    simp [value] at hv
  rw [getD_ground hi, if_neg hne]
  exact Amplitude.vanishes_zero

variable {width q : Nat} {a : Array (Amplitude Float)}

/-- The neighbours of an index in which `q` is 1 have the same value there. -/
theorem VanishesAt.embed (h : VanishesAt width q a) {op : Operator (Amplitude Float)}
    (hop : op.Finite) {qubits : List Nat} (hq : op.Addresses width qubits) (hlt : q < width)
    (hm : q ∉ qubits) : VanishesAt width q (op.embed width qubits a) := by
  intro i hi hv
  rw [Operator.getD_embed op qubits a hi]
  refine Amplitude.Vanishes.total fun c hc => ?_
  have hneighbour : value width (neighbour width qubits i c) q = true := by
    rw [value_neighbour_of_notMem hlt hm, hv]
  have hrow : row width qubits i < 2 ^ op.arity := hq.length ▸ row_lt width qubits i
  exact (hop _ hrow c hc).mul_vanishes (h _ (neighbour_lt _ _ _ _) hneighbour)

theorem VanishesAt.image (h : VanishesAt width q a) {i : Instruction Float}
    (hi : i.WellFormed width) (hfin : ∀ op, Operator.ofInstruction? i = .ok (some op) → op.Finite)
    (hlt : q < width) (hm : q ∉ i.qubits.map (·.index)) :
    VanishesAt width q (i.image width a) := by
  rcases Instruction.image_cases hi with ⟨-, himage⟩ | ⟨op, hop, -, hq, himage⟩
  · rwa [himage]
  · rw [himage]
    exact h.embed (hfin op hop) hq hlt hm

theorem VanishesAt.foldl_image {is : List (Instruction Float)} (h : VanishesAt width q a)
    (his : ∀ i ∈ is, i.WellFormed width)
    (hfin : ∀ i ∈ is, ∀ op, Operator.ofInstruction? i = .ok (some op) → op.Finite)
    (hlt : q < width) (hm : ∀ i ∈ is, q ∉ i.qubits.map (·.index)) :
    VanishesAt width q (is.foldl (fun a i => i.image width a) a) := by
  induction is generalizing a with
  | nil => exact h
  | cons i is ih =>
    obtain ⟨hi, his⟩ := List.forall_mem_cons.1 his
    obtain ⟨hfi, hfin⟩ := List.forall_mem_cons.1 hfin
    obtain ⟨hmi, hm⟩ := List.forall_mem_cons.1 hm
    exact ih (h.image hi hfi hlt hmi) his hfin hm

/-- All qubits of the register but `q`, in order. -/
def Placement.skip {n m : Nat} (h : n + 1 = m) (q : Nat) : Placement n m where
  qubit r := if r < q then r else r + 1
  qubit_lt r hr := by split <;> omega
  injective r _ s _ heq := by split_ifs at heq <;> omega

theorem Placement.index_skip_removeBit {n m : Nat} (h : n + 1 = m) {q : Nat} (hq : q < m) {i : Nat}
    (hi : i < 2 ^ m) (hv : value m i q = false) :
    (skip h q).index (Support.removeBit i (m - 1 - q)) = i := by
  refine eq_of_value (index_lt _ _) hi fun r hr => ?_
  by_cases hrq : r = q
  · subst hrq
    rw [hv]
    refine value_index_of_free _ hr (fun s hs => ?_) _
    simp only [skip]
    split <;> omega
  · have hplaced : (skip h q).qubit (if r < q then r else r - 1) = r := by
      simp only [skip]
      split_ifs <;> omega
    have hvalue := value_index (skip h q) (q := if r < q then r else r - 1)
      (by split_ifs <;> omega) (Support.removeBit i (m - 1 - q))
    rw [hplaced] at hvalue
    rw [hvalue, value, value, Support.testBit_removeBit]
    by_cases hlt : r < q
    · rw [if_pos hlt, if_neg (by omega)]
      congr 1
      omega
    · rw [if_neg hlt, if_pos (by omega)]
      congr 1
      omega

end Register

variable {c : Circuit Float} {q : Qubit}

/-- The gates of the circuit are those of the smaller circuit on the qubits that were kept. -/
theorem Circuit.sends_without (hpos : 0 < c.numQubits) (hidle : c.Idle q) :
    List.Forall₂ (Register.Placement.skip (numQubits_without hpos q) q.index).Sends
      (c.without q).gates c.gates := by
  rw [gates_without, List.forall₂_map_left_iff, List.forall₂_same]
  intro i hi
  refine ⟨(Operator.ofInstruction?_rename _ _).symm, ?_⟩
  rw [Instruction.qubits_rename, List.map_map, List.map_map]
  refine List.map_congr_left fun r hr => ?_
  have hne : r.index ≠ q.index := by
    intro heq
    exact hidle.notMem_of_mem_gates hi (Qubit.index_inj.1 heq ▸ hr)
  simp only [Register.Placement.skip, Function.comp_apply, Qubit.index_lower]
  split_ifs <;> omega

theorem Circuit.WellFormed.vanishesAt_evolved (hc : c.WellFormed) (hq : q.index < c.numQubits)
    (hidle : c.Idle q) (hfin : ∀ i ∈ (c.without q).instructions, ∀ op,
      Operator.ofInstruction? i = .ok (some op) → op.Finite) :
    Register.VanishesAt c.numQubits q.index c.evolved := by
  refine (Register.vanishesAt_ground _ _).foldl_image (fun i => hc.of_mem_gates)
    (fun i hi op hop => ?_) hq fun i hi =>
      Qubit.index_mem_map_iff.not.2 (hidle.notMem_of_mem_gates hi)
  have hmem : i.rename (.lower q) ∈ (c.without q).gates := by
    rw [gates_without]
    exact List.mem_map_of_mem hi
  refine hfin _ (Array.mem_toList_iff.1 (List.mem_of_mem_filter hmem)) op ?_
  rw [Operator.ofInstruction?_rename, hop]

namespace Simulation

/-- Taking an idle qubit out of the circuit leaves the amplitudes of the indices in which it is 0,
and all others are zeros. -/
theorem run_without_idle (hc : c.WellFormed) (h2 : 2 ≤ c.numQubits) (hq : q.index < c.numQubits)
    (hidle : c.Idle q)
    (hfin : ∀ i ∈ (c.without q).instructions, ∀ op,
      Operator.ofInstruction? i = .ok (some op) → op.Finite)
    (settings : Settings) (hfit : c.numQubits ≤ min settings.maxQubits.toNat 63) (threads : Nat) :
    ∃ st st', (run settings threads c).result = .ok st ∧
      (run settings threads (c.without q)).result = .ok st' ∧
      ∀ i < 2 ^ c.numQubits, ∃ z, st.amplitudes[i]? = some z ∧
        (i.testBit (c.numQubits - 1 - q.index) = true → z.Vanishes) ∧
        (i.testBit (c.numQubits - 1 - q.index) = false →
          st'.amplitudes[Support.removeBit i (c.numQubits - 1 - q.index)]? = some z) := by
  have hn := Circuit.numQubits_without hc.numQubits_pos q
  have hc' := hc.without h2 hq hidle
  have hfit' : (c.without q).numQubits ≤ limit settings := (Nat.le_of_lt (by omega)).trans hfit
  refine ⟨_, _, result_of_fits hc hfit threads, result_of_fits hc' hfit' threads, fun i hi => ?_⟩
  have hsize : i < c.evolved.size := (size_evolved c).symm ▸ hi
  refine ⟨c.evolved[i], Array.getElem?_eq_getElem hsize, fun hone => ?_, fun hzero => ?_⟩
  · rw [Array.getElem_eq_getD 0]
    exact hc.vanishesAt_evolved hq hidle hfin i hi hone
  · have hremoved : Support.removeBit i (c.numQubits - 1 - q.index) <
        2 ^ (c.without q).numQubits :=
      Support.removeBit_lt (by omega) (hn.symm ▸ hi)
    have hsends := Circuit.sends_without hc.numQubits_pos hidle
    have hplaced := Register.Placement.getElem?_evolved hc' hsends hremoved
    rw [Register.Placement.index_skip_removeBit hn hq hi hzero] at hplaced
    rw [← hplaced, Array.getElem?_eq_getElem hsize]

/-- The idle qubit stands between the two of an entangled pair. -/
theorem run_without_idle_in_pair :
    ∃ c : Circuit Float, c.WellFormed ∧ c.Idle (.ofNat 1) ∧
      c = ⟨3, #[.one .h (.ofNat 0), .measure (.ofNat 1), .two .cx (.ofNat 0) (.ofNat 2)]⟩ ∧
      c.without (.ofNat 1) = ⟨2, #[.one .h (.ofNat 0), .two .cx (.ofNat 0) (.ofNat 1)]⟩ ∧
      (∀ i ∈ (c.without (.ofNat 1)).instructions, ∀ op,
        Operator.ofInstruction? i = .ok (some op) → op.Finite) ∧
      ∃ st st', (run {} 4 c).result = .ok st ∧
        (run {} 4 (c.without (.ofNat 1))).result = .ok st' ∧
        (∃ z, st.amplitudes[0b111]? = some z ∧ z.Vanishes) ∧
        ∃ z, st.amplitudes[0b101]? = some z ∧ st'.amplitudes[0b11]? = some z := by
  have hok : Circuit.ofInstructions 3
      [.one .h (.ofNat 0), .measure (.ofNat 1), .two .cx (.ofNat 0) (.ofNat 2)] =
      .ok (⟨3, #[.one .h (.ofNat 0), .measure (.ofNat 1), .two .cx (.ofNat 0) (.ofNat 2)]⟩ :
        Circuit Float) := rfl
  have hwithout : Circuit.without (⟨3, #[.one .h (.ofNat 0), .measure (.ofNat 1),
      .two .cx (.ofNat 0) (.ofNat 2)]⟩ : Circuit Float) (.ofNat 1) =
      ⟨2, #[.one .h (.ofNat 0), .two .cx (.ofNat 0) (.ofNat 1)]⟩ := by
    rw [Circuit.without, List.filter_toArray, List.map_toArray]
    rfl
  have hidle : Circuit.Idle (⟨3, #[.one .h (.ofNat 0), .measure (.ofNat 1),
      .two .cx (.ofNat 0) (.ofNat 2)]⟩ : Circuit Float) (.ofNat 1) := by
    unfold Circuit.Idle
    decide
  have hfin : ∀ i ∈ (#[.one .h (.ofNat 0), .two .cx (.ofNat 0) (.ofNat 1)] :
      Array (Instruction Float)), ∀ op, Operator.ofInstruction? i = .ok (some op) → op.Finite := by
    intro i hi op hop
    simp only [List.mem_toArray, List.mem_cons, List.not_mem_nil, or_false] at hi
    rcases hi with rfl | rfl <;> cases hop <;> decide
  have hc := Circuit.wellFormed_of_ofInstructions hok
  obtain ⟨st, st', hrun, hrun', h⟩ := run_without_idle hc (by decide) (by decide) hidle
    (by rwa [hwithout]) {} (by decide) 4
  obtain ⟨z, hz, -, hz'⟩ := h 0b101 (by decide)
  obtain ⟨w, hw, hw', -⟩ := h 0b111 (by decide)
  exact ⟨_, hc, hidle, rfl, hwithout, by rwa [hwithout], st, st', hrun, hrun',
    ⟨w, hw, hw' (by decide)⟩, z, hz, hz' (by decide)⟩

end Simulation

end Ket
