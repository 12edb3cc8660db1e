import Ket.Proofs.Circuit.Renaming
import Ket.Proofs.Operator.Placement
import Ket.Proofs.Simulation.Run

/-! Runs inside other runs. If the gates of one circuit are those of another on placed qubits, in
the same order, then a run of the first has at the placed indices the very amplitudes of a run of
the second. The registers may differ in width. -/

namespace Ket

variable {F : Type}

theorem Circuit.gates_rename (f : Qubit → Qubit) (c : Circuit F) :
    (c.rename f).gates = c.gates.map (·.rename f) := by
  simp [gates, rename, List.filter_map, Function.comp_def]

variable [Zero F] [One F] [Add F] [Sub F] [Mul F] [Neg F] [Scalar F]

namespace Register.Placement

variable {n m : Nat} {w : Placement n m}

theorem Holds.getElem? {α : Type} [Zero α] {a b : Array α} (h : w.Holds a b)
    (ha : a.size = 2 ^ n) (hb : b.size = 2 ^ m) {i : Nat} (hi : i < 2 ^ n) :
    b[w.index i]? = a[i]? := by
  have hib : w.index i < b.size := hb ▸ w.index_lt i
  have hia : i < a.size := ha ▸ hi
  have hget := h i hi
  rw [← Array.getElem_eq_getD (h := hib), ← Array.getElem_eq_getD (h := hia)] at hget
  rw [Array.getElem?_eq_getElem hib, Array.getElem?_eq_getElem hia, hget]

theorem holds_ground {α : Type} [Zero α] [One α] (w : Placement n m) :
    w.Holds (ground n : Array α) (ground m) := by
  intro i hi
  have hzero : w.index i = 0 ↔ i = 0 := by
    constructor
    · intro h
      exact w.index_injective hi (Nat.two_pow_pos n) (h.trans w.index_zero.symm)
    · rintro rfl
      exact w.index_zero
  rw [getD_ground (w.index_lt i), getD_ground hi, if_congr hzero rfl rfl]

/-- The instruction `j` is `i` on placed operands. -/
structure Sends (w : Placement n m) (i j : Instruction F) : Prop where
  operator : Operator.ofInstruction? j = Operator.ofInstruction? i
  qubits : j.qubits.map (·.index) = (i.qubits.map (·.index)).map w.qubit

/-- One step. -/
theorem Holds.image {a b : Array (Amplitude F)} (h : w.Holds a b) {i j : Instruction F}
    (hij : w.Sends i j) (hi : i.WellFormed n) : w.Holds (i.image n a) (j.image m b) := by
  cases hm : i.isMeasure with
  | true =>
    have hi' := Operator.ofInstruction?_of_isMeasure hm
    simp only [Instruction.image, hij.operator, hi']
    exact h
  | false =>
    obtain ⟨op, hop, hacts⟩ := Operator.exists_ofInstruction? hi hm
    simp only [Instruction.image, hij.operator, hop, hij.qubits]
    exact h.embed (hacts.addresses hi)

theorem Holds.foldl_image {is js : List (Instruction F)} (hs : List.Forall₂ w.Sends is js)
    (his : ∀ i ∈ is, i.WellFormed n) {a b : Array (Amplitude F)} (h : w.Holds a b) :
    w.Holds (is.foldl (fun a i => i.image n a) a) (js.foldl (fun b j => j.image m b) b) := by
  induction hs generalizing a b with
  | nil => exact h
  | cons hij _ ih =>
    obtain ⟨hi, his⟩ := List.forall_mem_cons.1 his
    exact ih his (h.image hij hi)

/-- Both runs begin with all qubits 0. -/
theorem getElem?_evolved {c d : Circuit F} (hc : c.WellFormed)
    {w : Placement c.numQubits d.numQubits} (hs : List.Forall₂ w.Sends c.gates d.gates) {i : Nat}
    (hi : i < 2 ^ c.numQubits) : d.evolved[w.index i]? = c.evolved[i]? := by
  have h := Holds.foldl_image hs (fun i => hc.of_mem_gates) w.holds_ground
  exact Holds.getElem? h (Simulation.size_evolved c) (Simulation.size_evolved d) hi

end Register.Placement

end Ket
