import Mathlib.Logic.Equiv.Basic
import Mathlib.Tactic.IntervalCases
import Ket.Proofs.Amplitude.Turns
import Ket.Proofs.Operator.Embedding
import Ket.Proofs.Operator.Gates

/-! Operators that move basis states. Each column of such a matrix has one unit and is zero
elsewhere, so the operator takes a basis state with a phase to another one, and on binary64 every
other amplitude becomes zero with no sign left over. Numbers that agree with binary64 on the zeros
and one with both signs are moved alike. Of the gates, the Hadamard gates, the eighth turn and the
rotations are not of this kind. -/

namespace Ket

namespace Register

variable {width : Nat} {qubits : List Nat}

/-- The qubits that are not addressed have the same values. -/
def AgreeOff (width : Nat) (qubits : List Nat) (i j : Nat) : Prop :=
  ∀ q < width, q ∉ qubits → value width i q = value width j q

instance (width : Nat) (qubits : List Nat) (i j : Nat) : Decidable (AgreeOff width qubits i j) :=
  inferInstanceAs (Decidable (∀ q < width, q ∉ qubits → value width i q = value width j q))

theorem AgreeOff.symm {i j : Nat} (h : AgreeOff width qubits i j) : AgreeOff width qubits j i :=
  fun q hq hm => (h q hq hm).symm

theorem testBit_row (i : Nat) {t : Nat} (ht : t < qubits.length) :
    (row width qubits i).testBit (qubits.length - 1 - t) = value width i qubits[t] := by
  have hcount := Support.count_onQubits width qubits
  have h := Support.testBit_localIndex (.onQubits width qubits) i (t := t) (by rwa [← hcount] at ht)
  rw [Support.localIndex_onQubits] at h
  simpa [Support.onQubits, value] using h

variable (hd : qubits.Nodup) (hr : ∀ q ∈ qubits, q < width)

include hd hr

theorem row_neighbour {i c : Nat} (hi : i < 2 ^ width) (hc : c < 2 ^ qubits.length) :
    row width qubits (neighbour width qubits i c) = c := by
  rw [← Support.clear_or_deposit_onQubits hd hr hi, ← Support.localIndex_onQubits]
  refine Support.localIndex_or_deposit (Support.nodup_onQubits hd hr) (Support.clear_clear _ _) ?_
  rwa [Support.count_onQubits]

/-- The neighbours of an index are the indices that agree with it off the addressed qubits, each
for its own row. -/
theorem neighbour_eq_iff {i j c : Nat} (hi : i < 2 ^ width) (hj : j < 2 ^ width)
    (hc : c < 2 ^ qubits.length) :
    neighbour width qubits i c = j ↔ AgreeOff width qubits i j ∧ c = row width qubits j := by
  constructor
  · rintro rfl
    refine ⟨fun q hq hm => (value_neighbour_of_notMem hq hm i c).symm, ?_⟩
    exact (row_neighbour hd hr hi hc).symm
  · rintro ⟨hoff, rfl⟩
    refine eq_of_value (neighbour_lt _ _ _ _) hj fun q hq => ?_
    by_cases hm : q ∈ qubits
    · obtain ⟨t, ht, rfl⟩ := List.getElem_of_mem hm
      rw [value_neighbour_getElem hd hr i _ ht, testBit_row j ht]
    · rw [value_neighbour_of_notMem hq hm, hoff q hq hm]

theorem neighbour_row {i : Nat} (hi : i < 2 ^ width) :
    neighbour width qubits i (row width qubits i) = i :=
  (neighbour_eq_iff hd hr hi hi (row_lt width qubits i)).2 ⟨fun _ _ _ => rfl, rfl⟩

end Register

namespace Operator

section Moves

variable {F : Type} [Zero F] [One F] [Neg F]

/-- The unit in column `c` stands in row `target c`. -/
structure Moves (op : Operator (Amplitude F)) (arity : Nat) (target : Nat → Nat)
    (turns : Nat → Fin 4) : Prop where
  arity_eq : op.arity = arity
  target_lt : ∀ c < 2 ^ arity, target c < 2 ^ arity
  get_eq : ∀ r < 2 ^ arity, ∀ c < 2 ^ arity,
    op.matrix.get r c = .entry (if r = target c then some (turns c) else none)

theorem Moves.congr {op : Operator (Amplitude F)} {arity : Nat} {target target' : Nat → Nat}
    {turns turns' : Nat → Fin 4} (h : op.Moves arity target turns)
    (heq : ∀ c < 2 ^ arity, target c = target' c ∧ turns c = turns' c) :
    op.Moves arity target' turns' := by
  refine ⟨h.arity_eq, fun c hc => ?_, fun r hr c hc => ?_⟩
  · rw [← (heq c hc).1]
    exact h.target_lt c hc
  · rw [h.get_eq r hr c hc, (heq c hc).1, (heq c hc).2]

theorem moves_diagonal (s t : Fin 4) :
    (oneQubit (.unit s) 0 0 (.unit t) : Operator (Amplitude F)).Moves 1 id
      fun c => if c = 0 then s else t := by
  refine ⟨rfl, fun c hc => hc, fun r (hr : r < 2) c (hc : c < 2) => ?_⟩
  interval_cases r <;> interval_cases c <;> rfl

/-- The unit of column 0 is in row 1. -/
theorem moves_antidiagonal (s t : Fin 4) :
    (oneQubit 0 (.unit t) (.unit s) 0 : Operator (Amplitude F)).Moves 1 (Equiv.swap 0 1)
      fun c => if c = 0 then s else t := by
  refine ⟨rfl, by decide, fun r (hr : r < 2) c (hc : c < 2) => ?_⟩
  interval_cases r <;> interval_cases c <;> rfl

omit [Neg F] in
theorem get_exchange {arity a b r c : Nat} (hr : r < 2 ^ arity) (hc : c < 2 ^ arity) :
    (exchange arity a b : Operator (Amplitude F)).matrix.get r c =
      if r = Equiv.swap a b c then 1 else 0 := by
  have hdim : 1 <<< arity = 2 ^ arity := Nat.one_shiftLeft arity
  rw [exchange, Grid.get_ofFn (hdim ▸ hr) (hdim ▸ hc), Equiv.swap_apply_def]

theorem moves_exchange {arity a b : Nat} (ha : a < 2 ^ arity) (hb : b < 2 ^ arity) :
    (exchange arity a b : Operator (Amplitude F)).Moves arity (Equiv.swap a b) fun _ => 0 := by
  refine ⟨rfl, fun c hc => ?_, fun r hr c hc => ?_⟩
  · rw [Equiv.swap_apply_def]
    split_ifs <;> assumption
  · rw [get_exchange hr hc]
    split_ifs <;> rfl

/-- The pair of basis states 11 gets a phase. -/
theorem moves_crossed (t : Fin 4) :
    (crossed 1 1 1 (.unit t) 0 0 0 0 : Operator (Amplitude F)).Moves 2 id
      fun c => if c = 0b11 then t else 0 := by
  refine ⟨rfl, fun c hc => hc, fun r (hr : r < 4) c (hc : c < 4) => ?_⟩
  interval_cases r <;> interval_cases c <;> rfl

/-- Where the control is 0 nothing moves. -/
theorem Moves.controlled {op op' : Operator (Amplitude F)} {arity : Nat} {target : Nat → Nat}
    {turns : Nat → Fin 4} (h : op.Moves arity target turns) (hle : arity ≤ 2)
    (h' : op.controlled = .ok op') : op'.Moves (arity + 1)
      (fun c => if 2 ^ arity ≤ c then 2 ^ arity + target (c - 2 ^ arity) else c)
      (fun c => if 2 ^ arity ≤ c then turns (c - 2 ^ arity) else 0) := by
  obtain ⟨op'', hok, hacts⟩ := exists_controlled (h.arity_eq.trans_le hle)
  obtain rfl : op' = op'' := Except.ok.inj (h'.symm.trans hok)
  have hdim : op.dim = 2 ^ arity := by rw [dim, Nat.one_shiftLeft, h.arity_eq]
  have hpow : 2 ^ (arity + 1) = 2 ^ arity + 2 ^ arity := by rw [Nat.pow_succ, Nat.mul_two]
  refine ⟨hacts.arity_eq.trans (congrArg _ h.arity_eq), fun c hc => ?_, fun r hr c hc => ?_⟩
  · rw [hpow] at hc ⊢
    split
    · have := h.target_lt (c - 2 ^ arity) (by omega)
      omega
    · exact hc
  · rw [hpow] at hr hc
    rw [get_controlled h' (by omega) (by omega), hdim]
    by_cases hcd : 2 ^ arity ≤ c
    · by_cases hrd : 2 ^ arity ≤ r
      · have hrow : r - 2 ^ arity = target (c - 2 ^ arity) ↔
            r = 2 ^ arity + target (c - 2 ^ arity) := by omega
        rw [if_pos ⟨hrd, hcd⟩, h.get_eq _ (by omega) _ (by omega)]
        simp only [if_pos hcd, hrow]
      · rw [if_neg (by omega), if_neg (by omega)]
        simp only [if_pos hcd]
        rw [if_neg (by omega)]
        rfl
    · rw [if_neg (by omega)]
      simp only [if_neg hcd]
      split_ifs <;> rfl

end Moves

end Operator

namespace Register

variable {F : Type} [Zero F] [One F] [Neg F]

/-- One basis state with a phase. Every other amplitude is zero in both parts, without a sign. -/
def basis (width idx : Nat) (t : Fin 4) : Array (Amplitude F) :=
  Array.ofFn fun i : Fin (2 ^ width) => if i.val = idx then .turned t else 0

theorem getElem?_basis {width idx i : Nat} (t : Fin 4) (hi : i < 2 ^ width) :
    (basis width idx t : Array (Amplitude F))[i]? = some (if i = idx then .turned t else 0) := by
  rw [basis, Array.getElem?_ofFn, dif_pos hi]

theorem getD_basis {width idx i : Nat} (t : Fin 4) (hi : i < 2 ^ width) :
    (basis width idx t : Array (Amplitude F)).getD i 0 =
      .settled (if i = idx then some t else none) := by
  rw [Array.getD_eq_getD_getElem?, getElem?_basis t hi, Option.getD_some]
  split_ifs <;> rfl

end Register

namespace Operator

variable {F : Type} [Zero F] [One F] [Add F] [Sub F] [Mul F] [Neg F]

open Register in
/-- A basis state goes to the basis state in which the addressed qubits have their new values. -/
theorem Moves.embed_basis {op : Operator (Amplitude F)} {target : Nat → Nat}
    {turns : Nat → Fin 4} {qubits : List Nat} (h : op.Moves qubits.length target turns)
    {of : Float → F} (hof : Amplitude.AgreesOnUnits of) {width : Nat} (hd : qubits.Nodup)
    (hr : ∀ q ∈ qubits, q < width) {idx : Nat} (hidx : idx < 2 ^ width) (t : Fin 4) :
    op.embed width qubits (basis width idx t) =
      basis width (neighbour width qubits idx (target (row width qubits idx)))
        (turns (row width qubits idx) + t) := by
  have hcol := row_lt width qubits idx
  have htarget := h.target_lt _ hcol
  refine Array.ext_getElem? fun i => ?_
  by_cases hi : i < 2 ^ width
  swap
  · simp [embed, basis, hi]
  rw [getElem?_embed op qubits _ hi, getElem?_basis _ hi, h.arity_eq]
  congr 1
  -- Only the term of the row of `idx` is not zero, and only if the other qubits agree.
  have hterm : ∀ c < 2 ^ qubits.length, op.matrix.get (row width qubits i) c *
      (basis width idx t : Array (Amplitude F)).getD (neighbour width qubits i c) 0 =
        .entry (if row width qubits i = target c then some (turns c) else none) *
          .settled (if AgreeOff width qubits i idx ∧ c = row width qubits idx then some t
            else none) := by
    intro c hc
    rw [h.get_eq _ (row_lt width qubits i) c hc, getD_basis t (neighbour_lt _ _ _ _),
      if_congr (neighbour_eq_iff hd hr hi hidx hc) rfl rfl]
  have hplace : i = neighbour width qubits idx (target (row width qubits idx)) ↔
      AgreeOff width qubits i idx ∧ row width qubits i = target (row width qubits idx) := by
    rw [eq_comm, neighbour_eq_iff hd hr hidx hi htarget, eq_comm (a := target _)]
    exact and_congr_left' ⟨AgreeOff.symm, AgreeOff.symm⟩
  rw [Grid.total_congr hterm, hof.total_entry_mul_settled, if_congr hplace rfl rfl]
  by_cases hoff : AgreeOff width qubits i idx <;>
    by_cases hrow : row width qubits i = target (row width qubits idx) <;>
    simp [hoff, hrow, hcol, Amplitude.settled]

end Operator

end Ket
