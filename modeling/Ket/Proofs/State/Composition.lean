import Ket.Proofs.Operator.Product
import Ket.Proofs.Simulation.Run

/-! Applications at the same qubits, one after the other, over exact scalars. They compose as the
matrices do, in the order of the matrix product, so the identity changes nothing and the adjoint of
a unitary operator takes its application back. -/

namespace Ket.State

variable {F : Type} [CommRing F] {op op' : Operator (Amplitude F)} {width : Nat} {qubits : List Nat}
  {a : Array (Amplitude F)}

/-- An operator whose product with another one is the identity takes the other one back. -/
theorem apply_inverse (hop : op.WellFormed) (hop' : op'.WellFormed) (harity : op.arity = op'.arity)
    (hinv : op'.mul op = .identityOn op.arity) (hq : op.Addresses width qubits)
    (ha : a.size = 2 ^ width) (strategy strategy' : Strategy) :
    ∃ st, apply ⟨width, a⟩ op qubits strategy = .ok st ∧
      st.apply op' qubits strategy' = .ok ⟨width, a⟩ := by
  have hq' := hq.congr harity
  have hid : (Operator.identityOn op.arity).Addresses width qubits := hq.congr rfl
  refine ⟨_, apply_eq_embed hop hq ha strategy, ?_⟩
  rw [apply_eq_embed hop' hq' (Operator.size_embed _ _ _ _), ← Operator.embed_mul hop' hop hq' hq,
    hinv, Operator.embed_identityOn hid ha]

/-- The product of two matrices is the matrix of both applications, the second factor being applied
first. The identity keeps every state, and the adjoint takes a unitary operator back. -/
theorem apply_composes :
    (∀ op₁ op₂ : Operator (Amplitude F), op₁.WellFormed → op₂.WellFormed → op₁.arity = op₂.arity →
      ∃ op, Operator.ofGrid (op₂.matrix.mul op₁.matrix) = .ok op ∧
        ∀ (width : Nat) (qubits : List Nat), op₁.Addresses width qubits →
        ∀ a : Array (Amplitude F), a.size = 2 ^ width → ∀ strategy₁ strategy₂ strategy, ∃ st₁ st,
          apply ⟨width, a⟩ op₁ qubits strategy₁ = .ok st₁ ∧
          st₁.apply op₂ qubits strategy₂ = .ok st ∧
          apply ⟨width, a⟩ op qubits strategy = .ok st) ∧
    (∀ count, 1 ≤ count → count ≤ 3 →
      ∃ op : Operator (Amplitude F), Operator.ofGrid (.identity (2 ^ count)) = .ok op ∧
        op.arity = count ∧ ∀ (width : Nat) (qubits : List Nat), op.Addresses width qubits →
        ∀ a : Array (Amplitude F), a.size = 2 ^ width → ∀ strategy,
          apply ⟨width, a⟩ op qubits strategy = .ok ⟨width, a⟩) ∧
    ∀ op : Operator (Amplitude F), op.WellFormed → op.Unitary →
      ∃ op', Operator.ofGrid op.adjoint.matrix = .ok op' ∧
        ∀ (width : Nat) (qubits : List Nat), op.Addresses width qubits →
        ∀ a : Array (Amplitude F), a.size = 2 ^ width → ∀ strategy strategy', ∃ st,
          apply ⟨width, a⟩ op qubits strategy = .ok st ∧
          st.apply op' qubits strategy' = .ok ⟨width, a⟩ := by
  refine ⟨?_, ?_, ?_⟩
  · intro op₁ op₂ h₁ h₂ harity
    have hmul := h₂.mul h₁ harity
    refine ⟨_, hmul.ofGrid_eq, fun width qubits hq₁ a ha strategy₁ strategy₂ strategy => ?_⟩
    have hq₂ := hq₁.congr harity
    have hq : (op₂.mul op₁).Addresses width qubits := hq₂.congr rfl
    refine ⟨_, _, apply_eq_embed h₁ hq₁ ha strategy₁,
      apply_eq_embed h₂ hq₂ (Operator.size_embed _ _ _ _) strategy₂, ?_⟩
    rw [apply_eq_embed hmul hq ha, Operator.embed_mul h₂ h₁ hq₂ hq₁]
  · intro count hpos hle
    have hid := Operator.wellFormed_identityOn (α := Amplitude F) hpos hle
    refine ⟨_, hid.ofGrid_eq, rfl, fun width qubits hq a ha strategy => ?_⟩
    rw [apply_eq_embed hid hq ha, Operator.embed_identityOn hq ha]
  · intro op hop hu
    refine ⟨_, hop.adjoint.ofGrid_eq, fun width qubits hq a ha strategy strategy' => ?_⟩
    exact apply_inverse hop hop.adjoint rfl (hu.adjoint_mul_eq hop) hq ha strategy strategy'

/-- Factors that do not commute, on a qubit in the middle, the identity on two qubits in descending
order, and a quarter turn that is not its own adjoint. -/
theorem apply_composes_on_three :
    (∃ (op : Operator (Amplitude ℤ)) (st₁ st : State (Amplitude ℤ)),
      Operator.ofGrid ((Operator.oneQubit 1 0 .i 1).matrix.mul (Operator.oneQubit 1 2 0 1).matrix) =
        .ok op ∧
      apply ⟨3, #[1, 2, 3, 4, 5, 6, 7, .i]⟩ (.oneQubit 1 2 0 1) [1] .sequential = .ok st₁ ∧
      st₁.apply (.oneQubit 1 0 .i 1) [1] (.parallel 2) = .ok st ∧
      apply ⟨3, #[1, 2, 3, 4, 5, 6, 7, .i]⟩ op [1] (.parallel 64) = .ok st) ∧
    (∃ op : Operator (Amplitude ℤ), Operator.ofGrid (.identity 4) = .ok op ∧
      apply ⟨3, #[1, 2, 3, 4, 5, 6, 7, .i]⟩ op [2, 0] (.parallel 2) =
        .ok ⟨3, #[1, 2, 3, 4, 5, 6, 7, .i]⟩) ∧
    ∃ (op' : Operator (Amplitude ℤ)) (st : State (Amplitude ℤ)),
      Operator.ofGrid (Operator.oneQubit 0 (-1) 1 0).adjoint.matrix = .ok op' ∧
      apply ⟨3, #[1, 2, 3, 4, 5, 6, 7, .i]⟩ (.oneQubit 0 (-1) 1 0) [2] .sequential = .ok st ∧
      st.apply op' [2] .sequential = .ok ⟨3, #[1, 2, 3, 4, 5, 6, 7, .i]⟩ := by
  obtain ⟨hmul, hid, hadj⟩ := apply_composes (F := ℤ)
  refine ⟨?_, ?_, ?_⟩
  · have h₁ := Operator.actsOn_oneQubit (1 : Amplitude ℤ) 2 0 1
    have h₂ := Operator.actsOn_oneQubit (1 : Amplitude ℤ) 0 .i 1
    obtain ⟨op, hop, h⟩ := hmul _ _ h₁.toWellFormed h₂.toWellFormed rfl
    obtain ⟨st₁, st, hst₁, hst, hboth⟩ := h 3 [1] ⟨rfl, by decide, by decide⟩
      #[1, 2, 3, 4, 5, 6, 7, .i] rfl .sequential (.parallel 2) (.parallel 64)
    exact ⟨op, st₁, st, hop, hst₁, hst, hboth⟩
  · obtain ⟨op, hop, harity, h⟩ := hid 2 (by decide) (by decide)
    exact ⟨op, hop, h 3 [2, 0] ⟨harity.symm, by decide, by decide⟩ _ rfl (.parallel 2)⟩
  · have h := Operator.actsOn_oneQubit (0 : Amplitude ℤ) (-1) 1 0
    have hu : (Operator.oneQubit (0 : Amplitude ℤ) (-1) 1 0).Unitary :=
      show ∀ r < 2, ∀ c < 2, _ by decide +kernel
    obtain ⟨op', hop', h⟩ := hadj _ h.toWellFormed hu
    obtain ⟨st, hst, hst'⟩ := h 3 [2] ⟨rfl, by decide, by decide⟩ #[1, 2, 3, 4, 5, 6, 7, .i] rfl
      .sequential .sequential
    exact ⟨op', st, hop', hst, hst'⟩

end Ket.State
