import Ket.Proofs.Application.Unitary
import Ket.Proofs.Operator.UnitaryGates
import Ket.Proofs.Scalar.Exact
import Ket.Proofs.Simulation.Run

/-! Runs over exact scalars keep norms and inner products. The operator of every gate is unitary as
soon as the cosines and sines of the angles are points of the unit circle, so every step keeps the
inner product of two states, and a run that starts in a state of norm one ends in one. -/

namespace Ket

variable {F : Type} [CommRing F]

namespace Operator

variable {op : Operator (Amplitude F)} {width : Nat} {qubits : List Nat}
  {a b : Array (Amplitude F)}

theorem overlap_members_embed (hop : op.WellFormed) (hu : op.Unitary)
    (hq : op.Addresses width qubits) (ha : a.size = 2 ^ width) (hb : b.size = 2 ^ width)
    {rep : Nat} (hrep : rep ∈ (Support.onQubits width qubits).representatives (2 ^ width)) :
    Register.overlap ((Support.onQubits width qubits).members rep) (op.embed width qubits a)
        (op.embed width qubits b) =
      Register.overlap ((Support.onQubits width qubits).members rep) a b := by
  rw [← applySequentially_eq_embed hop hq ha, ← applySequentially_eq_embed hop hq hb]
  exact overlap_members_applySequentially (hq.fits hop) hu (hq.valid hop).inRange
    (ha ▸ Nat.dvd_refl _) (hb.trans ha.symm) (ha ▸ hrep)

theorem overlap_range_embed (hop : op.WellFormed) (hu : op.Unitary)
    (hq : op.Addresses width qubits) (ha : a.size = 2 ^ width) (hb : b.size = 2 ^ width) :
    Register.overlap (List.range (2 ^ width)) (op.embed width qubits a)
        (op.embed width qubits b) =
      Register.overlap (List.range (2 ^ width)) a b := by
  rw [← applySequentially_eq_embed hop hq ha, ← applySequentially_eq_embed hop hq hb, ← ha]
  exact overlap_range_applySequentially (hq.fits hop) hu (hq.valid hop).inRange
    (ha ▸ Nat.dvd_refl _) (hb.trans ha.symm)

end Operator

/-- Only the first amplitude counts, and it is one. -/
theorem Register.weight_ground (width : Nat) :
    weight (List.range (2 ^ width)) (ground width : Array (Amplitude F)) = 1 := by
  have hget (i : Nat) (hi : i < 2 ^ width) :
      (ground width : Array (Amplitude F)).getD i 0 = if i = 0 then 1 else 0 := by
    simp [ground, Array.getD_eq_getD_getElem?, hi]
  change ∑ i ∈ Finset.range (2 ^ width), _ = _
  rw [Finset.sum_eq_single 0]
  · rw [hget 0 (Nat.two_pow_pos width), if_pos rfl]
    simp [Amplitude.normSq]
  · intro i hi hne
    rw [hget i (Finset.mem_range.1 hi), if_neg hne]
    simp [Amplitude.normSq]
  · intro h
    exact absurd (Finset.mem_range.2 (Nat.two_pow_pos width)) h

section Run

variable [Scalar F]

/-- What the angle of an instruction must give for its operator to be unitary. -/
def Instruction.Exact (i : Instruction F) : Prop :=
  ∀ θ ∈ i.angle?, Scalar.OnCircle (Scalar.half θ) ∧ Scalar.Mirrored (Scalar.half θ)

/-- One step. -/
theorem Instruction.overlap_image
    (hroot : (2 : F) * (Scalar.invSqrtTwo * Scalar.invSqrtTwo) = 1)
    (hpi : Scalar.OnCircle (Scalar.quarterPi : F)) {i : Instruction F} {width : Nat}
    (hi : i.WellFormed width) (hexact : i.Exact) {a b : Array (Amplitude F)}
    (ha : a.size = 2 ^ width) (hb : b.size = 2 ^ width) :
    Register.overlap (List.range (2 ^ width)) (i.image width a) (i.image width b) =
      Register.overlap (List.range (2 ^ width)) a b := by
  cases hm : i.isMeasure with
  | true => rw [image_of_isMeasure hm, image_of_isMeasure hm]
  | false =>
    obtain ⟨op, hop, hacts⟩ := Operator.exists_ofInstruction? hi hm
    have hu := Operator.unitary_of_ofInstruction? hroot hpi hexact hop
    simp only [image, hop]
    exact Operator.overlap_range_embed hacts.toWellFormed hu (hacts.addresses hi) ha hb

namespace Simulation

theorem overlap_foldl_image (hroot : (2 : F) * (Scalar.invSqrtTwo * Scalar.invSqrtTwo) = 1)
    (hpi : Scalar.OnCircle (Scalar.quarterPi : F)) {width : Nat} {is : List (Instruction F)}
    (his : ∀ i ∈ is, i.WellFormed width ∧ i.Exact) {a b : Array (Amplitude F)}
    (ha : a.size = 2 ^ width) (hb : b.size = 2 ^ width) :
    Register.overlap (List.range (2 ^ width)) (is.foldl (fun a i => i.image width a) a)
        (is.foldl (fun a i => i.image width a) b) =
      Register.overlap (List.range (2 ^ width)) a b := by
  induction is generalizing a b with
  | nil => rfl
  | cons i is ih =>
    obtain ⟨⟨hi, hexact⟩, his⟩ := List.forall_mem_cons.1 his
    rw [List.foldl_cons, List.foldl_cons,
      ih his (Instruction.size_image ha) (Instruction.size_image hb),
      Instruction.overlap_image hroot hpi hi hexact ha hb]

theorem normSq_evolved (hroot : (2 : F) * (Scalar.invSqrtTwo * Scalar.invSqrtTwo) = 1)
    (hpi : Scalar.OnCircle (Scalar.quarterPi : F)) {c : Circuit F} (hc : c.WellFormed)
    (hexact : ∀ i ∈ c.instructions, i.Exact) :
    (⟨c.numQubits, c.evolved⟩ : State (Amplitude F)).normSq = 1 := by
  have his : ∀ i ∈ c.gates, i.WellFormed c.numQubits ∧ i.Exact := by
    intro i hi
    have hmem := Array.mem_toList_iff.1 (List.mem_of_mem_filter hi)
    exact ⟨hc.instructions i hmem, hexact i hmem⟩
  have hground := Register.size_ground (α := Amplitude F) c.numQubits
  have hsize : c.evolved.size = 2 ^ c.numQubits := size_foldl_image _ hground
  rw [State.normSq_eq_weight _ hsize, ← Register.weight_ground c.numQubits]
  exact Register.weight_eq_of_overlap_eq (overlap_foldl_image hroot hpi his hground hground)

/-- Applying a unitary operator keeps inner products and squared norms, on every class and on the
whole register, and a run ends in a state of norm one. -/
theorem norm_and_inner_preserved :
    (∀ op : Operator (Amplitude F), op.WellFormed → op.Unitary → ∀ (width : Nat)
      (qubits : List Nat), op.Addresses width qubits → ∀ a b : Array (Amplitude F),
      a.size = 2 ^ width → b.size = 2 ^ width → ∀ strategy, ∃ s a' b' z,
        Support.ofQubits width qubits = .ok s ∧
        (⟨width, a⟩ : State (Amplitude F)).apply op qubits strategy = .ok ⟨width, a'⟩ ∧
        (⟨width, b⟩ : State (Amplitude F)).apply op qubits strategy = .ok ⟨width, b'⟩ ∧
        (∀ rep ∈ s.representatives (2 ^ width),
          Register.overlap (s.members rep) a' b' = Register.overlap (s.members rep) a b ∧
          Register.weight (s.members rep) a' = Register.weight (s.members rep) a) ∧
        State.inner ⟨width, a⟩ ⟨width, b⟩ = .ok z ∧
        State.inner ⟨width, a'⟩ ⟨width, b'⟩ = .ok z ∧
        State.normSq ⟨width, a'⟩ = State.normSq ⟨width, a⟩) ∧
    ((2 : F) * (Scalar.invSqrtTwo * Scalar.invSqrtTwo) = 1 →
      Scalar.OnCircle (Scalar.quarterPi : F) → ∀ c : Circuit F, c.WellFormed →
      (∀ i ∈ c.instructions, i.Exact) → ∀ (settings : Settings) (threads : Nat),
      c.numQubits ≤ min settings.maxQubits.toNat 63 →
        ∃ st, (run settings threads c).result = .ok st ∧ st.normSq = 1) := by
  refine ⟨?_, ?_⟩
  · intro op hop hu width qubits hq a b ha hb strategy
    have hsize := Operator.size_embed op width qubits
    have htotal := Operator.overlap_range_embed hop hu hq ha hb
    have hself := Operator.overlap_range_embed hop hu hq ha ha
    refine ⟨_, _, _, _, hq.ofQubits hop, State.apply_eq_embed hop hq ha strategy,
      State.apply_eq_embed hop hq hb strategy, fun rep hrep => ⟨?_, ?_⟩,
      State.inner_eq_overlap width ha hb, ?_, ?_⟩
    · exact Operator.overlap_members_embed hop hu hq ha hb hrep
    · exact Register.weight_eq_of_overlap_eq (Operator.overlap_members_embed hop hu hq ha ha hrep)
    · rw [State.inner_eq_overlap width (hsize a) (hsize b), htotal]
    · rw [State.normSq_eq_weight width (hsize a), State.normSq_eq_weight width ha]
      exact Register.weight_eq_of_overlap_eq hself
  · intro hroot hpi c hc hexact settings threads hfit
    exact ⟨_, result_of_fits hc hfit threads, normSq_evolved hroot hpi hc hexact⟩

/-- On the real numbers, with angles of one radian. The first two states are not normalised. -/
theorem norm_and_inner_preserved_on_reals :
    (∃ a b : Array (Amplitude ℝ),
      State.apply ⟨2, #[1, 0, 0, .i]⟩ (Operator.rotation .y (1 : ℝ)) [1] .sequential =
        .ok ⟨2, a⟩ ∧
      State.apply ⟨2, #[0, 0, 1, .i]⟩ (Operator.rotation .y (1 : ℝ)) [1] .sequential =
        .ok ⟨2, b⟩ ∧
      State.inner ⟨2, a⟩ ⟨2, b⟩ = .ok 1 ∧ State.normSq ⟨2, a⟩ = 2) ∧
    ∃ c : Circuit ℝ, c.instructions = #[.one .h (.ofNat 0), .rotation .z 1 (.ofNat 1),
        .measure (.ofNat 0), .pairRotation .y 1 (.ofNat 1) (.ofNat 0),
        .two .ch (.ofNat 0) (.ofNat 1)] ∧
      ∃ st, (run {} 4 c).result = .ok st ∧ st.normSq = 1 := by
  obtain ⟨happly, hrun⟩ := norm_and_inner_preserved (F := ℝ)
  refine ⟨?_, ?_⟩
  · have hu : (Operator.rotation .y (1 : ℝ)).Unitary :=
      Operator.unitary_rotation (Scalar.onCircle_real _) (Scalar.mirrored_real _) .y
    obtain ⟨s, a, b, z, -, ha, hb, -, hz, hz', hnorm⟩ :=
      happly _ (Operator.actsOn_rotation .y 1).toWellFormed hu 2 [1] ⟨rfl, by decide, by decide⟩
        #[1, 0, 0, .i] #[0, 0, 1, .i] rfl rfl .sequential
    have hrange : List.range 4 = [0, 1, 2, 3] := rfl
    refine ⟨a, b, ha, hb, ?_, hnorm.trans ?_⟩
    · rw [hz', ← hz, State.inner_eq_overlap (n := 4) 2 rfl rfl, Register.overlap, hrange]
      refine congrArg Except.ok (Amplitude.ext ?_ ?_) <;> simp [Amplitude.i]
    · rw [State.normSq_eq_weight (n := 4) 2 rfl, Register.weight, hrange]
      norm_num [Amplitude.normSq, Amplitude.i]
  · have hc : Circuit.ofInstructions 2 [.one .h (.ofNat 0), .rotation .z (1 : ℝ) (.ofNat 1),
        .measure (.ofNat 0), .pairRotation .y 1 (.ofNat 1) (.ofNat 0),
        .two .ch (.ofNat 0) (.ofNat 1)] = .ok ⟨2, _⟩ := rfl
    exact ⟨_, rfl, hrun Scalar.invSqrtTwo_real (Scalar.onCircle_real _) _
      (Circuit.wellFormed_of_ofInstructions hc)
      (fun i _ θ _ => ⟨Scalar.onCircle_real _, Scalar.mirrored_real _⟩) {} 4 (by decide)⟩

end Simulation

end Run

end Ket
