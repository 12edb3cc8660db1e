import Ket.Proofs.Amplitude.Ring
import Ket.Proofs.Operator.Unitary
import Ket.Proofs.Scalar.Exact
import Ket.Proofs.Simulation.Placement

/-! Operators on disjoint qubits. A setting of the qubits of one does not change the row of the
other, so over exact scalars both orders of two applications add up the same products, and
neighbouring instructions of a circuit that share no qubit may change places. -/

namespace Ket

namespace Register

variable {width : Nat} {qubits₁ qubits₂ : List Nat}

theorem row_neighbour_of_disjoint (hr : ∀ q ∈ qubits₁, q < width) (h : qubits₁.Disjoint qubits₂)
    (i c : Nat) : row width qubits₁ (neighbour width qubits₂ i c) = row width qubits₁ i := by
  have hrow : row width (qubits₁.map id) (neighbour width qubits₂ i c) = row width qubits₁ i :=
    row_congr fun q hq => value_neighbour_of_notMem (hr q hq) (h hq) i c
  rwa [List.map_id] at hrow

theorem neighbour_comm (h : qubits₁.Disjoint qubits₂) (i c₁ c₂ : Nat) :
    neighbour width qubits₁ (neighbour width qubits₂ i c₂) c₁ =
      neighbour width qubits₂ (neighbour width qubits₁ i c₁) c₂ := by
  refine eq_of_value (neighbour_lt _ _ _ _) (neighbour_lt _ _ _ _) fun q hq => ?_
  simp only [value_neighbour hq, List.idxOf_lt_length_iff]
  by_cases h₁ : q ∈ qubits₁
  · rw [if_pos h₁, if_neg (h h₁), if_pos h₁]
  · rw [if_neg h₁, if_neg h₁]

end Register

namespace Operator

variable {α : Type} [CommSemiring α]

variable {op₁ op₂ : Operator α} {width : Nat} {qubits₁ qubits₂ : List Nat}

/-- An amplitude after two applications, as a sum over the settings of the qubits of both. -/
theorem getD_embed_embed (hr : ∀ q ∈ qubits₁, q < width) (h : qubits₁.Disjoint qubits₂)
    (a : Array α) {i : Nat} (hi : i < 2 ^ width) :
    (op₂.embed width qubits₂ (op₁.embed width qubits₁ a)).getD i 0 =
      ∑ c₂ ∈ Finset.range (2 ^ op₂.arity), ∑ c₁ ∈ Finset.range (2 ^ op₁.arity),
        op₂.matrix.get (Register.row width qubits₂ i) c₂ *
          (op₁.matrix.get (Register.row width qubits₁ i) c₁ *
            a.getD (Register.neighbour width qubits₁ (Register.neighbour width qubits₂ i c₂) c₁)
              0) := by
  rw [getD_embed_eq_sum _ _ _ hi]
  refine Finset.sum_congr rfl fun c₂ _ => ?_
  rw [getD_embed_eq_sum _ _ _ (Register.neighbour_lt _ _ _ _), Finset.mul_sum,
    Register.row_neighbour_of_disjoint hr h]

theorem embed_comm (hr₁ : ∀ q ∈ qubits₁, q < width) (hr₂ : ∀ q ∈ qubits₂, q < width)
    (h : qubits₁.Disjoint qubits₂) (a : Array α) :
    op₂.embed width qubits₂ (op₁.embed width qubits₁ a) =
      op₁.embed width qubits₁ (op₂.embed width qubits₂ a) := by
  have hget (i : Nat) (hi : i < 2 ^ width) :
      (op₂.embed width qubits₂ (op₁.embed width qubits₁ a)).getD i 0 =
        (op₁.embed width qubits₁ (op₂.embed width qubits₂ a)).getD i 0 := by
    rw [getD_embed_embed hr₁ h a hi, getD_embed_embed hr₂ h.symm a hi, Finset.sum_comm]
    refine Finset.sum_congr rfl fun c₁ _ => Finset.sum_congr rfl fun c₂ _ => ?_
    rw [Register.neighbour_comm h, mul_left_comm]
  have hsize := size_embed op₂ width qubits₂ (op₁.embed width qubits₁ a)
  have hsize' := size_embed op₁ width qubits₁ (op₂.embed width qubits₂ a)
  refine Array.ext (hsize.trans hsize'.symm) fun i hi hi' => ?_
  have h := hget i (hsize ▸ hi)
  rwa [← Array.getElem_eq_getD (h := hi), ← Array.getElem_eq_getD (h := hi')] at h

end Operator

section Exchange

variable {F : Type} [Scalar F]

theorem Circuit.WellFormed.exchange {width : UInt32} {before after : List (Instruction F)}
    {x y : Instruction F}
    (hc : (⟨width, (before ++ [x, y] ++ after).toArray⟩ : Circuit F).WellFormed) :
    (⟨width, (before ++ [y, x] ++ after).toArray⟩ : Circuit F).WellFormed := by
  have hperm : (before ++ [y, x] ++ after).Perm (before ++ [x, y] ++ after) :=
    ((List.Perm.swap x y []).append_left before).append_right after
  refine ⟨hc.numQubits_pos, fun i hi => hc.instructions i ?_⟩
  rw [List.mem_toArray] at hi ⊢
  exact hperm.mem_iff.1 hi

variable [CommRing F]

theorem Instruction.image_comm {x y : Instruction F} {width : Nat} (hx : x.WellFormed width)
    (hy : y.WellFormed width) (h : x.qubits.Disjoint y.qubits) (a : Array (Amplitude F)) :
    y.image width (x.image width a) = x.image width (y.image width a) := by
  have hindex : (x.qubits.map (·.index)).Disjoint (y.qubits.map (·.index)) :=
    (List.disjoint_map fun _ _ => Qubit.index_inj.1) h
  rcases image_cases hx with ⟨-, himage₁⟩ | ⟨op₁, -, -, hq₁, himage₁⟩
  · rw [himage₁, himage₁]
  rcases image_cases hy with ⟨-, himage₂⟩ | ⟨op₂, -, -, hq₂, himage₂⟩
  · rw [himage₂, himage₂]
  rw [himage₁, himage₂, himage₂, himage₁]
  exact Operator.embed_comm hq₁.inRange hq₂.inRange hindex a

theorem Circuit.evolved_exchange {width : UInt32} {before after : List (Instruction F)}
    {x y : Instruction F}
    (hc : (⟨width, (before ++ [x, y] ++ after).toArray⟩ : Circuit F).WellFormed)
    (h : x.qubits.Disjoint y.qubits) :
    (⟨width, (before ++ [y, x] ++ after).toArray⟩ : Circuit F).evolved =
      (⟨width, (before ++ [x, y] ++ after).toArray⟩ : Circuit F).evolved := by
  have hx : x.WellFormed width.toNat := hc.instructions x (by simp)
  have hy : y.WellFormed width.toNat := hc.instructions y (by simp)
  simp only [evolved_eq_foldl, List.foldl_append, List.foldl_cons, List.foldl_nil, numQubits,
    Instruction.image_comm hx hy h]

namespace Simulation

/-- Two operators on disjoint qubits can be applied in either order, and so can two neighbouring
instructions of a circuit. -/
theorem disjoint_commute :
    (∀ op₁ op₂ : Operator (Amplitude F), op₁.WellFormed → op₂.WellFormed →
      ∀ (width : Nat) (qubits₁ qubits₂ : List Nat), op₁.Addresses width qubits₁ →
      op₂.Addresses width qubits₂ → qubits₁.Disjoint qubits₂ →
      ∀ a : Array (Amplitude F), a.size = 2 ^ width → ∀ strategy, ∃ st₁ st₂ st,
        (⟨width, a⟩ : State (Amplitude F)).apply op₁ qubits₁ strategy = .ok st₁ ∧
        st₁.apply op₂ qubits₂ strategy = .ok st ∧
        (⟨width, a⟩ : State (Amplitude F)).apply op₂ qubits₂ strategy = .ok st₂ ∧
        st₂.apply op₁ qubits₁ strategy = .ok st) ∧
    ∀ (width : UInt32) (before after : List (Instruction F)) (x y : Instruction F),
      (⟨width, (before ++ [x, y] ++ after).toArray⟩ : Circuit F).WellFormed →
      x.qubits.Disjoint y.qubits → ∀ (settings : Settings) (threads : Nat),
        (run settings threads ⟨width, (before ++ [y, x] ++ after).toArray⟩).result =
            (run settings threads ⟨width, (before ++ [x, y] ++ after).toArray⟩).result ∧
          (width.toNat ≤ min settings.maxQubits.toNat 63 →
            ∃ st, (run settings threads ⟨width, (before ++ [x, y] ++ after).toArray⟩).result =
              .ok st) := by
  refine ⟨?_, ?_⟩
  · intro op₁ op₂ hop₁ hop₂ width qubits₁ qubits₂ hq₁ hq₂ h a ha strategy
    refine ⟨_, _, _, State.apply_eq_embed hop₁ hq₁ ha strategy,
      State.apply_eq_embed hop₂ hq₂ (Operator.size_embed _ _ _ _) strategy,
      State.apply_eq_embed hop₂ hq₂ ha strategy, ?_⟩
    rw [State.apply_eq_embed hop₁ hq₁ (Operator.size_embed _ _ _ _) strategy]
    exact congrArg (fun b => Except.ok (State.mk width b))
      (Operator.embed_comm hq₁.inRange hq₂.inRange h a).symm
  · intro width before after x y hc h settings threads
    rcases Nat.lt_or_ge (limit settings) width.toNat with hwide | hfit
    · refine ⟨?_, fun hfit => absurd hwide (Nat.not_lt.2 hfit)⟩
      rw [result_of_wide hwide, result_of_wide hwide]
      rfl
    · refine ⟨?_, fun _ => ⟨_, result_of_fits hc hfit threads⟩⟩
      rw [result_of_fits hc hfit, result_of_fits hc.exchange hfit, Circuit.evolved_exchange hc h]
      rfl

/-- Qubit 1 lies between the two others. The operators are not unitary and the state is not
normalised. -/
theorem disjoint_commute_on_reals :
    (∃ st₁ st₂ st : State (Amplitude ℝ),
      State.apply ⟨3, #[1, .i, 0, 1, 0, .i, 1, 0]⟩ (.oneQubit 1 1 0 .i) [1] (.parallel 2) =
        .ok st₁ ∧
      st₁.apply (.crossed 1 .i 0 1 .i 1 1 0) [2, 0] (.parallel 2) = .ok st ∧
      State.apply ⟨3, #[1, .i, 0, 1, 0, .i, 1, 0]⟩ (.crossed 1 .i 0 1 .i 1 1 0) [2, 0]
        (.parallel 2) = .ok st₂ ∧
      st₂.apply (.oneQubit 1 1 0 .i) [1] (.parallel 2) = .ok st) ∧
    ∃ st, (run {} 4 (⟨3, #[.one .h (.ofNat 0), .two .ch (.ofNat 2) (.ofNat 0),
          .rotation .y 1 (.ofNat 1), .two .cx (.ofNat 0) (.ofNat 1)]⟩ : Circuit ℝ)).result =
        .ok st ∧
      (run {} 4 (⟨3, #[.one .h (.ofNat 0), .rotation .y 1 (.ofNat 1),
          .two .ch (.ofNat 2) (.ofNat 0), .two .cx (.ofNat 0) (.ofNat 1)]⟩ : Circuit ℝ)).result =
        .ok st := by
  obtain ⟨happly, hrun⟩ := disjoint_commute (F := ℝ)
  have hok : Circuit.ofInstructions 3 [.one .h (.ofNat 0), .rotation .y (1 : ℝ) (.ofNat 1),
      .two .ch (.ofNat 2) (.ofNat 0), .two .cx (.ofNat 0) (.ofNat 1)] =
      .ok ⟨3, #[.one .h (.ofNat 0), .rotation .y 1 (.ofNat 1),
        .two .ch (.ofNat 2) (.ofNat 0), .two .cx (.ofNat 0) (.ofNat 1)]⟩ := rfl
  refine ⟨?_, ?_⟩
  · have hop₁ := Operator.actsOn_oneQubit (1 : Amplitude ℝ) 1 0 .i
    have hop₂ := Operator.actsOn_crossed (1 : Amplitude ℝ) .i 0 1 .i 1 1 0
    exact happly _ _ hop₁.toWellFormed hop₂.toWellFormed 3 [1] [2, 0] ⟨rfl, by decide, by decide⟩
      ⟨rfl, by decide, by decide⟩ (List.singleton_disjoint.2 (by decide))
      #[1, .i, 0, 1, 0, .i, 1, 0] rfl (.parallel 2)
  · obtain ⟨hsame, hdone⟩ := hrun 3 [.one .h (.ofNat 0)] [.two .cx (.ofNat 0) (.ofNat 1)]
      (.rotation .y 1 (.ofNat 1)) (.two .ch (.ofNat 2) (.ofNat 0))
      (Circuit.wellFormed_of_ofInstructions hok) (List.singleton_disjoint.2 (by decide)) {} 4
    obtain ⟨st, hst⟩ := hdone (by decide)
    exact ⟨st, hsame.trans hst, hst⟩

end Simulation

end Exchange

end Ket
