import Ket.Simulation
import Ket.Proofs.Application.Parallel
import Ket.Proofs.Circuit.Reachable
import Ket.Proofs.Operator.Gates

/-! What a run computes. Every gate of the circuit is applied as an operator on the whole register,
in order, and neither the settings nor the threads nor the measurements have a say in the result. A
circuit that passed the checks can only be refused for its width. -/

namespace Ket

/-- The amplitudes when all qubits are 0. -/
def Register.ground {α : Type} [Zero α] [One α] (width : Nat) : Array α :=
  Array.ofFn fun i : Fin (2 ^ width) => if i.val = 0 then 1 else 0

theorem Register.size_ground {α : Type} [Zero α] [One α] (width : Nat) :
    (Register.ground width : Array α).size = 2 ^ width := Array.size_ofFn

theorem Register.getD_ground {α : Type} [Zero α] [One α] {width i : Nat} (hi : i < 2 ^ width) :
    (Register.ground width : Array α).getD i 0 = if i = 0 then 1 else 0 := by
  rw [Array.getD_eq_getD_getElem?, Register.ground, Array.getElem?_ofFn, dif_pos hi,
    Option.getD_some]

namespace State

variable {α : Type} [Zero α]

theorem zero_eq_ok [One α] {width : Nat} (hpos : 0 < width) (hle : width ≤ maxWidth) :
    zero width = .ok (⟨width, Register.ground width⟩ : State α) := by
  rw [zero, if_neg (by omega)]
  congr 2
  refine Array.ext_getElem? fun i => ?_
  rw [Register.ground, Array.getElem?_ofFn, Array.getElem?_setIfInBounds, Nat.one_shiftLeft]
  by_cases hi : i < 2 ^ width
  · rcases Nat.eq_zero_or_pos i with rfl | hi'
    · simp
    · simp [hi, Nat.ne_of_gt hi', (Nat.ne_of_gt hi').symm]
  · have hpos := Nat.two_pow_pos width
    simp [hi, show 0 ≠ i by omega]

variable [Add α] [Mul α]

theorem apply_eq_embed {op : Operator α} (hop : op.WellFormed) {width : Nat} {qubits : List Nat}
    (hq : op.Addresses width qubits) {a : Array α} (ha : a.size = 2 ^ width)
    (strategy : Strategy) :
    (⟨width, a⟩ : State α).apply op qubits strategy = .ok ⟨width, op.embed width qubits a⟩ := by
  have hcount : op.arity = (Support.onQubits width qubits).count := by
    rw [Support.count_onQubits, hq.length]
  have happly : op.apply (.onQubits width qubits) strategy a = .ok (op.embed width qubits a) := by
    cases strategy with
    | sequential =>
      simp only [Operator.apply, if_pos hcount, Operator.applySequentially_eq_embed hop hq ha]
    | parallel threads =>
      have hs := hq.valid hop
      have hpar := Operator.applyInParallel_eq (hq.fits hop) hs.positions_ne_nil hs.inRange
        (ha ▸ Nat.dvd_refl _) threads (a := a)
      simp only [Operator.apply, if_pos hcount, hpar,
        Operator.applySequentially_eq_embed hop hq ha]
  simp only [apply, hq.ofQubits hop, happly]

end State

variable {F : Type}

theorem Operator.ActsOn.addresses {α : Type} {op : Operator α} {width : Nat} {i : Instruction F}
    [Scalar F] (hop : op.ActsOn i.qubits.length) (hi : i.WellFormed width) :
    op.Addresses width (i.qubits.map (·.index)) where
  length := by rw [List.length_map, hop.arity_eq]
  distinct := hi.distinct.map fun _ _ h => Qubit.index_inj.1 h
  inRange := List.forall_mem_map.2 hi.inRange

/-- The event that an instruction leaves in the log. -/
def Instruction.event (i : Instruction F) : Event F :=
  if i.isMeasure then .skipped i else .applied i

/-- The instructions that are not measurements. -/
def Circuit.gates (c : Circuit F) : List (Instruction F) :=
  c.instructions.toList.filter (!·.isMeasure)

theorem Circuit.WellFormed.of_mem_gates [Scalar F] {c : Circuit F} (hc : c.WellFormed)
    {i : Instruction F} (hi : i ∈ c.gates) : i.WellFormed c.numQubits :=
  hc.instructions i (Array.mem_toList_iff.1 (List.mem_of_mem_filter hi))

variable [Zero F] [One F] [Add F] [Sub F] [Mul F] [Neg F] [Scalar F]

/-- The amplitudes after the operator of an instruction on its operands. A measurement has none. -/
def Instruction.image (i : Instruction F) (width : Nat) (a : Array (Amplitude F)) :
    Array (Amplitude F) :=
  match Operator.ofInstruction? i with
  | .ok (some op) => op.embed width (i.qubits.map (·.index)) a
  | _ => a

/-- The amplitudes after all gates, when all qubits are 0 before them. -/
def Circuit.evolved (c : Circuit F) : Array (Amplitude F) :=
  c.gates.foldl (fun a i => i.image c.numQubits a) (Register.ground c.numQubits)

namespace Instruction

variable {i : Instruction F} {width : Nat} {a : Array (Amplitude F)}

theorem image_of_isMeasure (hm : i.isMeasure = true) : i.image width a = a := by
  rw [image, Operator.ofInstruction?_of_isMeasure hm]

/-- A measurement keeps the amplitudes. Any other instruction applies its operator. -/
theorem image_cases (hi : i.WellFormed width) :
    (i.isMeasure = true ∧ ∀ a, i.image width a = a) ∨
      ∃ op, Operator.ofInstruction? i = .ok (some op) ∧ op.WellFormed ∧
        op.Addresses width (i.qubits.map (·.index)) ∧
        ∀ a, i.image width a = op.embed width (i.qubits.map (·.index)) a := by
  cases hm : i.isMeasure with
  | true => exact .inl ⟨rfl, fun _ => image_of_isMeasure hm⟩
  | false =>
    obtain ⟨op, hop, hacts⟩ := Operator.exists_ofInstruction? hi hm
    refine .inr ⟨op, hop, hacts.toWellFormed, hacts.addresses hi, fun a => ?_⟩
    rw [image, hop]

theorem size_image (ha : a.size = 2 ^ width) : (i.image width a).size = 2 ^ width := by
  unfold image
  split
  · exact Operator.size_embed _ _ _ _
  · exact ha

theorem foldl_image_filter (is : List (Instruction F)) :
    (is.filter (!·.isMeasure)).foldl (fun a i => i.image width a) a =
      is.foldl (fun a i => i.image width a) a := by
  induction is generalizing a with
  | nil => rfl
  | cons i is ih =>
    cases hm : i.isMeasure with
    | true => rw [List.filter_cons_of_neg (by simp [hm]), ih, List.foldl_cons,
        image_of_isMeasure hm]
    | false => rw [List.filter_cons_of_pos (by simp [hm]), List.foldl_cons, ih, List.foldl_cons]

end Instruction

/-- Measurements may be kept in the fold, as they do nothing. -/
theorem Circuit.evolved_eq_foldl (c : Circuit F) :
    c.evolved = c.instructions.toList.foldl (fun a i => i.image c.numQubits a)
      (Register.ground c.numQubits) :=
  Instruction.foldl_image_filter _

namespace Simulation

theorem size_foldl_image {width : Nat} (is : List (Instruction F)) {a : Array (Amplitude F)}
    (ha : a.size = 2 ^ width) :
    (is.foldl (fun a i => i.image width a) a).size = 2 ^ width := by
  induction is generalizing a with
  | nil => exact ha
  | cons i is ih => exact ih (Instruction.size_image ha)

theorem size_evolved (c : Circuit F) : c.evolved.size = 2 ^ c.numQubits :=
  size_foldl_image _ (Register.size_ground _)

/-- One step: the state takes the image under the instruction, the log takes the event of it, and
the rest is run on that. -/
theorem replay_cons (strategy : Strategy) {width : Nat} {i : Instruction F}
    (hi : i.WellFormed width) (rest : List (Instruction F)) {a : Array (Amplitude F)}
    (ha : a.size = 2 ^ width) (applied : Nat) :
    replay strategy (i :: rest) ⟨width, a⟩ applied =
      (replay strategy rest ⟨width, i.image width a⟩
        (if i.isMeasure then applied else applied + 1)).after i.event := by
  cases hm : i.isMeasure with
  | true =>
    rw [replay, Operator.ofInstruction?_of_isMeasure hm, Instruction.image_of_isMeasure hm,
      Instruction.event, if_pos hm]
    rfl
  | false =>
    obtain ⟨op, hop, hacts⟩ := Operator.exists_ofInstruction? hi hm
    have happly := State.apply_eq_embed hacts.toWellFormed (hacts.addresses hi) ha strategy
    rw [Instruction.event, if_neg (ne_true_of_eq_false hm)]
    simp only [replay, Instruction.image, hop, happly]
    rfl

theorem replay_eq (strategy : Strategy) {width : Nat} {is : List (Instruction F)}
    (his : ∀ i ∈ is, i.WellFormed width) {a : Array (Amplitude F)} (ha : a.size = 2 ^ width)
    (applied : Nat) :
    replay strategy is ⟨width, a⟩ applied =
      ⟨is.map (·.event) ++ [.completed (applied + is.countP (!·.isMeasure))],
        .ok ⟨width, (is.filter (!·.isMeasure)).foldl (fun a i => i.image width a) a⟩⟩ := by
  induction is generalizing a applied with
  | nil => rfl
  | cons i is ih =>
    obtain ⟨hi, his⟩ := List.forall_mem_cons.1 his
    rw [replay_cons strategy hi is ha, ih his (Instruction.size_image ha)]
    cases hm : i.isMeasure with
    | true => simp [hm, Outcome.after, Instruction.image_of_isMeasure hm]
    | false => simp [hm, Outcome.after, Nat.add_assoc, Nat.add_comm 1]

variable {c : Circuit F} {settings : Settings}

theorem run_of_wide (h : limit settings < c.numQubits) (threads : Nat) :
    run settings threads c = ⟨[.opened c.numQubits c.instructions.size],
      .error (.tooWide c.numQubits (limit settings))⟩ := by
  simp only [run, if_pos h, Outcome.after]

theorem run_of_fits (hc : c.WellFormed) (h : c.numQubits ≤ limit settings) (threads : Nat) :
    run settings threads c =
      ⟨.opened c.numQubits c.instructions.size ::
        .started c.numQubits c.instructions.size (settings.usesParallel c.numQubits) ::
        (c.instructions.toList.map (·.event) ++
          [.completed (c.instructions.toList.countP (!·.isMeasure))]),
        .ok ⟨c.numQubits, c.evolved⟩⟩ := by
  have hmax : c.numQubits ≤ State.maxWidth := Nat.le_trans h (Nat.min_le_right _ _)
  have his : ∀ i ∈ c.instructions.toList, i.WellFormed c.numQubits := fun i hi =>
    hc.instructions i (Array.mem_toList_iff.1 hi)
  simp only [run, if_neg (Nat.not_lt.2 h), Outcome.after, State.zero_eq_ok hc.numQubits_pos hmax,
    replay_eq _ his (Register.size_ground _), Nat.zero_add]
  rfl

theorem result_of_wide (h : limit settings < c.numQubits) (threads : Nat) :
    (run settings threads c).result = .error (.tooWide c.numQubits (limit settings)) := by
  rw [run_of_wide h]

theorem result_of_fits (hc : c.WellFormed) (h : c.numQubits ≤ limit settings) (threads : Nat) :
    (run settings threads c).result = .ok ⟨c.numQubits, c.evolved⟩ := by
  rw [run_of_fits hc h]

section Reachable

omit [Zero F] [One F] [Add F] [Sub F] [Mul F] [Neg F] [Scalar F]

/-- A run applies the operator of every gate to the whole register, in order. The settings and the
threads do not change the result, and neither do measurements, wherever they stand. -/
theorem run_result_eq_evolved {c : Circuit Float} (hc : c.Reachable) (settings : Settings)
    (hfit : c.numQubits ≤ min settings.maxQubits.toNat 63) (threads : Nat) :
    (run settings threads c).result = .ok ⟨c.numQubits, c.evolved⟩ ∧
      (∀ i ∈ c.gates, ∃ op, Operator.ofInstruction? i = .ok (some op) ∧
        op.ActsOn i.qubits.length ∧
        ∀ a, i.image c.numQubits a = op.embed c.numQubits (i.qubits.map (·.index)) a) ∧
      (∀ settings' threads', c.numQubits ≤ min settings'.maxQubits.toNat 63 →
        (run settings' threads' c).result = (run settings threads c).result) ∧
      ∀ d : Circuit Float, d.Reachable → d.numQubits = c.numQubits → d.gates = c.gates →
        (run settings threads d).result = (run settings threads c).result := by
  have hrun := fun settings' threads' (h : c.numQubits ≤ limit settings') =>
    result_of_fits hc.wellFormed h threads'
  refine ⟨hrun settings threads hfit, fun i hi => ?_, fun settings' threads' hfit' => ?_,
    fun d hd hwidth hgates => ?_⟩
  · obtain ⟨hmem, hm⟩ := List.mem_filter.1 hi
    obtain ⟨op, hop, hacts⟩ := Operator.exists_ofInstruction?
      (hc.wellFormed.instructions i (Array.mem_toList_iff.1 hmem)) (by simpa using hm)
    refine ⟨op, hop, hacts, fun a => ?_⟩
    rw [Instruction.image, hop]
  · rw [hrun settings threads hfit, hrun settings' threads' hfit']
  · have hfit' : d.numQubits ≤ limit settings := hwidth ▸ hfit
    rw [hrun settings threads hfit, result_of_fits hd.wellFormed hfit', Circuit.evolved,
      Circuit.evolved, hwidth, hgates]

/-- Measuring the two qubits of the pair, and many threads, leave its state as it is. -/
theorem run_result_of_measured_pair :
    ∃ c d : Circuit Float, c.Reachable ∧ d.Reachable ∧
      c.numQubits ≤ min (Settings.maxQubits {}).toNat 63 ∧ d.gates = c.gates ∧
      d.instructions.size = 4 ∧ c.instructions.size = 2 ∧
      (run {} 64 c).result = .ok ⟨2, c.evolved⟩ ∧
      (run {} 64 d).result = (run {} 64 c).result := by
  have hc := Circuit.Reachable.bell Circuit.bell_eq_ok
  have hd := hc.call .measureAll rfl
  obtain ⟨hrun, -, -, hsame⟩ := run_result_eq_evolved hc {} (by decide) 64
  exact ⟨_, _, hc, hd, by decide, rfl, rfl, rfl, hrun, hsame _ hd rfl rfl⟩

/-- A run fails exactly if the register is too wide, and then it says so. -/
theorem run_fails_iff_wide {c : Circuit Float} (hc : c.Reachable) (settings : Settings)
    (threads : Nat) :
    ((∃ e, (run settings threads c).result = .error e) ↔
        min settings.maxQubits.toNat 63 < c.numQubits) ∧
      (∀ e, (run settings threads c).result = .error e →
        e = .tooWide c.numQubits (min settings.maxQubits.toNat 63)) ∧
      (c.numQubits ≤ min settings.maxQubits.toNat 63 →
        ∃ st, (run settings threads c).result = .ok st ∧ st.width = c.numQubits ∧
          st.amplitudes.size = 2 ^ c.numQubits) := by
  rcases Nat.lt_or_ge (limit settings) c.numQubits with hwide | hfit
  · have hrun := result_of_wide hwide threads
    refine ⟨⟨fun _ => hwide, fun _ => ⟨_, hrun⟩⟩, fun e he => ?_, fun hfit => ?_⟩
    · rw [hrun] at he
      cases he
      rfl
    · exact absurd hwide (Nat.not_lt.2 hfit)
  · have hrun := result_of_fits hc.wellFormed hfit threads
    refine ⟨⟨?_, fun hwide => absurd hwide (Nat.not_lt.2 hfit)⟩, fun e he => ?_, fun _ =>
      ⟨_, hrun, rfl, size_foldl_image _ (Register.size_ground _)⟩⟩
    · rintro ⟨e, he⟩
      rw [hrun] at he
      cases he
    · rw [hrun] at he
      cases he

/-- An index has too few bits for 64 qubits, whatever the settings allow. The measured pair is just
narrow enough for its settings. -/
theorem run_fails_on_sixty_four_qubits_and_fits_on_pair :
    ∃ c d : Circuit Float, c.Reachable ∧ d.Reachable ∧
      (run { maxQubits := 100 } 4 c).result = .error (.tooWide 64 63) ∧
      d.instructions = #[.one .h (.ofNat 0), .two .cx (.ofNat 0) (.ofNat 1), .measure (.ofNat 0),
        .measure (.ofNat 1)] ∧
      (¬ ∃ e, (run { maxQubits := 2, parallelThreshold := 0 } 4 d).result = .error e) ∧
      ∃ st, (run { maxQubits := 2, parallelThreshold := 0 } 4 d).result = .ok st ∧
        st.width = 2 ∧ st.amplitudes.size = 4 := by
  have hempty : (Circuit.empty 64 : Except (CircuitError Float) (Circuit Float)) =
      .ok ⟨64, #[]⟩ := rfl
  have hc := Circuit.Reachable.empty hempty
  have hd := (Circuit.Reachable.bell Circuit.bell_eq_ok).call .measureAll rfl
  obtain ⟨hwide, hkind, -⟩ := run_fails_iff_wide hc { maxQubits := 100 } 4
  obtain ⟨hfails, -, hfits⟩ := run_fails_iff_wide hd { maxQubits := 2, parallelThreshold := 0 } 4
  obtain ⟨e, he⟩ := hwide.2 (by decide)
  have hnarrow : ¬ min (Settings.maxQubits { maxQubits := 2 }).toNat 63 < 2 := by decide
  exact ⟨_, _, hc, hd, he.trans (congrArg _ (hkind e he)), rfl, fun h => hnarrow (hfails.1 h),
    hfits (by decide)⟩

end Reachable

end Simulation

end Ket
