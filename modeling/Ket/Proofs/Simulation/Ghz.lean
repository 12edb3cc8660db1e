import Ket.Proofs.Amplitude.Branch
import Ket.Proofs.Circuit.Ghz
import Ket.Proofs.Operator.Monomial
import Ket.Proofs.Simulation.Run

/-! The run that entangles all qubits. The first gate leaves two branches that differ in qubit 0,
and each link makes one more qubit agree with the qubits before it. In the end the branches are the
first and the last basis state. No amplitude is ever anything else than zero or the square root of
one half, and on binary64 no zero has a sign. -/

namespace Ket

namespace Register

variable {F : Type} [Zero F] [Scalar F]

/-- The basis states of the branches have the same amplitude. -/
def branches (width : Nat) (p : Nat → Bool) : Array (Amplitude F) :=
  Array.ofFn fun i : Fin (2 ^ width) => .branch (p i)

theorem getElem?_branches {width i : Nat} (p : Nat → Bool) (hi : i < 2 ^ width) :
    (branches width p : Array (Amplitude F))[i]? = some (.branch (p i)) := by
  rw [branches, Array.getElem?_ofFn, dif_pos hi]

theorem getD_branches {width i : Nat} (p : Nat → Bool) (hi : i < 2 ^ width) :
    (branches width p : Array (Amplitude F)).getD i 0 = .branch (p i) := by
  rw [Array.getD_eq_getD_getElem?, getElem?_branches p hi, Option.getD_some]

theorem branches_congr {width : Nat} {p p' : Nat → Bool} (h : ∀ i < 2 ^ width, p i = p' i) :
    (branches width p : Array (Amplitude F)) = branches width p' := by
  refine Array.ext_getElem? fun i => ?_
  by_cases hi : i < 2 ^ width
  · rw [getElem?_branches p hi, getElem?_branches p' hi, h i hi]
  · simp [branches, hi]

end Register

namespace Operator

open Register

variable {F : Type} [Zero F] [One F] [Add F] [Sub F] [Mul F] [Neg F] [Scalar F]

omit [One F] [Neg F] in
theorem embed_eq_branches {op : Operator (Amplitude F)} {width : Nat} {qubits : List Nat}
    {a : Array (Amplitude F)} {p : Nat → Bool}
    (h : ∀ i < 2 ^ width, Grid.total (fun c => op.matrix.get (row width qubits i) c *
      a.getD (neighbour width qubits i c) 0) (2 ^ op.arity) = .branch (p i)) :
    op.embed width qubits a = branches width p := by
  refine Array.ext_getElem? fun i => ?_
  by_cases hi : i < 2 ^ width
  · rw [getElem?_embed _ _ _ hi, getElem?_branches _ hi, h i hi]
  · simp [embed, branches, hi]

variable {of : Float → F} (h : Amplitude.AgreesOnBranches of)

include h

/-- An exchange looks up where each amplitude comes from. -/
theorem embed_exchange_branches {qubits : List Nat} {a b : Nat} (ha : a < 2 ^ qubits.length)
    (hb : b < 2 ^ qubits.length) (width : Nat) (p : Nat → Bool) :
    (exchange qubits.length a b).embed width qubits (branches width p : Array (Amplitude F)) =
      branches width fun i =>
        p (neighbour width qubits i (Equiv.swap a b (row width qubits i))) := by
  refine embed_eq_branches fun i hi => ?_
  have hrow := row_lt width qubits i
  have hswap := (moves_exchange (F := F) ha hb).target_lt _ hrow
  have hterm : ∀ c < 2 ^ qubits.length,
      (exchange qubits.length a b).matrix.get (row width qubits i) c *
          (branches width p : Array (Amplitude F)).getD (neighbour width qubits i c) 0 =
        (if c = Equiv.swap a b (row width qubits i) then 1 else 0) *
          .branch (p (neighbour width qubits i c)) := by
    intro c hc
    have hplace : row width qubits i = Equiv.swap a b c ↔
        c = Equiv.swap a b (row width qubits i) := by
      rw [eq_comm, Equiv.swap_apply_eq_iff]
    rw [get_exchange hrow hc, getD_branches p (neighbour_lt _ _ _ _), if_congr hplace rfl rfl]
  refine (Grid.total_congr hterm).trans ?_
  rw [h.total_unit_mul_branch, decide_eq_true hswap, Bool.true_and]

/-- The Hadamard gate on qubit 0 makes the first amplitude into two. -/
theorem embed_hadamard_ground {width : Nat} (hw : 0 < width) :
    hadamard.embed width [0] (ground width : Array (Amplitude F)) =
      branches width fun i => decide (AgreeOff width [0] i 0) := by
  refine embed_eq_branches fun i hi => ?_
  have hterm : ∀ c < 2 ^ 1, hadamard.matrix.get (row width [0] i) c *
      (ground width : Array (Amplitude F)).getD (neighbour width [0] i c) 0 =
        hadamard.matrix.get (row width [0] i) c *
          if decide (AgreeOff width [0] i 0) ∧ c = 0 then 1 else 0 := by
    intro c hc
    have hzero : row width [0] 0 = 0 := by simp [row, value]
    have hplace := neighbour_eq_iff (List.nodup_singleton 0) (by simpa using hw) hi
      (Nat.two_pow_pos width) hc
    rw [getD_ground (neighbour_lt _ _ _ _), if_congr hplace rfl rfl, hzero]
    simp only [decide_eq_true_eq]
  exact (Grid.total_congr hterm).trans (h.total_hadamard_mul (row_lt width [0] i) _)

end Operator

namespace Register

/-- The qubits up to `k` have the same value, and the others are 0. -/
def Spread (width k i : Nat) : Prop :=
  ∃ b : Bool, ∀ q < width, value width i q = (b && decide (q ≤ k))

instance (width k i : Nat) : Decidable (Spread width k i) :=
  inferInstanceAs (Decidable (∃ b : Bool, ∀ q < width, value width i q = (b && decide (q ≤ k))))

variable {width : Nat}

theorem value_zero (width q : Nat) : value width 0 q = false := Nat.zero_testBit _

theorem spread_zero_iff (width i : Nat) : AgreeOff width [0] i 0 ↔ Spread width 0 i := by
  constructor
  · intro h
    refine ⟨value width i 0, fun q hq => ?_⟩
    by_cases hq0 : q = 0
    · simp [hq0]
    · rw [h q hq (by simpa using hq0), value_zero]
      simp [hq0]
  · rintro ⟨b, h⟩ q hq hm
    rw [h q hq, value_zero]
    simp_all

/-- The exchange of the last two rows adds the first bit of a row to the second. -/
theorem testBit_swap_row (width k i : Nat) :
    (Equiv.swap 0b10 0b11 (row width [k, k + 1] i)).testBit 1 = value width i k ∧
      (Equiv.swap 0b10 0b11 (row width [k, k + 1] i)).testBit 0 =
        (value width i k ^^ value width i (k + 1)) := by
  have hbits : ∀ x y : Bool,
      (Equiv.swap 0b10 0b11 (x.toNat * 2 ^ 1 + (y.toNat * 2 ^ 0 + 0))).testBit 1 = x ∧
        (Equiv.swap 0b10 0b11 (x.toNat * 2 ^ 1 + (y.toNat * 2 ^ 0 + 0))).testBit 0 = (x ^^ y) := by
    decide
  rw [row_cons, row_cons]
  exact hbits _ _

theorem value_neighbour_link {k : Nat} (hk : k + 1 < width) (i : Nat) {q : Nat} (hq : q < width) :
    value width (neighbour width [k, k + 1] i
        (Equiv.swap 0b10 0b11 (row width [k, k + 1] i))) q =
      if q = k + 1 then value width i k ^^ value width i (k + 1) else value width i q := by
  obtain ⟨hfirst, hsecond⟩ := testBit_swap_row width k i
  have hd : [k, k + 1].Nodup := by simp
  have hr : ∀ q ∈ [k, k + 1], q < width := by
    intro q hq
    rcases List.mem_pair.1 hq with rfl | rfl <;> omega
  by_cases hm : q ∈ [k, k + 1]
  · rcases List.mem_pair.1 hm with rfl | rfl
    · rw [if_neg (Nat.ne_of_lt (Nat.lt_succ_self q)), ← hfirst]
      exact value_neighbour_getElem hd hr i _ (t := 0) (by simp)
    · rw [if_pos rfl, ← hsecond]
      exact value_neighbour_getElem hd hr i _ (t := 1) (by simp)
  · rw [value_neighbour_of_notMem hq hm, if_neg]
    rintro rfl
    exact hm (List.mem_pair.2 (.inr rfl))

theorem spread_link_iff {k : Nat} (hk : k + 1 < width) (i : Nat) :
    Spread width k (neighbour width [k, k + 1] i
        (Equiv.swap 0b10 0b11 (row width [k, k + 1] i))) ↔ Spread width (k + 1) i := by
  refine exists_congr fun b => ?_
  constructor
  · intro h q hq
    have hk' := h k (by omega)
    have hnext := h (k + 1) hk
    have hq' := h q hq
    rw [value_neighbour_link hk i (by omega)] at hk' hnext hq'
    grind
  · intro h q hq
    have hk' := h k (by omega)
    have hnext := h (k + 1) hk
    have hq' := h q hq
    rw [value_neighbour_link hk i hq]
    grind

/-- Only the first and the last index have the same value at all qubits. -/
theorem spread_last_iff {k i : Nat} (hk : k + 1 = width) (hi : i < 2 ^ width) :
    Spread width k i ↔ i = 0 ∨ i = 2 ^ width - 1 := by
  have hpos := Nat.two_pow_pos width
  have hlast {q : Nat} (hq : q < width) : value width (2 ^ width - 1) q = true := by
    rw [value, Nat.testBit_two_pow_sub_one]
    exact decide_eq_true (by omega)
  constructor
  · rintro ⟨b, h⟩
    cases b with
    | false =>
      refine .inl (eq_of_value hi hpos fun q hq => ?_)
      rw [h q hq, value_zero, Bool.false_and]
    | true =>
      refine .inr (eq_of_value hi (by omega) fun q hq => ?_)
      rw [h q hq, hlast hq, Bool.true_and]
      exact decide_eq_true (by omega)
  · rintro (rfl | rfl)
    · exact ⟨false, fun q _ => value_zero width q⟩
    · refine ⟨true, fun q hq => ?_⟩
      rw [hlast hq, Bool.true_and]
      exact (decide_eq_true (by omega)).symm

end Register

namespace Simulation

open Circuit Register

section Links

variable {F : Type} [Zero F] [One F] [Add F] [Sub F] [Mul F] [Neg F] [Scalar F]

theorem image_reaching_succ {width k : Nat} (hw : width < UInt32.size) (hk : k + 1 < width)
    (a : Array (Amplitude F)) :
    (reaching (k + 1) : Instruction F).image width a =
      Operator.controlledX.embed width [k, k + 1] a := by
  have hindex : ∀ j ≤ k + 1, (Qubit.ofNat j).index = j := fun j hj => Qubit.index_ofNat (by omega)
  change Operator.controlledX.embed width [(Qubit.ofNat k).index, (Qubit.ofNat (k + 1)).index] a = _
  rw [hindex k (Nat.le_succ k), hindex (k + 1) le_rfl]

variable {of : Float → F} (h : Amplitude.AgreesOnBranches of)

include h

/-- One step. -/
theorem image_reaching_branches {width k : Nat} (hw : width < UInt32.size) (hk : k + 1 < width) :
    (reaching (k + 1) : Instruction F).image width (branches width fun i => Spread width k i) =
      branches width fun i => Spread width (k + 1) i := by
  rw [image_reaching_succ hw hk]
  have hfirst : 0b10 < 2 ^ [k, k + 1].length := show 2 < 2 ^ 2 by decide
  have hlast : 0b11 < 2 ^ [k, k + 1].length := show 3 < 2 ^ 2 by decide
  have hstep := Operator.embed_exchange_branches h hfirst hlast width fun i => Spread width k i
  refine hstep.trans (branches_congr fun i _ => ?_)
  exact decide_eq_decide.2 (spread_link_iff hk i)

theorem foldl_image_entangling {width k : Nat} (hw : width < UInt32.size) (hk : k < width) :
    (entangling (k + 1) : List (Instruction F)).foldl (fun a i => i.image width a) (ground width) =
      branches width fun i => Spread width k i := by
  induction k with
  | zero =>
    refine (Operator.embed_hadamard_ground h hk).trans (branches_congr fun i _ => ?_)
    exact decide_eq_decide.2 (spread_zero_iff width i)
  | succ k ih =>
    have hlist : (entangling (k + 2) : List (Instruction F)) =
        entangling (k + 1) ++ [reaching (k + 1)] := by
      rw [entangling, List.range_succ, List.map_append]
      rfl
    rw [hlist, List.foldl_append, ih (Nat.lt_of_succ_lt hk)]
    exact image_reaching_branches h hw hk

theorem evolved_entangling {n : UInt32} {k : Nat} (hk : n.toNat = k + 1) :
    (⟨n, (entangling n.toNat).toArray⟩ : Circuit F).evolved =
      branches n.toNat fun i => Spread n.toNat k i := by
  have hlt : k < n.toNat := by omega
  rw [evolved_eq_foldl, ← foldl_image_entangling h n.toNat_lt hlt, ← hk]
  rfl

/-- Over any numbers that agree with binary64 on the operands. -/
theorem run_entangling {n : UInt32} (hn : n ≠ 0) {settings : Settings}
    (hfit : n.toNat ≤ limit settings) (threads : Nat) :
    ∃ st, (run settings threads (⟨n, (entangling n.toNat).toArray⟩ : Circuit F)).result = .ok st ∧
      st.width = n.toNat ∧ st.amplitudes.size = 2 ^ n.toNat ∧
      ∀ i < 2 ^ n.toNat, st.amplitudes[i]? = some
        (if i = 0 ∨ i = 2 ^ n.toNat - 1 then ⟨Scalar.invSqrtTwo, 0⟩ else ⟨0, 0⟩) := by
  have hc := wellFormed_of_ofInstructions ((ghz_eq n).symm.trans (ghz_eq_ok (F := F) hn))
  have hpos : 0 < n.toNat := hc.numQubits_pos
  obtain ⟨k, hk⟩ := Nat.exists_eq_succ_of_ne_zero hpos.ne'
  refine ⟨_, result_of_fits hc hfit threads, rfl, size_evolved _, fun i hi => ?_⟩
  rw [evolved_entangling h hk, getElem?_branches _ hi, Amplitude.branch]
  simp only [decide_eq_true_eq, spread_last_iff hk.symm hi]

end Links

/-- For every number of qubits but zero the circuit is built, is as deep as it is long, and ends in
the superposition of the first and the last basis state, bit for bit. The subtraction that counts
its links never goes below zero. Numbers that agree with binary64 on the operands lead to the same
state, so nothing but the operands is ever added, subtracted or multiplied. -/
theorem run_ghz :
    (∀ n, (ghzOnWords n : Option (Except (CircuitError Float) (Circuit Float))) = some (ghz n)) ∧
      (ghz 0 : Except (CircuitError Float) (Circuit Float)) = .error .noQubits ∧
      (∀ n : UInt32, n ≠ 0 → ∃ c : Circuit Float, ghz n = .ok c ∧ c.numQubits = n.toNat ∧
        c.instructions.size = n.toNat ∧
        (∀ i ∈ c.instructions, i.check c.numQubits = .ok ()) ∧
        c.depth = n.toNat ∧
        ∀ settings threads, n.toNat ≤ min settings.maxQubits.toNat 63 →
          ∃ st, (run settings threads c).result = .ok st ∧ st.width = n.toNat ∧
            st.amplitudes.size = 2 ^ n.toNat ∧
            ∀ i < 2 ^ n.toNat, st.amplitudes[i]? = some
              (if i = 0 ∨ i = 2 ^ n.toNat - 1 then ⟨Scalar.invSqrtTwo, 0⟩ else ⟨0, 0⟩)) ∧
      ∀ (F : Type) [Zero F] [One F] [Add F] [Sub F] [Mul F] [Neg F] [Scalar F] (of : Float → F),
        Amplitude.AgreesOnBranches of → ∀ n : UInt32, n ≠ 0 → ∃ c : Circuit F, ghz n = .ok c ∧
          ∀ settings threads, n.toNat ≤ min settings.maxQubits.toNat 63 →
            ∃ st, (run settings threads c).result = .ok st ∧
              ∀ i < 2 ^ n.toNat, st.amplitudes[i]? = some
                (if i = 0 ∨ i = 2 ^ n.toNat - 1 then ⟨of Scalar.invSqrtTwo, of 0⟩
                else ⟨of 0, of 0⟩) := by
  refine ⟨ghzOnWords_eq, ghz_zero, fun n hn => ?_, ?_⟩
  · have hok := ghz_eq_ok (F := Float) hn
    have hc := wellFormed_of_ofInstructions ((ghz_eq n).symm.trans hok)
    refine ⟨_, hok, rfl, length_entangling n.toNat, fun i hi => ?_, depth_entangling n.toNat,
      fun settings threads hfit => run_entangling Amplitude.agreesOnBranches_id hn hfit threads⟩
    exact Instruction.check_eq_ok_iff.2 (hc.instructions i hi)
  · intro F _ _ _ _ _ _ _ of h n hn
    refine ⟨_, ghz_eq_ok hn, fun settings threads hfit => ?_⟩
    obtain ⟨st, hst, -, -, hat⟩ := run_entangling h hn hfit threads
    rw [h.root, h.zero]
    exact ⟨st, hst, hat⟩

open Amplitude in
/-- Three qubits and more threads than amplitudes, on binary64 and with operations that are guarded
against any other number than the operands. -/
theorem run_ghz_on_three :
    (3 : UInt32) ≠ 0 ∧ ∃ c : Circuit Float, ghz 3 = .ok c ∧ c.depth = 3 ∧
      (3 : UInt32).toNat ≤ min (Settings.maxQubits { parallelThreshold := 0 }).toNat 63 ∧
      (∃ st, (run { parallelThreshold := 0 } 16 c).result = .ok st ∧
        st.amplitudes[0b000]? = some ⟨Scalar.invSqrtTwo, 0⟩ ∧
        st.amplitudes[0b011]? = some ⟨0, 0⟩ ∧
        st.amplitudes[0b111]? = some ⟨Scalar.invSqrtTwo, 0⟩) ∧
      ∃ st, (@run Float _ _ (guardedAdd BranchOperand) (guardedSub BranchOperand)
          (guardedMul BranchOperand) _ _ { parallelThreshold := 0 } 16 c).result = .ok st ∧
        st.amplitudes[0b111]? = some ⟨Scalar.invSqrtTwo, 0⟩ := by
  obtain ⟨-, -, hghz, hagree⟩ := run_ghz
  obtain ⟨c, hok, -, -, -, hdepth, hrun⟩ := hghz 3 (by decide)
  obtain ⟨st, hst, -, -, hat⟩ := hrun { parallelThreshold := 0 } 16 (by decide)
  obtain ⟨c', hok', hrun'⟩ := @hagree Float _ _ (guardedAdd BranchOperand)
    (guardedSub BranchOperand) (guardedMul BranchOperand) _ _ id agreesOnBranches_guarded 3
    (by decide)
  obtain ⟨st', hst', hat'⟩ := hrun' { parallelThreshold := 0 } 16 (by decide)
  obtain rfl : c' = c := Except.ok.inj (hok'.symm.trans hok)
  exact ⟨by decide, _, hok, hdepth, by decide, ⟨st, hst, hat 0b000 (by decide),
    hat 0b011 (by decide), hat 0b111 (by decide)⟩, st', hst', hat' 0b111 (by decide)⟩

end Simulation

end Ket
