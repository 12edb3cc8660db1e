import Ket.Proofs.Amplitude.Ring
import Ket.Proofs.Operator.Monomial
import Ket.Proofs.Simulation.Run

/-! Operators with controls in front. The matrix of a controlled operator is the identity in the
rows of control 0 and the operator in the rows of control 1, so an amplitude of the result is either
the one before or the one that the operator leaves on the other qubits, wherever in the register the
control stands. -/

namespace Ket

namespace Register

variable {width control : Nat} {qubits : List Nat} {i : Nat}

/-- In the rows of control 1 the neighbours of an index whose control is 1 are its neighbours on
the other qubits. -/
theorem neighbour_cons_of_value (hd : (control :: qubits).Nodup)
    (hr : ∀ q ∈ control :: qubits, q < width) (hi : i < 2 ^ width)
    (hc : value width i control = true) {c : Nat} (hlt : c < 2 ^ qubits.length) :
    neighbour width (control :: qubits) i (2 ^ qubits.length + c) = neighbour width qubits i c := by
  obtain ⟨hmem, hd'⟩ := List.nodup_cons.1 hd
  obtain ⟨hcontrol, hr'⟩ := List.forall_mem_cons.1 hr
  have hrange : 2 ^ qubits.length + c < 2 ^ (control :: qubits).length := by
    rw [List.length_cons, Nat.pow_succ]
    omega
  refine (neighbour_eq_iff hd hr hi (neighbour_lt _ _ _ _) hrange).2 ⟨fun q hq hm => ?_, ?_⟩
  · rw [value_neighbour_of_notMem hq (List.not_mem_of_not_mem_cons hm)]
  · rw [row_cons, value_neighbour_of_notMem hcontrol hmem, hc, row_neighbour hd' hr' hi hlt,
      Bool.toNat_true, Nat.one_mul]

end Register

namespace Operator

/-- With that many controls in front of its qubits, `op'` does what `op` does at the indices in
which all controls are 1, and nothing at the others. -/
def AppliesUnder {α : Type} [Zero α] [Add α] [Mul α] (op : Operator α) (count : Nat)
    (op' : Operator α) : Prop :=
  ∀ (width : Nat) (controls qubits : List Nat), controls.length = count →
    qubits.length = op.arity → (controls ++ qubits).Nodup →
    (∀ q ∈ controls ++ qubits, q < width) →
    ∀ a : Array α, a.size = 2 ^ width → ∀ strategy strategy', ∃ b b' : Array α,
      (⟨width, a⟩ : State α).apply op qubits strategy = .ok ⟨width, b⟩ ∧
      (⟨width, a⟩ : State α).apply op' (controls ++ qubits) strategy' = .ok ⟨width, b'⟩ ∧
      b.size = 2 ^ width ∧ b'.size = 2 ^ width ∧
      ∀ i < 2 ^ width,
        b'[i]? = if ∀ c ∈ controls, Register.value width i c = true then b[i]? else a[i]?

section Embedding

variable {α : Type} [CommSemiring α] {op op' : Operator α} {width control : Nat}
  {qubits : List Nat}

/-- In a row of control 0 the only unit stands on the diagonal. -/
theorem getD_embed_controlled_of_clear (h : op.controlled = .ok op')
    (hacts : op'.ActsOn (op.arity + 1)) (hq : op'.Addresses width (control :: qubits))
    (a : Array α) {i : Nat} (hi : i < 2 ^ width) (hc : Register.value width i control = false) :
    (op'.embed width (control :: qubits) a).getD i 0 = a.getD i 0 := by
  have hdim : op.dim = 2 ^ op.arity := Nat.one_shiftLeft _
  have harity : 2 ^ op'.arity = 2 * op.dim := by rw [hacts.arity_eq, Nat.pow_succ', hdim]
  have hlen : qubits.length = op.arity := Nat.succ.inj (hq.length.trans hacts.arity_eq)
  have hrow : Register.row width (control :: qubits) i < op.dim := by
    rw [Register.row_cons, hc, Bool.toNat_false, Nat.zero_mul, Nat.zero_add, hdim, ← hlen]
    exact Register.row_lt width qubits i
  rw [getD_embed_eq_sum op' _ _ hi, harity,
    Finset.sum_eq_single_of_mem _ (Finset.mem_range.2 (Nat.lt_of_lt_of_le hrow (by omega)))]
  · rw [get_controlled h (by omega) (by omega), if_neg (by omega), if_pos rfl, one_mul,
      Register.neighbour_row hq.distinct hq.inRange hi]
  · intro c hlt hne
    rw [Finset.mem_range] at hlt
    rw [get_controlled h (by omega) hlt, if_neg (by omega), if_neg hne.symm, zero_mul]

/-- A row of control 1 is zero in the columns of control 0 and a row of the operator in the
others. -/
theorem getD_embed_controlled_of_value (h : op.controlled = .ok op')
    (hacts : op'.ActsOn (op.arity + 1)) (hq : op'.Addresses width (control :: qubits))
    (a : Array α) {i : Nat} (hi : i < 2 ^ width) (hc : Register.value width i control = true) :
    (op'.embed width (control :: qubits) a).getD i 0 = (op.embed width qubits a).getD i 0 := by
  have hdim : op.dim = 2 ^ op.arity := Nat.one_shiftLeft _
  have harity : 2 ^ op'.arity = op.dim + op.dim := by
    rw [hacts.arity_eq, Nat.pow_succ, Nat.mul_two, hdim]
  have hlen : 2 ^ qubits.length = op.dim := by
    rw [hdim, Nat.succ.inj (hq.length.trans hacts.arity_eq)]
  have hlt := Register.row_lt width qubits i
  have hrow : Register.row width (control :: qubits) i =
      op.dim + Register.row width qubits i := by
    rw [Register.row_cons, hc, Bool.toNat_true, Nat.one_mul, hlen]
  rw [hlen] at hlt
  have hleft : ∀ c ∈ Finset.range op.dim,
      op'.matrix.get (Register.row width (control :: qubits) i) c *
        a.getD (Register.neighbour width (control :: qubits) i c) 0 = 0 := by
    intro c hcol
    rw [Finset.mem_range] at hcol
    rw [get_controlled h (by omega) (by omega), if_neg (by omega), if_neg (by omega), zero_mul]
  have hright : ∀ c ∈ Finset.range op.dim,
      op'.matrix.get (Register.row width (control :: qubits) i) (op.dim + c) *
          a.getD (Register.neighbour width (control :: qubits) i (op.dim + c)) 0 =
        op.matrix.get (Register.row width qubits i) c *
          a.getD (Register.neighbour width qubits i c) 0 := by
    intro c hcol
    rw [Finset.mem_range] at hcol
    rw [get_controlled h (by omega) (by omega), if_pos (by omega), hrow, Nat.add_sub_cancel_left,
      Nat.add_sub_cancel_left, ← hlen,
      Register.neighbour_cons_of_value hq.distinct hq.inRange hi hc (by rwa [hlen])]
  rw [getD_embed_eq_sum op' _ _ hi, getD_embed_eq_sum op _ _ hi, harity, Finset.sum_range_add,
    Finset.sum_eq_zero hleft, zero_add, Finset.sum_congr rfl hright, hdim]

theorem getElem?_embed_controlled (h : op.controlled = .ok op')
    (hacts : op'.ActsOn (op.arity + 1)) (hq : op'.Addresses width (control :: qubits))
    {a : Array α} (ha : a.size = 2 ^ width) {i : Nat} (hi : i < 2 ^ width) :
    (op'.embed width (control :: qubits) a)[i]? =
      if Register.value width i control = true then (op.embed width qubits a)[i]?
      else a[i]? := by
  have hget (b : Array α) (hb : b.size = 2 ^ width) : b[i]? = some (b.getD i 0) := by
    rw [Array.getElem?_eq_getElem (hb ▸ hi), Array.getElem_eq_getD]
  rw [hget _ (size_embed _ _ _ _), hget _ (size_embed _ _ _ _), hget a ha]
  split
  · rw [getD_embed_controlled_of_value h hacts hq a hi ‹_›]
  · rw [getD_embed_controlled_of_clear h hacts hq a hi (Bool.eq_false_of_not_eq_true ‹_›)]

end Embedding

section Controls

variable {α : Type} [CommSemiring α] {op op' : Operator α}

theorem WellFormed.appliesUnder_zero (hop : op.WellFormed) : op.AppliesUnder 0 op := by
  intro width controls qubits hcount hlen hd hr a ha strategy strategy'
  obtain rfl := List.length_eq_zero_iff.1 hcount
  refine ⟨_, _, State.apply_eq_embed hop ⟨hlen, hd, hr⟩ ha strategy,
    State.apply_eq_embed hop ⟨hlen, hd, hr⟩ ha strategy', size_embed _ _ _ _, size_embed _ _ _ _,
    fun i hi => ?_⟩
  rw [if_pos (by simp)]

/-- One more control in front. -/
theorem AppliesUnder.step {count : Nat} (h : op.AppliesUnder count op')
    (hacts : op'.ActsOn (op.arity + count)) (hle : op.arity + count ≤ 2) :
    ∃ op'', op'.controlled = .ok op'' ∧ op''.ActsOn (op.arity + (count + 1)) ∧
      op.AppliesUnder (count + 1) op'' := by
  obtain ⟨op'', hok, hacts''⟩ := exists_controlled (hacts.arity_eq ▸ hle)
  refine ⟨op'', hok, ⟨hacts''.toWellFormed, by rw [hacts''.arity_eq, hacts.arity_eq]; rfl⟩, ?_⟩
  intro width controls qubits hcount hlen hd hr a ha strategy strategy'
  obtain ⟨c, controls, rfl⟩ := List.exists_cons_of_length_eq_add_one hcount
  have hcount' : controls.length = count := Nat.succ.inj hcount
  have hq : op''.Addresses width (c :: (controls ++ qubits)) := by
    refine ⟨?_, hd, hr⟩
    rw [hacts''.arity_eq, hacts.arity_eq, List.length_cons, List.length_append, hcount', hlen,
      Nat.add_comm count]
  have hq' : op'.Addresses width (controls ++ qubits) :=
    ⟨Nat.succ.inj (hq.length.trans hacts''.arity_eq), hq.distinct.of_cons,
      fun q hmem => hr q (List.mem_cons_of_mem _ hmem)⟩
  obtain ⟨b, b', hb, hb', hsize, -, hval⟩ := h width controls qubits hcount' hlen hq'.distinct
    hq'.inRange a ha strategy strategy'
  rw [State.apply_eq_embed hacts.toWellFormed hq' ha] at hb'
  cases hb'
  refine ⟨b, _, hb, State.apply_eq_embed hacts''.toWellFormed hq ha strategy', hsize,
    size_embed _ _ _ _, fun i hi => ?_⟩
  rw [getElem?_embed_controlled hok hacts'' hq ha hi, hval i hi]
  simp only [List.forall_mem_cons, ite_and]

/-- There is no room for a fourth operand. -/
theorem controlled_eq_error (h : op.ActsOn 3) :
    op.controlled = .error (.operatorShape 16 16) := by
  have hdim : op.dim = 8 := by rw [dim, h.arity_eq]; rfl
  rw [controlled, hdim]
  rfl

end Controls

end Operator

namespace Simulation

/-- A controlled operator acts where its control is 1, and one that is controlled twice where both
controls are. An operator on three qubits has no controlled one. -/
theorem controlled_applies {F : Type} [CommRing F] :
    (∀ op : Operator (Amplitude F), op.WellFormed → op.arity ≤ 2 →
      ∃ op', op.controlled = .ok op' ∧ op'.ActsOn (op.arity + 1) ∧ op.AppliesUnder 1 op') ∧
    (∀ op : Operator (Amplitude F), op.ActsOn 1 →
      ∃ op₁ op₂, op.controlled = .ok op₁ ∧ op₁.controlled = .ok op₂ ∧ op₂.ActsOn 3 ∧
        op.AppliesUnder 2 op₂) ∧
    ∀ op : Operator (Amplitude F), op.ActsOn 3 →
      op.controlled = .error (.operatorShape 16 16) := by
  refine ⟨?_, ?_, fun op => Operator.controlled_eq_error⟩
  · intro op hop hle
    exact hop.appliesUnder_zero.step ⟨hop, rfl⟩ hle
  · intro op hop
    have harity := hop.arity_eq
    obtain ⟨op₁, h₁, hacts₁, hunder₁⟩ := hop.appliesUnder_zero.step ⟨hop.toWellFormed, rfl⟩
      (by omega)
    obtain ⟨op₂, h₂, hacts₂, hunder₂⟩ := hunder₁.step hacts₁ (by omega)
    exact ⟨op₁, op₂, h₁, h₂, ⟨hacts₂.toWellFormed, hacts₂.arity_eq.trans (by omega)⟩, hunder₂⟩

/-- Controls on both sides of the qubit that an operator acts on, which is far from unitary. The two
entries of the result are at an index where both controls are 1 and at one where a single one is. -/
theorem controlled_applies_on_four :
    ∃ op₁ op₂ : Operator (Amplitude ℤ),
      (Operator.oneQubit 1 2 3 .i : Operator (Amplitude ℤ)).controlled = .ok op₁ ∧
      op₁.controlled = .ok op₂ ∧
      (∃ b : Array (Amplitude ℤ),
        State.apply ⟨4, Array.ofFn fun i : Fin 16 => .ofReal (i : ℤ)⟩ op₁ [3, 1] (.parallel 2) =
          .ok ⟨4, b⟩ ∧
        b[0b0001]? = some (.ofReal (1 + 2 * 5)) ∧ b[0b0100]? = some (.ofReal 4)) ∧
      (∃ b : Array (Amplitude ℤ),
        State.apply ⟨4, Array.ofFn fun i : Fin 16 => .ofReal (i : ℤ)⟩ op₂ [3, 0, 1]
          .sequential = .ok ⟨4, b⟩ ∧
        b[0b1001]? = some (.ofReal (9 + 2 * 13)) ∧ b[0b0001]? = some (.ofReal 1)) ∧
      (Operator.toffoli : Operator (Amplitude ℤ)).controlled = .error (.operatorShape 16 16) := by
  obtain ⟨hone, htwo, hthree⟩ := controlled_applies (F := ℤ)
  have hop := Operator.actsOn_oneQubit (1 : Amplitude ℤ) 2 3 .i
  have ha : (Array.ofFn fun i : Fin 16 => Amplitude.ofReal (i : ℤ)).size = 2 ^ 4 :=
    Array.size_ofFn
  obtain ⟨op₁, h₁, -, hunder₁⟩ := hone _ hop.toWellFormed (by decide)
  obtain ⟨op₁', op₂, h₁', h₂, -, hunder₂⟩ := htwo _ hop
  obtain rfl : op₁' = op₁ := Except.ok.inj (h₁'.symm.trans h₁)
  have hq : (Operator.oneQubit 1 2 3 .i : Operator (Amplitude ℤ)).Addresses 4 [1] :=
    ⟨rfl, by decide, by decide⟩
  obtain ⟨b, b₁, hb, hb₁, -, -, hval₁⟩ := hunder₁ 4 [3] [1] rfl rfl (by decide) (by decide) _ ha
    .sequential (.parallel 2)
  obtain ⟨b', b₂, hb', hb₂, -, -, hval₂⟩ := hunder₂ 4 [3, 0] [1] rfl rfl (by decide) (by decide) _
    ha .sequential .sequential
  rw [State.apply_eq_embed hop.toWellFormed hq ha] at hb hb'
  cases hb
  cases hb'
  refine ⟨_, _, h₁, h₂, ⟨_, hb₁, ?_, ?_⟩, ⟨_, hb₂, ?_, ?_⟩,
    hthree _ (Operator.actsOn_exchange (by decide) (by decide) _ _)⟩
  · exact (hval₁ _ (by decide)).trans (by decide)
  · exact (hval₁ _ (by decide)).trans (by decide)
  · exact (hval₂ _ (by decide)).trans (by decide)
  · exact (hval₂ _ (by decide)).trans (by decide)

end Simulation

end Ket
