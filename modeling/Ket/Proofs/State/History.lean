import Ket.Proofs.Simulation.Run

/-! Histories of operators and states. Calls make operators and states from nothing or from those
made before, change a state in place, or fail. Whatever the calls are, every matrix that is left
fits its operator and every array of amplitudes its register, which is all that the application of
operators relies on. -/

namespace Ket

namespace Operator

theorem ofGrid_eq_ok_iff {α : Type} {g : Grid α} {op : Operator α} :
    ofGrid g = .ok op ↔
      ∃ k, 1 ≤ k ∧ k ≤ 3 ∧ g.rows = 2 ^ k ∧ g.cols = 2 ^ k ∧ op = ⟨k, g⟩ := by
  constructor
  · intro h
    have hop := wellFormed_of_ofGrid h
    have hm := matrix_of_ofGrid h
    have hdim : op.dim = 2 ^ op.arity := Nat.one_shiftLeft _
    refine ⟨op.arity, hop.arity_pos, hop.arity_le, ?_, ?_, by rw [← hm]⟩
    · rw [← hm, hop.rows, hdim]
    · rw [← hm, hop.cols, hdim]
  · rintro ⟨k, h₁, h₃, hr, hc, rfl⟩
    exact ofGrid_eq_ok h₁ h₃ hr hc

theorem wellFormed_of_ofGate? {F : Type} [Zero F] [One F] [Neg F] [Scalar F] {g : Gate} {θ : F}
    {op : Operator (Amplitude F)} (h : ofGate? g θ = .ok (some op)) : op.WellFormed := by
  cases g with
  | one g =>
    cases h
    exact (actsOn_ofOneQubitGate g).toWellFormed
  | two g =>
    obtain ⟨op', hop', hacts⟩ := exists_ofTwoQubitGate (F := F) g
    rw [ofGate?, hop'] at h
    cases h
    exact hacts.toWellFormed
  | three g =>
    cases h
    exact (actsOn_ofThreeQubitGate g).toWellFormed
  | rotation axis =>
    rw [ofGate?] at h
    split at h
    · cases h
      exact (actsOn_rotation axis θ).toWellFormed
    · cases h
  | pairRotation axis =>
    rw [ofGate?] at h
    split at h
    · cases h
      exact (actsOn_pairRotation axis θ).toWellFormed
    · cases h
  | measure => cases h

end Operator

namespace State

variable {α : Type}

/-- The amplitudes are accepted if their number is a power of two, and kept. -/
theorem ofAmplitudes_eq_ok_iff {a : Array α} {st : State α} :
    ofAmplitudes a = .ok st ↔ ∃ n, 1 ≤ n ∧ a.size = 2 ^ n ∧ st = ⟨n, a⟩ := by
  unfold ofAmplitudes
  rw [Nat.one_shiftLeft]
  constructor
  · intro h
    split at h
    · cases h
    rename_i hsize
    obtain ⟨htwo, hpow⟩ := not_or.1 hsize
    rw [not_not] at hpow
    cases h
    refine ⟨a.size.log2, ?_, hpow.symm, rfl⟩
    rw [Nat.one_le_iff_ne_zero]
    intro hzero
    rw [hzero] at hpow
    omega
  · rintro ⟨n, hn, hsize, rfl⟩
    have htwo : 2 ^ 1 ≤ 2 ^ n := Nat.pow_le_pow_right (by decide) hn
    rw [hsize, Nat.log2_two_pow, if_neg (by omega)]

theorem wellFormed_of_ofAmplitudes {a : Array α} (ha : a.size < UInt64.size) {st : State α}
    (h : ofAmplitudes a = .ok st) : st.WellFormed := by
  obtain ⟨n, hn, hsize, rfl⟩ := ofAmplitudes_eq_ok_iff.1 h
  refine ⟨hn, ?_, by rw [hsize, Nat.one_shiftLeft]⟩
  have hlt : 2 ^ n < 2 ^ 64 := hsize ▸ ha
  exact Nat.le_of_lt_succ ((Nat.pow_lt_pow_iff_right (by decide)).1 hlt)

theorem wellFormed_of_zero [Zero α] [One α] {width : Nat} {st : State α}
    (h : zero width = .ok st) : st.WellFormed := by
  unfold zero at h
  split at h
  · cases h
  rename_i hwidth
  cases h
  obtain ⟨hpos, hle⟩ := not_or.1 hwidth
  refine ⟨Nat.pos_of_ne_zero hpos, Nat.not_lt.1 hle, ?_⟩
  rw [Array.size_setIfInBounds, Array.size_replicate]

variable [Zero α] [Add α] [Mul α]

/-- An application that succeeds was given as many qubits as the operator acts on, all different
and in range. -/
theorem addresses_of_apply {st st' : State α} {op : Operator α} {qubits : List Nat}
    {strategy : Strategy} (h : st.apply op qubits strategy = .ok st') :
    op.Addresses st.width qubits := by
  unfold apply at h
  split at h
  · cases h
  rename_i s hs
  obtain ⟨-, hd, hr, rfl⟩ := Support.ofQubits_eq_ok_iff.1 hs
  split at h
  · cases h
  rename_i hok
  unfold Operator.apply at hok
  split at hok
  · rename_i harity
    exact ⟨((Support.count_onQubits _ _).symm.trans harity.symm), hd, hr⟩
  · cases hok

theorem WellFormed.apply {st st' : State α} (hst : st.WellFormed) {op : Operator α}
    (hop : op.WellFormed) {qubits : List Nat} {strategy : Strategy}
    (h : st.apply op qubits strategy = .ok st') : st'.WellFormed := by
  have hsize : st.amplitudes.size = 2 ^ st.width := by rw [hst.size, Nat.one_shiftLeft]
  have happly := apply_eq_embed hop (addresses_of_apply h) hsize strategy
  obtain rfl := Except.ok.inj (h.symm.trans happly)
  exact ⟨hst.width_pos, hst.width_le, by rw [Operator.size_embed, Nat.one_shiftLeft]⟩

end State

namespace Simulation

variable {F : Type} [Zero F] [One F] [Add F] [Sub F] [Mul F] [Neg F] [Scalar F]

/-- No check of the instructions is needed, as a step that succeeds keeps the invariant. -/
theorem wellFormed_of_replay {strategy : Strategy} {is : List (Instruction F)}
    {st st' : State (Amplitude F)} (hst : st.WellFormed) {applied : Nat}
    (h : (replay strategy is st applied).result = .ok st') : st'.WellFormed := by
  induction is generalizing st applied with
  | nil =>
    cases h
    exact hst
  | cons i is ih =>
    rw [replay] at h
    split at h
    · cases h
    · exact ih hst h
    · rename_i op hop
      split at h
      · cases h
      · rename_i st₁ happly
        exact ih (hst.apply (Operator.wellFormed_of_ofGate? hop) happly) h

theorem wellFormed_of_run {settings : Settings} {threads : Nat} {c : Circuit F}
    {st : State (Amplitude F)} (h : (run settings threads c).result = .ok st) :
    st.WellFormed := by
  rw [run] at h
  simp only [Outcome.after] at h
  split at h
  · cases h
  · split at h
    · cases h
    · rename_i st₀ hzero
      exact wellFormed_of_replay (State.wellFormed_of_zero hzero) h

end Simulation

/-- The operators and the states that calls have left. -/
structure Session (F : Type) where
  operators : List (Operator (Amplitude F)) := []
  states : List (State (Amplitude F)) := []

namespace Session

variable {F : Type}

/-- A call refers to operators and states by their places in the session. The length of an array is
a machine word. -/
inductive Call (F : Type) where
  | ofGrid (g : Grid (Amplitude F))
  | ofGate (g : Gate) (θ : F)
  | controlled (op : Nat)
  | zero (width : Nat)
  | ofAmplitudes (a : Array (Amplitude F)) (word : a.size < UInt64.size)
  | apply (st op : Nat) (qubits : List Nat) (strategy : Strategy)
  | run (settings : Settings) (threads : Nat) (c : Circuit F)

/-- What the session guarantees to every later call. -/
structure WellFormed (s : Session F) : Prop where
  operators : ∀ op ∈ s.operators, op.WellFormed
  states : ∀ st ∈ s.states, st.WellFormed

def addOperator (s : Session F) (op : Operator (Amplitude F)) : Session F :=
  { s with operators := s.operators ++ [op] }

def addState (s : Session F) (st : State (Amplitude F)) : Session F :=
  { s with states := s.states ++ [st] }

def setState (s : Session F) (k : Nat) (st : State (Amplitude F)) : Session F :=
  { s with states := s.states.set k st }

namespace WellFormed

theorem empty : (⟨[], []⟩ : Session F).WellFormed :=
  ⟨fun _ h => absurd h List.not_mem_nil, fun _ h => absurd h List.not_mem_nil⟩

variable {s : Session F} (h : s.WellFormed)

include h

theorem addOperator {op : Operator (Amplitude F)} (hop : op.WellFormed) :
    (s.addOperator op).WellFormed :=
  ⟨List.forall_mem_append.2 ⟨h.operators, List.forall_mem_singleton.2 hop⟩, h.states⟩

theorem addState {st : State (Amplitude F)} (hst : st.WellFormed) : (s.addState st).WellFormed :=
  ⟨h.operators, List.forall_mem_append.2 ⟨h.states, List.forall_mem_singleton.2 hst⟩⟩

theorem setState {st : State (Amplitude F)} (k : Nat) (hst : st.WellFormed) :
    (s.setState k st).WellFormed := by
  refine ⟨h.operators, fun st' hmem => ?_⟩
  rcases List.mem_or_eq_of_mem_set hmem with hmem | rfl
  · exact h.states st' hmem
  · exact hst

end WellFormed

variable [Zero F] [One F] [Add F] [Sub F] [Mul F] [Neg F] [Scalar F]

/-- The session after a call that succeeds. A measurement has no operator, and where a place is
empty there is nothing to do. -/
def Call.perform (s : Session F) : Call F → Except (SimulationError F) (Session F)
  | .ofGrid g =>
    match Operator.ofGrid g with
    | .ok op => .ok (s.addOperator op)
    | .error e => .error (.register e)
  | .ofGate g θ =>
    match Operator.ofGate? g θ with
    | .ok (some op) => .ok (s.addOperator op)
    | .ok none => .ok s
    | .error e => .error e
  | .controlled k =>
    match s.operators[k]? with
    | some op =>
      match op.controlled with
      | .ok op' => .ok (s.addOperator op')
      | .error e => .error (.register e)
    | none => .ok s
  | .zero width =>
    match State.zero width with
    | .ok st => .ok (s.addState st)
    | .error e => .error (.register e)
  | .ofAmplitudes a _ =>
    match State.ofAmplitudes a with
    | .ok st => .ok (s.addState st)
    | .error e => .error (.register e)
  | .apply k j qubits strategy =>
    match s.states[k]?, s.operators[j]? with
    | some st, some op =>
      match st.apply op qubits strategy with
      | .ok st' => .ok (s.setState k st')
      | .error e => .error (.register e)
    | _, _ => .ok s
  | .run settings threads c =>
    match (Simulation.run settings threads c).result with
    | .ok st => .ok (s.addState st)
    | .error e => .error e

/-- A call that fails leaves everything as it was. -/
def step (s : Session F) (call : Call F) : Session F :=
  match call.perform s with
  | .ok s' => s'
  | .error _ => s

/-- The session that is left after all of the calls. -/
def after (s : Session F) (calls : List (Call F)) : Session F := calls.foldl step s

/-- One call that succeeds. -/
theorem WellFormed.perform {s s' : Session F} (h : s.WellFormed) {call : Call F}
    (hok : call.perform s = .ok s') : s'.WellFormed := by
  cases call with
  | ofGrid g =>
    rw [Call.perform] at hok
    split at hok <;> cases hok
    rename_i op hop
    exact h.addOperator (Operator.wellFormed_of_ofGrid hop)
  | ofGate g θ =>
    rw [Call.perform] at hok
    split at hok <;> cases hok
    · rename_i op hop
      exact h.addOperator (Operator.wellFormed_of_ofGate? hop)
    · exact h
  | controlled k =>
    rw [Call.perform] at hok
    split at hok
    · split at hok <;> cases hok
      rename_i op' hop'
      exact h.addOperator (Operator.wellFormed_of_ofGrid hop')
    · cases hok
      exact h
  | zero width =>
    rw [Call.perform] at hok
    split at hok <;> cases hok
    rename_i st hst
    exact h.addState (State.wellFormed_of_zero hst)
  | ofAmplitudes a word =>
    rw [Call.perform] at hok
    split at hok <;> cases hok
    rename_i st hst
    exact h.addState (State.wellFormed_of_ofAmplitudes word hst)
  | apply k j qubits strategy =>
    rw [Call.perform] at hok
    split at hok
    · rename_i st op hst hop
      split at hok <;> cases hok
      rename_i st' happly
      have hst := h.states st (List.mem_of_getElem? hst)
      have hop := h.operators op (List.mem_of_getElem? hop)
      exact h.setState k (hst.apply hop happly)
    · cases hok
      exact h
  | run settings threads c =>
    rw [Call.perform] at hok
    split at hok <;> cases hok
    rename_i st hst
    exact h.addState (Simulation.wellFormed_of_run hst)

theorem WellFormed.step {s : Session F} (h : s.WellFormed) (call : Call F) :
    (s.step call).WellFormed := by
  unfold Session.step
  split
  · rename_i s' hok
    exact h.perform hok
  · exact h

theorem WellFormed.after {s : Session F} (h : s.WellFormed) (calls : List (Call F)) :
    (s.after calls).WellFormed := by
  induction calls generalizing s with
  | nil => exact h
  | cons call calls ih => exact ih (h.step call)

/-- A third control, entries that are not square, an angle that is not finite, a register of 64
qubits, three amplitudes and a wrong number of qubits are refused, and what was there stays. -/
example :
    let s := after {} [.ofGate (.one .y) (0 : Float), .controlled 0, .controlled 1, .controlled 2,
      .ofGrid (.ofFn 2 4 fun _ _ => 1), .ofGate (.rotation .x) (1 / 0), .zero 64, .zero 2,
      .ofAmplitudes #[1, 0, 1] (by decide), .ofAmplitudes #[1, 0, 0, 1, 0, 1, 1, 0] (by decide),
      .apply 0 1 [1, 0] (.parallel 4), .apply 1 2 [0, 1] .sequential]
    s.operators.map (·.arity) = [1, 2, 3] ∧ s.states.map (·.width) = [2, 3] := by
  decide

/-- Whatever is called, the matrices that are left are square with a side that fits the number of
operands, and the arrays have an amplitude for every basis index. Amplitudes and matrices that a
call was given are taken as they are or refused for their size alone. -/
theorem representation_invariant (calls : List (Call F)) :
    (∀ op ∈ (after {} calls).operators, 1 ≤ op.arity ∧ op.arity ≤ 3 ∧
      op.matrix.rows = 2 ^ op.arity ∧ op.matrix.cols = 2 ^ op.arity) ∧
    (∀ st ∈ (after {} calls).states, 1 ≤ st.width ∧ st.width ≤ 63 ∧
      st.amplitudes.size = 2 ^ st.width) ∧
    (∀ (a : Array (Amplitude F)) (st : State (Amplitude F)),
      State.ofAmplitudes a = .ok st ↔ ∃ n, 1 ≤ n ∧ a.size = 2 ^ n ∧ st = ⟨n, a⟩) ∧
    ∀ (g : Grid (Amplitude F)) (op : Operator (Amplitude F)), Operator.ofGrid g = .ok op ↔
      ∃ k, 1 ≤ k ∧ k ≤ 3 ∧ g.rows = 2 ^ k ∧ g.cols = 2 ^ k ∧ op = ⟨k, g⟩ := by
  have hs := WellFormed.empty.after calls
  refine ⟨fun op hmem => ?_, fun st hmem => ?_, fun a st => State.ofAmplitudes_eq_ok_iff,
    fun g op => Operator.ofGrid_eq_ok_iff⟩
  · have hop := hs.operators op hmem
    have hdim : op.dim = 2 ^ op.arity := Nat.one_shiftLeft _
    exact ⟨hop.arity_pos, hop.arity_le, hop.rows.trans hdim, hop.cols.trans hdim⟩
  · have hst := hs.states st hmem
    exact ⟨hst.width_pos, hst.width_le, hst.size.trans (Nat.one_shiftLeft _)⟩

end Session

namespace State

variable {F : Type} [Zero F] [One F] [Add F] [Sub F] [Mul F] [Neg F] [Scalar F]

/-- Some calls have left the state. -/
def Reachable (st : State (Amplitude F)) : Prop :=
  ∃ calls : List (Session.Call F), st ∈ (Session.after {} calls).states

theorem Reachable.wellFormed {st : State (Amplitude F)} (h : st.Reachable) : st.WellFormed := by
  obtain ⟨calls, hmem⟩ := h
  exact (Session.WellFormed.empty.after calls).states st hmem

theorem Reachable.size {st : State (Amplitude F)} (h : st.Reachable) :
    st.amplitudes.size = 2 ^ st.width := by
  rw [h.wellFormed.size, Nat.one_shiftLeft]

/-- One call makes a state of given amplitudes. -/
theorem reachable_of_size {width : Nat} (hpos : 1 ≤ width) (hle : width ≤ maxWidth)
    {a : Array (Amplitude F)} (ha : a.size = 2 ^ width) :
    (⟨width, a⟩ : State (Amplitude F)).Reachable := by
  have hword : a.size < UInt64.size := by
    rw [ha]
    exact Nat.pow_lt_pow_right (by decide) (Nat.lt_succ_of_le hle)
  refine ⟨[.ofAmplitudes a hword], ?_⟩
  have hmake := ofAmplitudes_eq_ok_iff.2 ⟨width, hpos, ha, rfl⟩
  simp [Session.after, Session.step, Session.Call.perform, hmake, Session.addState]

end State

end Ket
