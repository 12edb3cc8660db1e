import Ket.Proofs.Operands
import Ket.Proofs.Operator.Embedding
import Ket.State

/-! What the application of an operator to a state answers. There is one rule for each of the five
answers, and the rules speak of the operands, the arity of the operator and the width of the
register only. In place, an application that is refused has not written anything yet. -/

namespace Ket

theorem Support.ofQubits_of_firstFaultAt {width : Nat} {qubits : List Nat} {j q : Nat}
    (hcount : 1 ≤ qubits.length ∧ qubits.length ≤ 3) (h : FirstFaultAt (· < width) qubits j q) :
    ofQubits width qubits = .error (if q < width then .repeated q else .outOfRange q width) := by
  have hf := firstFault?_eq_some_iff.2 ⟨⟨j, h⟩, rfl⟩
  rw [ofQubits, if_neg (by rw [maxCount]; omega), hf]
  by_cases hq : q < width
  · rw [if_pos hq, if_pos hq]
  · rw [if_neg hq, if_neg hq]

namespace State

variable {α : Type}

section Rules

variable (width arity : Nat) (qubits : List Nat)

/-- The answers to the application of an operator of the given arity. The number of qubits counts
before the first operand at fault, and the arity counts last. -/
inductive Verdict : Except RegisterError Unit → Prop
  | targetCount (h : qubits.length = 0 ∨ 3 < qubits.length) :
      Verdict (.error (.targetCount qubits.length))
  | outOfRange {j q : Nat} (hcount : 1 ≤ qubits.length ∧ qubits.length ≤ 3)
      (h : FirstFaultAt (· < width) qubits j q) (hq : width ≤ q) :
      Verdict (.error (.outOfRange q width))
  | repeated {j q : Nat} (hcount : 1 ≤ qubits.length ∧ qubits.length ≤ 3)
      (h : FirstFaultAt (· < width) qubits j q) (hq : q < width) : Verdict (.error (.repeated q))
  | arity (hcount : 1 ≤ qubits.length ∧ qubits.length ≤ 3) (hr : ∀ q ∈ qubits, q < width)
      (hd : qubits.Nodup) (harity : arity ≠ qubits.length) :
      Verdict (.error (.arity arity qubits.length))
  | accepted (hcount : 1 ≤ qubits.length ∧ qubits.length ≤ 3) (hr : ∀ q ∈ qubits, q < width)
      (hd : qubits.Nodup) (harity : arity = qubits.length) : Verdict (.ok ())

/-- Some rule always applies. -/
theorem exists_verdict : ∃ r, Verdict width arity qubits r := by
  by_cases hcount : qubits.length = 0 ∨ 3 < qubits.length
  · exact ⟨_, .targetCount hcount⟩
  have hcount : 1 ≤ qubits.length ∧ qubits.length ≤ 3 := by omega
  cases hf : firstFault? (fun q => decide (q < width)) [] qubits with
  | some found =>
    obtain ⟨q, fault⟩ := found
    obtain ⟨⟨j, h⟩, -⟩ := firstFault?_eq_some_iff.1 hf
    rcases Nat.lt_or_ge q width with hq | hq
    · exact ⟨_, .repeated hcount h hq⟩
    · exact ⟨_, .outOfRange hcount h hq⟩
  | none =>
    obtain ⟨hr, hd, -⟩ := firstFault?_eq_none_iff.1 hf
    have hr : ∀ q ∈ qubits, q < width := by simpa using hr
    by_cases harity : arity = qubits.length
    · exact ⟨_, .accepted hcount hr hd harity⟩
    · exact ⟨_, .arity hcount hr hd harity⟩

end Rules

variable [Zero α] [Add α] [Mul α]

section Answer

variable {st : State α} {op : Operator α} {qubits : List Nat}

theorem apply_of_ofQubits {e : RegisterError} (h : Support.ofQubits st.width qubits = .error e)
    (strategy : Strategy) : st.apply op qubits strategy = .error e := by
  rw [apply, h]

/-- The answer is that of the rule that applies. -/
theorem Verdict.map_apply {r : Except RegisterError Unit} (h : Verdict st.width op.arity qubits r)
    (strategy : Strategy) : (st.apply op qubits strategy).map (fun _ => ()) = r := by
  cases h with
  | targetCount h =>
    rw [apply_of_ofQubits (if_pos h)]
    rfl
  | outOfRange hcount h hq =>
    rw [apply_of_ofQubits (Support.ofQubits_of_firstFaultAt hcount h), if_neg (Nat.not_lt.2 hq)]
    rfl
  | repeated hcount h hq =>
    rw [apply_of_ofQubits (Support.ofQubits_of_firstFaultAt hcount h), if_pos hq]
    rfl
  | arity hcount hr hd harity =>
    have hs := Support.ofQubits_eq_ok hcount.1 hcount.2 hd hr
    rw [← Support.count_onQubits st.width] at harity ⊢
    simp only [apply, hs, Operator.apply, if_neg harity, Except.map]
  | accepted hcount hr hd harity =>
    have hs := Support.ofQubits_eq_ok hcount.1 hcount.2 hd hr
    rw [← Support.count_onQubits st.width] at harity
    cases strategy <;> simp only [apply, hs, Operator.apply, if_pos harity, Except.map]

theorem map_apply_eq_iff {r : Except RegisterError Unit} (strategy : Strategy) :
    (st.apply op qubits strategy).map (fun _ => ()) = r ↔ Verdict st.width op.arity qubits r := by
  refine ⟨?_, fun h => h.map_apply strategy⟩
  rintro rfl
  obtain ⟨r, h⟩ := exists_verdict st.width op.arity qubits
  rwa [h.map_apply strategy]

end Answer

section InPlace

variable (op : Operator α)

def overwriteClass (s : Support) (rep : Nat) (st : State α) : State α :=
  { st with amplitudes := op.applyToClass (s.members rep) st.amplitudes }

def overwrite (s : Support) (strategy : Strategy) : EStateM RegisterError (State α) Unit := do
  unless op.arity = s.count do
    throw (.arity op.arity s.count)
  let st ← get
  match strategy with
  | .sequential =>
    (s.representatives st.amplitudes.size).forM fun rep => modify (overwriteClass op s rep)
  | .parallel threads => set { st with amplitudes := op.applyInParallel s threads st.amplitudes }

/-- Application in place. When an error is thrown, what was written until then stays. -/
def applyInPlace (qubits : List Nat) (strategy : Strategy) :
    EStateM RegisterError (State α) Unit := do
  let st ← get
  match Support.ofQubits st.width qubits with
  | .error e => throw e
  | .ok s => overwrite op s strategy

/-- No class is refused, so the loop runs to its end. -/
theorem run_overwriteClasses (s : Support) (reps : List Nat) (st : State α) :
    (reps.forM fun rep => modify (overwriteClass op s rep) :
        EStateM RegisterError (State α) Unit).run st =
      .ok () ⟨st.width,
        reps.foldl (fun a rep => op.applyToClass (s.members rep) a) st.amplitudes⟩ := by
  induction reps generalizing st with
  | nil => rfl
  | cons rep reps ih => exact ih (overwriteClass op s rep st)

theorem run_overwrite (s : Support) (strategy : Strategy) (st : State α) :
    (overwrite op s strategy).run st =
      match op.apply s strategy st.amplitudes with
      | .ok a => .ok () ⟨st.width, a⟩
      | .error e => .error e st := by
  by_cases harity : op.arity = s.count
  · cases strategy with
    | sequential =>
      simp only [overwrite, Operator.apply, if_pos harity]
      exact run_overwriteClasses op s (s.representatives st.amplitudes.size) st
    | parallel threads =>
      simp only [overwrite, Operator.apply, if_pos harity]
      rfl
  · simp only [overwrite, Operator.apply, if_neg harity]
    rfl

/-- In place, too, an application does all of its work or none. -/
theorem run_applyInPlace (qubits : List Nat) (strategy : Strategy) (st : State α) :
    (applyInPlace op qubits strategy).run st =
      match st.apply op qubits strategy with
      | .ok st' => .ok () st'
      | .error e => .error e st := by
  change EStateM.run (match Support.ofQubits st.width qubits with
    | .error e => throw e
    | .ok s => overwrite op s strategy) st = _
  rw [apply]
  cases Support.ofQubits st.width qubits with
  | error e => rfl
  | ok s =>
    refine (run_overwrite op s strategy st).trans ?_
    dsimp only
    cases op.apply s strategy st.amplitudes <;> rfl

end InPlace

/-- An application that is refused leaves the state as it was, and the answer follows the rules,
whichever strategy is chosen. -/
theorem apply_verdict (st : State α) (op : Operator α) (qubits : List Nat) (strategy : Strategy) :
    (∀ r, (st.apply op qubits strategy).map (fun _ => ()) = r ↔
        Verdict st.width op.arity qubits r) ∧
      (∀ strategy', (st.apply op qubits strategy').map (fun _ => ()) =
        (st.apply op qubits strategy).map fun _ => ()) ∧
      (applyInPlace op qubits strategy).run st =
        match st.apply op qubits strategy with
        | .ok st' => .ok () st'
        | .error e => .error e st := by
  obtain ⟨r, h⟩ := exists_verdict st.width op.arity qubits
  refine ⟨fun r => map_apply_eq_iff strategy, fun strategy' => ?_,
    run_applyInPlace op qubits strategy st⟩
  rw [h.map_apply strategy, h.map_apply strategy']

example (op : Operator α) (a : Array α) (strategy : Strategy) :
    apply ⟨3, a⟩ op [1, 1, 9] strategy = .error (.repeated 1) ∧
      apply ⟨3, a⟩ op [9, 1, 1, 9] strategy = .error (.targetCount 4) := ⟨rfl, rfl⟩

end State

end Ket
