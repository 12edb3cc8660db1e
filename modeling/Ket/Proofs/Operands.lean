import Mathlib.Logic.Basic
import Ket.Operands

/-! The first operand at fault, told by its position in the list. The search keeps the operands that
it has seen, so in the rest of the list an operand is at fault if it is out of range, was seen or
occurs earlier. -/

namespace Ket

variable {α : Type}

/-- The operand `q` at position `j` is out of range or occurs earlier in the list. -/
def FaultAt (inRange : α → Prop) (qs : List α) (j : Nat) (q : α) : Prop :=
  qs[j]? = some q ∧ (¬ inRange q ∨ q ∈ qs.take j)

/-- No operand before position `j` is at fault. -/
structure FirstFaultAt (inRange : α → Prop) (qs : List α) (j : Nat) (q : α) : Prop where
  fault : FaultAt inRange qs j q
  first : ∀ i < j, ∀ p, ¬ FaultAt inRange qs i p

section Steps

variable {inRange : α → Prop} {p q : α} {rest : List α} {j : Nat}

theorem not_faultAt_nil : ¬ FaultAt inRange [] j q := by
  simp [FaultAt]

theorem faultAt_zero_iff : FaultAt inRange (p :: rest) 0 q ↔ p = q ∧ ¬ inRange q := by
  simp [FaultAt]

/-- Behind the first operand a repetition of it is as good as an operand out of range. -/
theorem faultAt_succ_iff :
    FaultAt inRange (p :: rest) (j + 1) q ↔ FaultAt (fun q => inRange q ∧ q ≠ p) rest j q := by
  simp only [FaultAt, List.getElem?_cons_succ, List.take_succ_cons, List.mem_cons, not_and_or,
    not_not, or_assoc, ne_eq]

theorem firstFaultAt_zero_iff : FirstFaultAt inRange (p :: rest) 0 q ↔ p = q ∧ ¬ inRange q := by
  refine ⟨fun h => faultAt_zero_iff.1 h.fault, fun h => ⟨faultAt_zero_iff.2 h, ?_⟩⟩
  exact fun i hi => absurd hi (Nat.not_lt_zero i)

theorem firstFaultAt_succ_iff :
    FirstFaultAt inRange (p :: rest) (j + 1) q ↔
      inRange p ∧ FirstFaultAt (fun q => inRange q ∧ q ≠ p) rest j q := by
  constructor
  · rintro ⟨hfault, hfirst⟩
    refine ⟨?_, faultAt_succ_iff.1 hfault, fun i hi r hr => ?_⟩
    · by_cases hp : inRange p
      · exact hp
      · exact absurd (faultAt_zero_iff.2 ⟨rfl, hp⟩) (hfirst 0 j.succ_pos p)
    · exact hfirst (i + 1) (Nat.succ_lt_succ hi) r (faultAt_succ_iff.2 hr)
  · rintro ⟨hp, hfault, hfirst⟩
    refine ⟨faultAt_succ_iff.2 hfault, fun i hi r hr => ?_⟩
    cases i with
    | zero =>
      obtain ⟨rfl, hr⟩ := faultAt_zero_iff.1 hr
      exact hr hp
    | succ i => exact hfirst i (Nat.lt_of_succ_lt_succ hi) r (faultAt_succ_iff.1 hr)

end Steps

variable [DecidableEq α] {inRange : α → Prop} [DecidablePred inRange] {qs : List α} {q : α}
  {fault : OperandFault}

/-- The search stops at once if the next operand is at fault, and else it has seen one more. -/
theorem firstFault?_cons {seen : List α} (p : α) :
    firstFault? (fun q => decide (inRange q)) seen (p :: qs) =
      if inRange p ∧ p ∉ seen then firstFault? (fun q => decide (inRange q)) (p :: seen) qs
      else some (p, if inRange p then .repeated else .outOfRange) := by
  by_cases hp : inRange p <;> by_cases hs : p ∈ seen <;> simp [firstFault?, hp, hs]

/-- The search with some operands seen before. -/
theorem firstFault?_seen_iff {seen : List α} :
    firstFault? (fun q => decide (inRange q)) seen qs = some (q, fault) ↔
      (∃ j, FirstFaultAt (fun q => inRange q ∧ q ∉ seen) qs j q) ∧
        fault = if inRange q then .repeated else .outOfRange := by
  induction qs generalizing seen with
  | nil =>
    simp only [firstFault?, reduceCtorEq, false_iff, not_and]
    rintro ⟨j, h⟩
    exact absurd h.fault not_faultAt_nil
  | cons p rest ih =>
    have hrest : (fun q => (inRange q ∧ q ∉ seen) ∧ q ≠ p) =
        fun q => inRange q ∧ q ∉ p :: seen := by
      funext r
      rw [List.mem_cons, not_or, and_assoc, and_comm (a := r ∉ seen)]
    rw [← Nat.or_exists_add_one, firstFault?_cons]
    simp only [firstFaultAt_zero_iff, firstFaultAt_succ_iff, hrest, exists_and_left]
    by_cases hp : inRange p ∧ p ∉ seen
    · have hzero : ¬ (p = q ∧ ¬ (inRange q ∧ q ∉ seen)) := by
        rintro ⟨rfl, hq⟩
        exact hq hp
      rw [if_pos hp, ih, or_iff_right hzero, and_iff_right hp]
    · rw [if_neg hp, Option.some.injEq, Prod.mk.injEq, or_iff_left fun h => hp h.1]
      constructor
      · rintro ⟨rfl, rfl⟩
        exact ⟨⟨rfl, hp⟩, rfl⟩
      · rintro ⟨⟨rfl, -⟩, rfl⟩
        exact ⟨rfl, rfl⟩

theorem firstFault?_eq_some_iff :
    firstFault? (fun q => decide (inRange q)) [] qs = some (q, fault) ↔
      (∃ j, FirstFaultAt inRange qs j q) ∧
        fault = if inRange q then .repeated else .outOfRange := by
  rw [firstFault?_seen_iff]
  simp only [List.not_mem_nil, not_false_eq_true, and_true]

end Ket
