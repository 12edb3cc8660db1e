import Ket.Proofs.Application.Runs
import Ket.Proofs.Operator.Embedding

/-! Parallel application does what sequential application does, entry for entry and whatever the
arithmetic is: by blocks, by groups of runs done in any order, and with any number of threads. -/

namespace Ket.Operator

variable {α : Type} [Zero α] [Add α] [Mul α]

/-- The groups of runs, each with its classes processed, in the order in which they are done. -/
def GroupsDone (op : Operator α) (s : Support) (a : Array α) (done : List (Array (Run α))) : Prop :=
  let length := 1 <<< min s.lowest maxRunBits
  done.Perm ((Run.groups s (Run.cut length a)).map (Run.transformGroup op length))

variable {op : Operator α}

theorem foldl_groups_eq {s : Support} (h : op.Fits s) (hne : s.positions ≠ []) {m : Nat}
    (hm : ∀ p ∈ s.positions, p < m) {a : Array α} (ha : 2 ^ m ∣ a.size)
    {done : List (Array (Run α))} (hdone : op.GroupsDone s a done) :
    done.foldl (fun a group => group.foldl Run.writeTo a) a = op.applySequentially s a := by
  have hlow : ∀ p ∈ s.positions, min s.lowest maxRunBits ≤ p := fun p hp =>
    Nat.le_trans (Nat.min_le_left _ _) (Support.lowest_le h.distinct p hp)
  have hle : min s.lowest maxRunBits ≤ m :=
    have hhigh := Support.highest_mem hne
    Nat.le_of_lt (Nat.lt_of_le_of_lt (hlow _ hhigh) (hm _ hhigh))
  rw [GroupsDone, Nat.one_shiftLeft] at hdone
  refine Array.ext_getElem? fun i => ?_
  rw [getElem?_applySequentially h hm ha, Run.getElem?_foldl_groups h hlow hm hle ha hdone]

theorem applyToGroups_eq {s : Support} (h : op.Fits s) (hne : s.positions ≠ []) {m : Nat}
    (hm : ∀ p ∈ s.positions, p < m) {a : Array α} (ha : 2 ^ m ∣ a.size) :
    op.applyToGroups s a = op.applySequentially s a :=
  foldl_groups_eq h hne hm ha (List.Perm.refl _)

theorem applyToHighestBlocks_eq {s : Support} (h : op.Fits s) (hne : s.positions ≠ []) {m : Nat}
    (hm : ∀ p ∈ s.positions, p < m) {a : Array α} (ha : 2 ^ m ∣ a.size) :
    op.applyToBlocks s (1 <<< (s.highest + 1)) a = op.applySequentially s a := by
  have hhigh := hm _ (Support.highest_mem hne)
  rw [Nat.one_shiftLeft]
  exact applyToBlocks_eq h (fun p hp => Nat.lt_succ_of_le (Support.le_highest h.distinct p hp))
    (Nat.dvd_trans (Nat.pow_dvd_pow 2 hhigh) ha)

theorem applyInParallel_eq {s : Support} (h : op.Fits s) (hne : s.positions ≠ []) {m : Nat}
    (hm : ∀ p ∈ s.positions, p < m) {a : Array α} (ha : 2 ^ m ∣ a.size) (threads : Nat) :
    op.applyInParallel s threads a = op.applySequentially s a := by
  rw [applyInParallel]
  split
  · exact applyToHighestBlocks_eq h hne hm ha
  · exact applyToGroups_eq h hne hm ha

/-- Both ways to split the work, and the choice between them, agree with the sequential loop. -/
theorem parallel_eq_sequential (hop : op.WellFormed) {width : Nat} {qubits : List Nat}
    (hq : op.Addresses width qubits) {a : Array α} (ha : a.size = 2 ^ width) (threads : Nat) :
    ∃ s, Support.ofQubits width qubits = .ok s ∧
      op.applyToBlocks s (1 <<< (s.highest + 1)) a = op.applySequentially s a ∧
      op.applyToGroups s a = op.applySequentially s a ∧
      (∀ done, op.GroupsDone s a done →
        done.foldl (fun a group => group.foldl Run.writeTo a) a = op.applySequentially s a) ∧
      op.applyInParallel s threads a = op.applySequentially s a ∧
      op.apply s (.parallel threads) a = .ok (op.applySequentially s a) := by
  have h := hq.fits hop
  have hne := (hq.valid hop).positions_ne_nil
  have hm := (hq.valid hop).inRange
  have hdvd : 2 ^ width ∣ a.size := ⟨1, by rw [ha, Nat.mul_one]⟩
  have hpar := applyInParallel_eq h hne hm hdvd threads
  refine ⟨_, hq.ofQubits hop, applyToHighestBlocks_eq h hne hm hdvd,
    applyToGroups_eq h hne hm hdvd, fun done => foldl_groups_eq h hne hm hdvd, hpar, ?_⟩
  rw [apply, if_pos (by rw [Support.count_onQubits, hq.length]), ← hpar]

/-- The controlled exchange on qubits 3, 0 and 2 of four, with more threads than blocks. -/
theorem parallel_exchange_on_four :
    (exchange 3 0b101 0b110 : Operator Int).WellFormed ∧
      (exchange 3 0b101 0b110 : Operator Int).Addresses 4 [3, 0, 2] ∧
      (Array.ofFn fun i : Fin 16 => (i : Int)).size = 2 ^ 4 ∧
      ∃ s, Support.ofQubits 4 [3, 0, 2] = .ok s ∧
        (exchange 3 0b101 0b110 : Operator Int).applyInParallel s 64
            (Array.ofFn fun i : Fin 16 => (i : Int)) =
          (exchange 3 0b101 0b110 : Operator Int).applySequentially s
            (Array.ofFn fun i : Fin 16 => (i : Int)) := by
  have hop : (exchange 3 0b101 0b110 : Operator Int).WellFormed :=
    ⟨by decide, by decide, rfl, rfl⟩
  have hq : (exchange 3 0b101 0b110 : Operator Int).Addresses 4 [3, 0, 2] :=
    ⟨rfl, by decide, by decide⟩
  have ha : (Array.ofFn fun i : Fin 16 => (i : Int)).size = 2 ^ 4 := Array.size_ofFn
  obtain ⟨s, hs, -, -, -, h, -⟩ := parallel_eq_sequential hop hq ha 64
  exact ⟨hop, hq, ha, s, hs, h⟩

end Ket.Operator
