import Mathlib.Data.List.Permutation
import Mathlib.Logic.Function.Basic
import Ket.Proofs.Operator.Embedding

/-! Schedules of the work on the classes. Each class gathers its amplitudes into a memory of its own
and later scatters the transformed ones, and steps of different classes may come in any order. While
some classes are in flight, the array holds the new entries of those that have scattered, and the
old amplitudes of all others. -/

namespace Ket

/-- One half of the work on the class with the given representative. -/
inductive ClassStep
  | gather (rep : Nat)
  | scatter (rep : Nat)
deriving DecidableEq

/-- The amplitudes, which all classes share, and the memory of each class. -/
structure Workspace (α : Type) where
  amplitudes : Array α
  memory : Nat → List α

/-- An order of the steps of the given classes. -/
structure Schedule (reps : List Nat) (steps : List ClassStep) : Prop where
  /-- Every class gathers once and scatters once. -/
  perm : steps.Perm (reps.flatMap fun rep => [.gather rep, .scatter rep])
  /-- No class gathers after it has scattered. -/
  order : steps.Pairwise fun x y => ∀ rep, x = .scatter rep → y ≠ .gather rep

namespace Schedule

variable {reps : List Nat} {steps done rest : List ClassStep}

theorem gather_mem_iff (h : Schedule reps steps) {rep : Nat} :
    .gather rep ∈ steps ↔ rep ∈ reps := by
  simp [h.perm.mem_iff]

theorem scatter_mem_iff (h : Schedule reps steps) {rep : Nat} :
    .scatter rep ∈ steps ↔ rep ∈ reps := by
  simp [h.perm.mem_iff]

theorem length_eq (h : Schedule reps steps) : steps.length = 2 * reps.length := by
  rw [h.perm.length_eq, List.length_flatMap]
  simp [Nat.mul_comm]

theorem scatter_notMem_of_gather {rep : Nat} (h : Schedule reps (done ++ .gather rep :: rest)) :
    .scatter rep ∉ done := by
  intro hmem
  obtain ⟨-, -, hbefore⟩ := List.pairwise_append.1 h.order
  exact hbefore _ hmem _ (List.mem_cons_self ..) rep rfl rfl

theorem gather_mem_of_scatter {rep : Nat} (h : Schedule reps (done ++ .scatter rep :: rest)) :
    .gather rep ∈ done := by
  have hrep : rep ∈ reps := h.scatter_mem_iff.1 (by simp)
  have hmem := h.gather_mem_iff.2 hrep
  simp only [List.mem_append, List.mem_cons, reduceCtorEq, false_or] at hmem
  rcases hmem with hmem | hmem
  · exact hmem
  · obtain ⟨-, hrest, -⟩ := List.pairwise_append.1 h.order
    exact absurd rfl ((List.pairwise_cons.1 hrest).1 _ hmem rep rfl)

/-- The classes one after the other, in any order. -/
theorem one_by_one {reps' : List Nat} (h : reps'.Perm reps) (hnd : reps.Nodup) :
    Schedule reps (reps'.flatMap fun rep => [.gather rep, .scatter rep]) where
  perm := h.flatMap_right _
  order := by
    refine List.pairwise_flatMap.2 ⟨fun rep _ => by simp, ?_⟩
    refine (h.nodup_iff.2 hnd).imp fun {p q} hne x hx y hy rep hxr hyr => hne ?_
    subst hxr hyr
    simp only [List.mem_cons, reduceCtorEq, ClassStep.scatter.injEq, ClassStep.gather.injEq,
      List.not_mem_nil, or_false, false_or] at hx hy
    rw [← hx, hy]

end Schedule

variable {α : Type} [Zero α] [Add α] [Mul α]

namespace Operator

/-- A gather copies the members of the class into its memory, and a scatter writes what the operator
makes of that memory. -/
def classStep (op : Operator α) (s : Support) (w : Workspace α) : ClassStep → Workspace α
  | .gather rep =>
    { w with memory := Function.update w.memory rep (gather w.amplitudes (s.members rep)) }
  | .scatter rep =>
    { w with amplitudes := scatter w.amplitudes (s.members rep) (op.transform (w.memory rep)) }

def runSteps (op : Operator α) (s : Support) (w : Workspace α) (steps : List ClassStep) :
    Workspace α :=
  steps.foldl (op.classStep s) w

/-- What holds after some of the steps, when the array was `a` before them. -/
structure InFlight (op : Operator α) (s : Support) (a : Array α) (done : List ClassStep)
    (w : Workspace α) : Prop where
  amplitudes : ∀ i, w.amplitudes[i]? =
    if .scatter (s.clear i) ∈ done then a[i]?.map fun _ => op.entry s a i else a[i]?
  memory : ∀ rep, .gather rep ∈ done → w.memory rep = gather a (s.members rep)

variable {op : Operator α} {s : Support} {a : Array α} {done : List ClassStep} {w : Workspace α}

/-- What is gathered are the amplitudes from before all steps, since no other class writes to the
members of this one. -/
theorem InFlight.gather (h : op.Fits s) (hw : op.InFlight s a done w) {rep : Nat}
    (hrep : s.clear rep = rep) (hnew : .scatter rep ∉ done) :
    op.InFlight s a (done ++ [.gather rep]) (op.classStep s w (.gather rep)) where
  amplitudes i := by simpa [classStep] using hw.amplitudes i
  memory p hp := by
    simp only [classStep]
    by_cases hpr : p = rep
    · subst hpr
      rw [Function.update_self, Ket.gather, Ket.gather]
      refine List.map_congr_left fun i hi => ?_
      have hi' := hw.amplitudes i
      rw [(Support.mem_members_iff h.distinct hrep).1 hi, if_neg hnew] at hi'
      rw [Array.getD_eq_getD_getElem?, Array.getD_eq_getD_getElem?, hi']
    · rw [Function.update_of_ne hpr]
      exact hw.memory p (by simpa [hpr] using hp)

theorem InFlight.scatter (h : op.Fits s) (hw : op.InFlight s a done w) {rep : Nat}
    (hrep : s.clear rep = rep) (hgathered : .gather rep ∈ done) :
    op.InFlight s a (done ++ [.scatter rep]) (op.classStep s w (.scatter rep)) where
  amplitudes i := by
    have hwrite := getElem?_scatter_transform h hrep a w.amplitudes i
    simp only [classStep, hw.memory rep hgathered, hwrite, hw.amplitudes i]
    by_cases hi : s.clear i = rep
    · by_cases hdone : .scatter rep ∈ done <;> simp [hi, hdone, Function.comp_def]
    · simp [hi]
  memory p hp := hw.memory p (by simpa using hp)

/-- One step of a schedule. -/
theorem InFlight.step (h : op.Fits s) {reps : List Nat} (hreps : ∀ rep ∈ reps, s.clear rep = rep)
    {step : ClassStep} {rest : List ClassStep} (hsteps : Schedule reps (done ++ step :: rest))
    (hw : op.InFlight s a done w) :
    op.InFlight s a (done ++ [step]) (op.classStep s w step) := by
  cases step with
  | gather rep =>
    have hrep := hreps rep (hsteps.gather_mem_iff.1 (by simp))
    exact hw.gather h hrep hsteps.scatter_notMem_of_gather
  | scatter rep =>
    have hrep := hreps rep (hsteps.scatter_mem_iff.1 (by simp))
    exact hw.scatter h hrep hsteps.gather_mem_of_scatter

theorem InFlight.run (h : op.Fits s) {reps : List Nat} (hreps : ∀ rep ∈ reps, s.clear rep = rep)
    {rest : List ClassStep} (hsteps : Schedule reps (done ++ rest))
    (hw : op.InFlight s a done w) : op.InFlight s a (done ++ rest) (op.runSteps s w rest) := by
  induction rest generalizing done w with
  | nil => simpa [runSteps] using hw
  | cons step rest ih =>
    have hnext := hw.step h hreps hsteps
    simpa [runSteps] using ih (by simpa using hsteps) hnext

/-- Every schedule of all classes ends with the array that the sequential loop leaves. -/
theorem runSteps_eq (h : op.Fits s) {m : Nat} (hm : ∀ p ∈ s.positions, p < m)
    (hsize : 2 ^ m ∣ a.size) {steps : List ClassStep}
    (hsteps : Schedule (s.representatives a.size) steps) (memory : Nat → List α) :
    (op.runSteps s ⟨a, memory⟩ steps).amplitudes = op.applySequentially s a := by
  have hmem {j : Nat} := Support.mem_representatives_iff (i := j) h.distinct hm hsize
  have hstart : op.InFlight s a [] ⟨a, memory⟩ :=
    ⟨fun i => by simp, fun rep hrep => by simp at hrep⟩
  have hsteps' : Schedule (s.representatives a.size) ([] ++ steps) := hsteps
  have hend : op.InFlight s a steps (op.runSteps s ⟨a, memory⟩ steps) :=
    hstart.run h (fun rep hrep => (hmem.1 hrep).2) hsteps'
  refine Array.ext_getElem? fun i => ?_
  rw [getElem?_applySequentially h hm hsize, hend.amplitudes]
  by_cases hi : i < a.size
  · have hrep := hmem.2 ⟨Nat.lt_of_le_of_lt (s.clear_le i) hi, s.clear_clear i⟩
    rw [if_pos (hsteps.scatter_mem_iff.2 hrep)]
  · simp [Array.getElem?_eq_none (Nat.le_of_not_lt hi)]

theorem runSteps_one_by_one (reps : List Nat) (w : Workspace α) :
    (op.runSteps s w (reps.flatMap fun rep => [.gather rep, .scatter rep])).amplitudes =
      reps.foldl (fun a rep => op.applyToClass (s.members rep) a) w.amplitudes := by
  induction reps generalizing w with
  | nil => rfl
  | cons rep reps ih =>
    refine (ih _).trans ?_
    simp [classStep, applyToClass]

/-- Classes may be processed in any order, and their steps may interleave in any way. -/
theorem schedule_eq_sequential (hop : op.WellFormed) {width : Nat} {qubits : List Nat}
    (hq : op.Addresses width qubits) (ha : a.size = 2 ^ width) :
    ∃ s, Support.ofQubits width qubits = .ok s ∧
      (∀ steps, Schedule (s.representatives a.size) steps →
        steps.length = 2 * 2 ^ (width - op.arity) ∧
        ∀ memory, (op.runSteps s ⟨a, memory⟩ steps).amplitudes = op.applySequentially s a) ∧
      ∀ reps : List Nat, reps.Perm (s.representatives a.size) →
        reps.foldl (fun a rep => op.applyToClass (s.members rep) a) a =
          op.applySequentially s a := by
  have h := hq.fits hop
  have hm := (hq.valid hop).inRange
  have hdvd : 2 ^ width ∣ a.size := ha ▸ Nat.dvd_refl _
  refine ⟨_, hq.ofQubits hop, fun steps hsteps => ⟨?_, runSteps_eq h hm hdvd hsteps⟩,
    fun reps hreps => ?_⟩
  · have hle : op.arity ≤ width := by
      have hcount := Support.count_le_of_lt h.distinct hm
      rwa [Support.count_onQubits, hq.length] at hcount
    rw [hsteps.length_eq, Support.representatives, List.length_map, List.length_range,
      Support.count_onQubits, hq.length, ha, Nat.shiftRight_eq_div_pow, Nat.pow_div hle (by decide)]
  · have hnd := ((Support.onQubits width qubits).pairwise_representatives a.size).nodup
    have hrun := runSteps_eq h hm hdvd (Schedule.one_by_one hreps hnd) fun _ => []
    exact (runSteps_one_by_one reps _).symm.trans hrun

/-- Both classes are in flight at once, and the one that gathers first scatters first. -/
theorem schedule_eq_sequential_on_three :
    counting.WellFormed ∧ counting.Addresses 3 [2, 0] ∧
      (#[1, 2, 3, 5, 7, 11, 13, 17] : Array Int).size = 2 ^ 3 ∧
      Schedule [0b000, 0b010] [.gather 0b010, .gather 0b000, .scatter 0b010, .scatter 0b000] ∧
      ∃ s, Support.ofQubits 3 [2, 0] = .ok s ∧
        (counting.runSteps s ⟨#[1, 2, 3, 5, 7, 11, 13, 17], fun _ => []⟩
            [.gather 0b010, .gather 0b000, .scatter 0b010, .scatter 0b000]).amplitudes =
          counting.applySequentially s #[1, 2, 3, 5, 7, 11, 13, 17] := by
  have hop : counting.WellFormed := ⟨by decide, by decide, rfl, rfl⟩
  have hq : counting.Addresses 3 [2, 0] := ⟨rfl, by decide, by decide⟩
  have ha : (#[1, 2, 3, 5, 7, 11, 13, 17] : Array Int).size = 2 ^ 3 := rfl
  have hsteps : Schedule [0b000, 0b010]
      [.gather 0b010, .gather 0b000, .scatter 0b010, .scatter 0b000] :=
    ⟨by decide, by simp⟩
  obtain ⟨s, hs, h, -⟩ := schedule_eq_sequential hop hq ha
  have hreps : s.representatives 8 = [0b000, 0b010] := by
    cases hs
    cbv
  exact ⟨hop, hq, ha, hsteps, s, hs, (h _ (hreps ▸ hsteps)).2 _⟩

end Operator

end Ket
