import Ket.Application
import Ket.Proofs.Support.Classes

/-! The entry that an application leaves at each index. It is the product of one row of the matrix
with the class of the index, as the class stood before. An application writes one class after the
other, and an entry is read only for its own class, so the order does not matter. -/

namespace Ket

variable {α : Type}

/-- Writing the values of a function leaves them at the indices written to, however often. -/
theorem getElem?_foldl_setIfInBounds {f : Nat → α} {writes : List (Nat × α)}
    (hf : ∀ w ∈ writes, w.2 = f w.1) (a : Array α) (i : Nat) :
    (writes.foldl (fun a w => a.setIfInBounds w.1 w.2) a)[i]? =
      if i ∈ writes.map (·.1) then a[i]?.map fun _ => f i else a[i]? := by
  induction writes generalizing a with
  | nil => simp
  | cons w writes ih =>
    have hw : w.2 = f w.1 := hf w (by simp)
    rw [List.foldl_cons, ih fun w' hw' => hf w' (by simp [hw'])]
    by_cases hi : w.1 = i
    · subst hi
      by_cases hlt : w.1 < a.size <;> simp [hlt, hw]
    · have hmem : i ∈ (w :: writes).map (·.1) ↔ i ∈ writes.map (·.1) := by
        rw [List.map_cons, List.mem_cons, or_iff_right (Ne.symm hi)]
      simp only [hmem, Array.getElem?_setIfInBounds_ne hi]

theorem size_scatter (a : Array α) (indices : List Nat) (values : List α) :
    (scatter a indices values).size = a.size := by
  rw [scatter]
  induction indices.zip values generalizing a with
  | nil => rfl
  | cons w writes ih => rw [List.foldl_cons, ih, Array.size_setIfInBounds]

theorem Grid.total_congr [Zero α] [Add α] {f g : Nat → α} {n : Nat} (h : ∀ c < n, f c = g c) :
    total f n = total g n := by
  induction n with
  | zero => rfl
  | succ n ih => rw [total, total, ih fun c hc => h c (by omega), h n (by omega)]

theorem Grid.total_eq_foldl [Zero α] [Add α] (f : Nat → α) (n : Nat) :
    total f n = (List.range n).foldl (fun sum c => sum + f c) 0 := by
  induction n with
  | zero => rfl
  | succ n ih => rw [total, ih, List.range_succ, List.foldl_append, List.foldl_cons, List.foldl_nil]

namespace Support

theorem members_eq (s : Support) (rep : Nat) :
    s.members rep = (List.range (2 ^ s.count)).map fun b => rep ||| deposit s.positions b := by
  rw [members, offsets, classSize_eq, List.map_map]
  rfl

theorem mem_members_iff {s : Support} (hd : s.positions.Nodup) {rep : Nat}
    (hrep : s.clear rep = rep) {i : Nat} : i ∈ s.members rep ↔ s.clear i = rep := by
  simp only [members_eq, List.mem_map, List.mem_range]
  refine ⟨?_, ?_⟩
  · rintro ⟨b, -, rfl⟩
    rw [clear_or_deposit, hrep]
  · rintro rfl
    exact ⟨s.localIndex i, localIndex_lt s i, clear_or_deposit_localIndex hd i⟩

end Support

namespace Operator

/-- The operator and the support speak of the same number of qubits. -/
structure Fits (op : Operator α) (s : Support) : Prop where
  distinct : s.positions.Nodup
  rows : op.matrix.rows = 2 ^ s.count
  cols : op.matrix.cols = 2 ^ s.count

theorem WellFormed.fits {op : Operator α} (hop : op.WellFormed) {s : Support}
    (hd : s.positions.Nodup) (h : op.arity = s.count) : op.Fits s where
  distinct := hd
  rows := by rw [hop.rows, dim, Nat.one_shiftLeft, h]
  cols := by rw [hop.cols, dim, Nat.one_shiftLeft, h]

variable [Zero α] [Add α] [Mul α]

/-- The product of the row of index `i` with the class of `i`. -/
def entry (op : Operator α) (s : Support) (a : Array α) (i : Nat) : α :=
  Grid.total
    (fun c => op.matrix.get (s.localIndex i) c *
      a.getD (s.clear i ||| Support.deposit s.positions c) 0)
    op.matrix.cols

theorem entry_congr {op : Operator α} {s : Support} {a b : Array α} {i : Nat}
    (h : ∀ j, s.clear j = s.clear i → a[j]? = b[j]?) : op.entry s a i = op.entry s b i := by
  refine Grid.total_congr fun c _ => ?_
  have hc : s.clear (s.clear i ||| Support.deposit s.positions c) = s.clear i := by
    rw [Support.clear_or_deposit, Support.clear_clear]
  rw [Array.getD_eq_getD_getElem?, Array.getD_eq_getD_getElem?, h _ hc]

variable {op : Operator α} {s : Support}

/-- The transformed class holds the entries of its members, in the order of the rows. -/
theorem transform_gather_members (h : op.Fits s) {rep : Nat} (hrep : s.clear rep = rep)
    (a : Array α) :
    op.transform (gather a (s.members rep)) = (s.members rep).map (op.entry s a) := by
  simp only [transform, Grid.mulColumn, gather, Support.members_eq, List.map_map, h.rows]
  refine List.map_congr_left fun b hb => Grid.total_congr fun c hc => ?_
  rw [List.mem_range] at hb
  rw [h.cols] at hc
  simp [Support.localIndex_or_deposit h.distinct hrep hb, Support.clear_or_deposit, hrep,
    List.getD_eq_getElem?_getD, hc]

/-- What one class writes, when the array may have changed since the class was gathered. -/
theorem getElem?_scatter_transform (h : op.Fits s) {rep : Nat} (hrep : s.clear rep = rep)
    (a b : Array α) (i : Nat) :
    (scatter b (s.members rep) (op.transform (gather a (s.members rep))))[i]? =
      if s.clear i = rep then b[i]?.map fun _ => op.entry s a i else b[i]? := by
  have hzip : (s.members rep).zip ((s.members rep).map (op.entry s a)) =
      (s.members rep).map fun j => (j, op.entry s a j) := by
    rw [← List.zip_map', List.map_id']
  rw [transform_gather_members h hrep, scatter, hzip,
    getElem?_foldl_setIfInBounds (f := op.entry s a) (by simp)]
  simp only [List.map_map, Function.comp_def, List.map_id', Support.mem_members_iff h.distinct hrep]

theorem getElem?_applyToClass (h : op.Fits s) {rep : Nat} (hrep : s.clear rep = rep)
    (a : Array α) (i : Nat) :
    (op.applyToClass (s.members rep) a)[i]? =
      if s.clear i = rep then a[i]?.map fun _ => op.entry s a i else a[i]? :=
  getElem?_scatter_transform h hrep a a i

/-- Classes that were processed hold their entries, the others are as they were. -/
theorem getElem?_foldl_applyToClass (h : op.Fits s) {reps : List Nat} (hnd : reps.Nodup)
    (hreps : ∀ rep ∈ reps, s.clear rep = rep) (a : Array α) (i : Nat) :
    (reps.foldl (fun a rep => op.applyToClass (s.members rep) a) a)[i]? =
      if s.clear i ∈ reps then a[i]?.map fun _ => op.entry s a i else a[i]? := by
  induction reps using List.reverseRecOn generalizing i with
  | nil => simp
  | append_singleton reps rep ih =>
    obtain ⟨hnd', -, hdisj⟩ := List.nodup_append.1 hnd
    have hnew : rep ∉ reps := fun hm => hdisj rep hm rep (by simp) rfl
    have ih' := ih hnd' fun r hr => hreps r (by simp [hr])
    rw [List.foldl_append, List.foldl_cons, List.foldl_nil,
      getElem?_applyToClass h (hreps rep (by simp)), ih' i]
    by_cases hi : s.clear i = rep
    · -- the class of `i` is still as it was in `a`
      have hsame : op.entry s (reps.foldl (fun a rep => op.applyToClass (s.members rep) a) a) i =
          op.entry s a i :=
        entry_congr fun j hj => by rw [ih' j, hj, hi, if_neg hnew]
      simp [hi, hnew, hsame]
    · simp [hi]

theorem size_applySequentially (op : Operator α) (s : Support) (a : Array α) :
    (op.applySequentially s a).size = a.size := by
  rw [applySequentially]
  generalize s.representatives a.size = reps
  induction reps generalizing a with
  | nil => rfl
  | cons rep reps ih => exact (ih _).trans (size_scatter _ _ _)

theorem getElem?_applySequentially (h : op.Fits s) {m : Nat} (hm : ∀ p ∈ s.positions, p < m)
    {a : Array α} (hsize : 2 ^ m ∣ a.size) (i : Nat) :
    (op.applySequentially s a)[i]? = a[i]?.map fun _ => op.entry s a i := by
  have hmem {j : Nat} := Support.mem_representatives_iff (i := j) h.distinct hm hsize
  have hfold := getElem?_foldl_applyToClass h (s.pairwise_representatives a.size).nodup
    (fun rep hrep => (hmem.1 hrep).2) a i
  refine Eq.trans hfold ?_
  by_cases hi : i < a.size
  · have hrep : s.clear i ∈ s.representatives a.size :=
      hmem.2 ⟨Nat.lt_of_le_of_lt (s.clear_le i) hi, s.clear_clear i⟩
    rw [if_pos hrep]
  · simp [Array.getElem?_eq_none (Nat.le_of_not_lt hi)]

end Operator

end Ket
