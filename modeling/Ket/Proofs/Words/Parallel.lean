import Ket.Proofs.Application.Groups
import Ket.Proofs.Application.Parallel
import Ket.Proofs.Words.Application

/-! Parallel application with its indices computed on machine words. The runs of a group are
transformed in place, one place after the other. -/

namespace Ket

open Word

variable {α : Type}

namespace Run

section Places

variable [Zero α] [Add α] [Mul α]

def writePlace? (j : Nat) (r : Run α) (x : α) : Option (Run α) := do
  return { r with values := ← write? r.values j x }

omit [Zero α] [Add α] [Mul α] in
theorem writePlace?_eq {j : Nat} {r : Run α} (hj : j < r.values.size) (x : α) :
    writePlace? j r x = some { r with values := r.values.setIfInBounds j x } := by
  rw [writePlace?, write?_eq hj]
  rfl

/-- Reads one place of all runs of a group, and then writes it. -/
def transformPlace? (op : Operator α) (group : List (Run α)) (j : Nat) :
    Option (List (Run α)) := do
  let column ← group.mapM fun r => r.values[j]?
  let values ← op.transform? column
  (group.zip values).mapM fun w => writePlace? j w.1 w.2

def transformGroup? (op : Operator α) (length : UInt64) (group : Array (Run α)) :
    Option (Array (Run α)) := do
  return (← (List.range length.toNat).foldlM (transformPlace? op) group.toList).toArray

/-- The group with all places below `j` transformed. -/
def transformed (op : Operator α) (length : Nat) (group : List (Run α)) (j : Nat) :
    List (Run α) :=
  group.mapIdx fun b r => { r with values := ((List.range length).map fun i =>
    if i < j then (op.transform (group.map fun r => r.values.getD i 0)).getD b 0
    else r.values.getD i 0).toArray }

omit [Zero α] [Add α] [Mul α] in
theorem setIfInBounds_map_range (f : Nat → α) (length j : Nat) (x : α) :
    ((List.range length).map f).toArray.setIfInBounds j x =
      ((List.range length).map fun i => if i = j then x else f i).toArray := by
  refine Array.ext (by simp) fun i hi hi' => ?_
  simp [List.getElem_set, eq_comm]

variable {op : Operator α} {length : Nat}

theorem length_transformed (group : List (Run α)) (j : Nat) :
    (transformed op length group j).length = group.length := List.length_mapIdx

theorem size_values_of_mem_transformed {group : List (Run α)} {j : Nat} {r : Run α}
    (hr : r ∈ transformed op length group j) : r.values.size = length := by
  obtain ⟨b, hb, rfl⟩ := List.getElem_of_mem hr
  simp [transformed]

theorem transformed_zero {group : List (Run α)} (hlength : ∀ r ∈ group, r.values.size = length) :
    transformed op length group 0 = group := by
  refine List.ext_getElem (length_transformed ..) fun b hb hb' => ?_
  have hsize := hlength _ (List.getElem_mem hb')
  have hvalues : ((List.range length).map fun i => group[b].values.getD i 0).toArray =
      group[b].values := by
    refine Array.ext (by simp [hsize]) fun i hi hi' => ?_
    simp [hi']
  simp only [transformed, List.getElem_mapIdx, Nat.not_lt_zero, if_false, hvalues]

theorem transformed_length (group : Array (Run α)) :
    (transformed op length group.toList length).toArray = transformGroup op length group := by
  refine Array.ext (by simp [transformed, transformGroup]) fun b hb hb' => ?_
  simp only [transformed, transformGroup, List.getElem_toArray, List.getElem_mapIdx,
    Array.getElem_mapIdx, Array.getElem_toList, List.map_map]
  congr 2
  refine List.map_congr_left fun i hi => ?_
  rw [if_pos (List.mem_range.1 hi)]
  rfl

variable {group : List (Run α)}

/-- The next place is still as it was. -/
theorem map_getD_transformed {j : Nat} (hj : j < length) :
    ((transformed op length group j).map fun r => r.values.getD j 0) =
      group.map fun r => r.values.getD j 0 := by
  refine List.ext_getElem (by simp [length_transformed]) fun b hb hb' => ?_
  simp [transformed, hj]

theorem transformPlace?_eq (hrows : op.matrix.rows = group.length)
    (hcols : op.matrix.cols = group.length) {j : Nat} (hj : j < length) :
    transformPlace? op (transformed op length group j) j =
      some (transformed op length group (j + 1)) := by
  have hsize {r : Run α} (hr : r ∈ transformed op length group j) : j < r.values.size :=
    (size_values_of_mem_transformed hr).symm ▸ hj
  have hcolumn : ((transformed op length group j).mapM fun r => r.values[j]?) =
      some (group.map fun r => r.values.getD j 0) := by
    rw [mapM_eq_some fun r hr => getElem?_eq_some_getD (hsize hr), map_getD_transformed hj]
  have hlen : (group.map fun r => r.values.getD j 0).length = group.length := List.length_map ..
  have htransform : op.transform? (group.map fun r => r.values.getD j 0) = some _ :=
    Operator.transform?_eq (hlen.symm ▸ hrows) (hlen.symm ▸ hcols)
  have hlength : (op.transform (group.map fun r => r.values.getD j 0)).length = group.length := by
    rw [Operator.transform, Grid.mulColumn, List.length_map, List.length_range, hrows]
  rw [transformPlace?, bind_of_some hcolumn, bind_of_some htransform,
    mapM_eq_some fun w hw =>
      writePlace?_eq (hsize (List.of_mem_zip (a := w.1) (b := w.2) hw).1) w.2]
  refine congrArg some (List.ext_getElem ?_ fun b hb hb' => ?_)
  · rw [List.length_map, List.length_zip, length_transformed, length_transformed, hlength,
      Nat.min_self]
  · rw [length_transformed] at hb'
    simp only [transformed, List.getElem_map, List.getElem_zip, List.getElem_mapIdx]
    rw [setIfInBounds_map_range]
    congr 2
    refine List.map_congr_left fun i _ => ?_
    rcases Nat.lt_trichotomy i j with h | rfl | h
    · rw [if_neg h.ne, if_pos h, if_pos (h.trans (Nat.lt_succ_self j))]
    · rw [if_pos rfl, if_pos (Nat.lt_succ_self i), List.getD_eq_getElem?_getD,
        List.getElem?_eq_getElem, Option.getD_some]
    · rw [if_neg h.ne', if_neg h.asymm, if_neg (by omega)]

theorem transformGroup?_eq {group : Array (Run α)} (hlt : length < UInt64.size)
    (hrows : op.matrix.rows = group.size) (hcols : op.matrix.cols = group.size)
    (hvalues : ∀ r ∈ group, r.values.size = length) :
    transformGroup? op (.ofNat length) group = some (transformGroup op length group) := by
  have hlist (r : Run α) (hr : r ∈ group.toList) : r.values.size = length :=
    hvalues r (Array.mem_toList_iff.1 hr)
  have hloop (n : Nat) (hn : n ≤ length) : (List.range n).foldlM (transformPlace? op) group.toList =
      some (transformed op length group.toList n) := by
    induction n with
    | zero =>
      rw [transformed_zero hlist]
      rfl
    | succ n ih =>
      rw [List.range_succ, List.foldlM_append, bind_of_some (ih (by omega))]
      exact (List.foldlM_cons ..).trans (bind_of_some (transformPlace?_eq hrows hcols hn) _)
  rw [transformGroup?, toNat_ofNat hlt, bind_of_some (hloop length (Nat.le_refl _)),
    ← transformed_length]
  rfl

end Places

section Groups

def keyed? (w : WordSupport) (mask length : UInt64) (values : Array α) (k : Nat) :
    Option ((UInt64 × UInt64) × Run α) := do
  let start ← mul? (.ofNat k) length
  return ((start &&& ~~~mask, ← w.localIndex? start), ⟨start.toNat, values⟩)

def groups? (w : WordSupport) (length : UInt64) (a : Array α) : Option (List (Array (Run α))) := do
  let mask ← w.mask?
  let keyed ← (pieces length.toNat a).zipIdx.mapM fun x => keyed? w mask length x.1 x.2
  let size ← shiftLeft? 1 w.count
  return pieces size.toNat ((keyed.mergeSort fun x y =>
    decide (x.1.1 < y.1.1) || (x.1.1 == y.1.1 && decide (x.1.2 ≤ y.1.2))).map (·.2)).toArray

def keyOnWords (s : Support) (r : Run α) : UInt64 × UInt64 :=
  (.ofNat (r.key s).1, .ofNat (r.key s).2)

variable {s : Support} {l m : Nat} {a : Array α}

theorem keyed?_eq (hps : ∀ p ∈ s.positions, p < 64) (hcount : s.count ≤ 63) {k length : Nat}
    (h : k * length < UInt64.size) (hlength : length < UInt64.size) (hk : k < UInt64.size)
    (values : Array α) :
    keyed? s.onWords (.ofNat s.mask) (.ofNat length) values k =
      some (keyOnWords s ⟨k * length, values⟩, ⟨k * length, values⟩) := by
  rw [keyed?, bind_of_some (mul?_ofNat hk hlength h),
    bind_of_some (Support.localIndex?_eq hps hcount h), ofNat_and_not, toNat_ofNat h]
  rfl

/-- The keys are sorted alike, since they are words. -/
theorem mergeSort_keyOnWords {runs : List (Run α)}
    (h : ∀ r ∈ runs, (r.key s).1 < UInt64.size ∧ (r.key s).2 < UInt64.size) :
    ((runs.map fun r => (keyOnWords s r, r)).mergeSort fun x y =>
        decide (x.1.1 < y.1.1) || (x.1.1 == y.1.1 && decide (x.1.2 ≤ y.1.2))).map (·.2) =
      ((runs.map fun r => (r.key s, r)).mergeSort fun x y =>
        decide (x.1.1 < y.1.1) || (x.1.1 == y.1.1 && decide (x.1.2 ≤ y.1.2))).map (·.2) := by
  let onWords (x : (Nat × Nat) × Run α) : (UInt64 × UInt64) × Run α :=
    ((.ofNat x.1.1, .ofNat x.1.2), x.2)
  have hsort := List.map_mergeSort (f := onWords) (l := runs.map fun r => (r.key s, r))
    (r := fun x y => decide (x.1.1 < y.1.1) || (x.1.1 == y.1.1 && decide (x.1.2 ≤ y.1.2)))
    (s := fun x y => decide (x.1.1 < y.1.1) || (x.1.1 == y.1.1 && decide (x.1.2 ≤ y.1.2)))
    fun x hx y hy => by
      obtain ⟨r, hr, rfl⟩ := List.mem_map.1 hx
      obtain ⟨r', hr', rfl⟩ := List.mem_map.1 hy
      obtain ⟨hc, hi⟩ := h r hr
      obtain ⟨hc', hi'⟩ := h r' hr'
      rw [Bool.eq_iff_iff]
      simp only [onWords, Bool.or_eq_true, Bool.and_eq_true, decide_eq_true_iff, beq_iff_eq,
        UInt64.ofNat_lt_iff_lt hc hc', UInt64.ofNat_le_iff_le hi hi', ofNat_inj hc hc']
  rw [List.map_map] at hsort
  exact (congrArg (List.map (·.2)) hsort.symm).trans List.map_map

theorem groups?_eq (hd : s.positions.Nodup) (hm : ∀ p ∈ s.positions, p < m) (hlm : l ≤ m)
    (hm63 : m ≤ 63) (hdvd : 2 ^ m ∣ a.size) (hsize : a.size < UInt64.size) :
    groups? s.onWords (.ofNat (2 ^ l)) a = some (groups s (cut (2 ^ l) a)) := by
  obtain ⟨n, hn⟩ := (Nat.pow_dvd_pow 2 hlm).trans hdvd
  have hps (p : Nat) (hp : p ∈ s.positions) : p < 64 := (hm p hp).trans_le (by omega)
  have hcount : s.count ≤ 63 := (Support.count_le_of_lt hd hm).trans hm63
  have hlength := two_pow_lt_size (hlm.trans hm63)
  have hstart {r : Run α} (hr : r ∈ cut (2 ^ l) a) : r.start < a.size := by
    obtain ⟨k, hk, rfl⟩ := exists_of_mem_cut hn hr
    exact hn ▸ Nat.mul_lt_mul_of_pos_left hk (Nat.two_pow_pos l)
  have hkeyed : ((pieces (2 ^ l) a).zipIdx.mapM fun x =>
      keyed? s.onWords (.ofNat s.mask) (.ofNat (2 ^ l)) x.1 x.2) =
        some ((cut (2 ^ l) a).map fun r => (keyOnWords s r, r)) := by
    rw [cut, List.map_map]
    refine mapM_eq_some fun x hx => ?_
    have hk := (hstart (List.mem_map_of_mem hx)).trans hsize
    exact keyed?_eq hps hcount hk hlength
      ((Nat.le_mul_of_pos_right _ (Nat.two_pow_pos l)).trans_lt hk) x.1
  have hkeys (r : Run α) (hr : r ∈ cut (2 ^ l) a) :
      (r.key s).1 < UInt64.size ∧ (r.key s).2 < UInt64.size :=
    ⟨(s.clear_le _).trans_lt ((hstart hr).trans hsize),
      (s.localIndex_lt _).trans (two_pow_lt_size hcount)⟩
  have hrows := Support.one_shiftLeft?_ofNat (p := s.count) (by omega)
  rw [groups?, bind_of_some (Support.mask?_eq hps), toNat_ofNat hlength, bind_of_some hkeyed,
    Support.count_onWords, bind_of_some hrows, mergeSort_keyOnWords hkeys,
    toNat_ofNat (Support.one_shiftLeft_lt (by omega))]
  rfl

end Groups

end Run

namespace Operator

variable [Zero α] [Add α] [Mul α]

def applyToGroups? (op : Operator α) (w : WordSupport) (a : Array α) : Option (Array α) := do
  let lowest ← w.ascending[0]?
  let length ← shiftLeft? 1 (min lowest (.ofNat maxRunBits))
  let groups ← (← Run.groups? w length a).mapM (Run.transformGroup? op length)
  return groups.foldl (fun a group => group.foldl Run.writeTo a) a

def applyInParallel? (op : Operator α) (w : WordSupport) (threads : UInt64) (a : Array α) :
    Option (Array α) := do
  let highest ← w.ascending[(← sub? w.count 1).toNat]?
  let block ← shiftLeft? 1 (← add? highest 1)
  let blocks ← div? (.ofNat a.size) block
  if threads ≤ blocks then op.applyToBlocks? w block a else op.applyToGroups? w a

section Fits

variable {op : Operator α} {s : Support} {m : Nat} {a : Array α}

theorem applyToGroups?_eq (h : op.Fits s) (hne : s.positions ≠ [])
    (hm : ∀ p ∈ s.positions, p < m) (hm63 : m ≤ 63) (hdvd : 2 ^ m ∣ a.size)
    (hsize : a.size < UInt64.size) :
    op.applyToGroups? s.onWords a = some (op.applyToGroups s a) := by
  have hl : ∀ p ∈ s.positions, min s.lowest maxRunBits ≤ p := fun p hp =>
    (Nat.min_le_left ..).trans (Support.lowest_le h.distinct p hp)
  have hlm : min s.lowest maxRunBits ≤ m :=
    have hhigh := Support.highest_mem hne
    (hl _ hhigh).trans (hm _ hhigh).le
  have hlow : s.lowest < UInt64.size :=
    (Support.lowest_le h.distinct _ (Support.highest_mem hne)).trans_lt
      ((hm _ (Support.highest_mem hne)).trans_le (hm63.trans (by decide)))
  have hlength := Support.one_shiftLeft?_ofNat (p := min s.lowest maxRunBits) (by omega)
  have hlt := Support.one_shiftLeft_lt (p := min s.lowest maxRunBits) (by omega)
  obtain ⟨n, hn⟩ := (Nat.pow_dvd_pow 2 hlm).trans hdvd
  rw [Nat.one_shiftLeft] at hlength hlt
  have htransform : (Run.groups s (Run.cut (2 ^ min s.lowest maxRunBits) a)).mapM
      (Run.transformGroup? op (.ofNat (2 ^ min s.lowest maxRunBits))) = some _ :=
    mapM_eq_some fun g hg => by
      obtain ⟨rep, hg⟩ := Run.isBundle_of_mem_groups h.distinct hl hm hn hdvd hlm hg
      exact Run.transformGroup?_eq hlt (h.rows.trans hg.size.symm) (h.cols.trans hg.size.symm)
        fun r hr => hg.size_values_of_mem hr
  rw [applyToGroups?, bind_of_some (Support.getElem?_ascending_zero hne),
    ofNat_min hlow (by decide), bind_of_some hlength,
    bind_of_some (Run.groups?_eq h.distinct hm hlm hm63 hdvd hsize), bind_of_some htransform,
    applyToGroups, Nat.one_shiftLeft]
  rfl

theorem applyInParallel?_eq (h : op.Fits s) (hne : s.positions ≠ [])
    (hm : ∀ p ∈ s.positions, p < m) (hm63 : m ≤ 63) (hdvd : 2 ^ m ∣ a.size)
    (hsize : a.size < UInt64.size) (threads : UInt64) :
    op.applyInParallel? s.onWords threads a = some (op.applyInParallel s threads.toNat a) := by
  have hhigh := hm _ (Support.highest_mem hne)
  have hcount : s.count ≤ 63 := (Support.count_le_of_lt h.distinct hm).trans hm63
  have hpos : 1 ≤ s.count := List.length_pos_iff.2 hne
  have hfit : 64 < UInt64.size := by decide
  have hlast : sub? (.ofNat s.count) 1 = some (.ofNat (s.count - 1)) :=
    sub?_ofNat (y := 1) hpos ((Nat.lt_succ_of_le hcount).trans hfit)
  have hhighest : s.onWords.ascending[(UInt64.ofNat (s.count - 1)).toNat]? =
      some (.ofNat s.highest) := by
    rw [toNat_ofNat (by omega), Support.getElem?_ascending_last hne]
  have hnext : add? (.ofNat s.highest) 1 = some (.ofNat (s.highest + 1)) :=
    add?_ofNat (y := 1) (by omega)
  have hblock := Support.one_shiftLeft?_ofNat (p := s.highest + 1) (by omega)
  have hblocks := div?_ofNat hsize (Support.one_shiftLeft_lt (p := s.highest + 1) (by omega))
    (by rw [Nat.one_shiftLeft]; exact Nat.two_pow_pos _)
  have hle : threads ≤ .ofNat (a.size / 1 <<< (s.highest + 1)) ↔
      threads.toNat ≤ a.size / 1 <<< (s.highest + 1) := by
    rw [UInt64.le_iff_toNat_le, toNat_ofNat ((Nat.div_le_self ..).trans_lt hsize)]
  rw [applyInParallel?, Support.count_onWords, bind_of_some hlast, bind_of_some hhighest,
    bind_of_some hnext, bind_of_some hblock, bind_of_some hblocks, applyInParallel]
  simp only [hle, apply_ite some]
  refine if_congr Iff.rfl ?_ (applyToGroups?_eq h hne hm hm63 hdvd hsize)
  rw [Nat.one_shiftLeft]
  exact applyToBlocks?_eq h (fun p hp => Nat.lt_succ_of_le (Support.le_highest h.distinct p hp))
    (by omega) ((Nat.pow_dvd_pow 2 hhigh).trans hdvd)

/-- In a register of up to 63 qubits no index is out of range, no shift is by 64 or more, nothing
wraps and no bit is lost, be it for the whole array or for its blocks. So all that is computed on
words is what is computed on unbounded numbers. -/
theorem words_suffice [One α] (hop : op.WellFormed) {width : Nat} (hwidth : width ≤ 63)
    {qubits : List Nat} (hq : op.Addresses width qubits) (ha : a.size = 2 ^ width) :
    (State.zero? (.ofNat width) : Option (Except RegisterError (State α))) =
        some (State.zero width) ∧
      ∃ s w, Support.ofQubits width qubits = .ok s ∧
        WordSupport.ofQubits? (.ofNat width) (qubits.map .ofNat) = some w ∧ w.Holds s ∧
        w.mask?.map UInt64.toNat = some s.mask ∧
        (∀ i < 2 ^ width, (w.localIndex? (.ofNat i)).map UInt64.toNat = some (s.localIndex i)) ∧
        (∀ length ≤ 2 ^ width, 2 ^ (s.highest + 1) ∣ length →
          (w.representatives? (.ofNat length)).map (·.map UInt64.toNat) =
            some (s.representatives length)) ∧
        op.applySequentially? w a = some (op.applySequentially s a) ∧
        op.applyToBlocks? w (.ofNat (2 ^ (s.highest + 1))) a =
          some (op.applyToBlocks s (2 ^ (s.highest + 1)) a) ∧
        op.applyToGroups? w a = some (op.applyToGroups s a) ∧
        ∀ threads, op.applyInParallel? w threads a =
          some (op.applyInParallel s threads.toNat a) := by
  have h := hq.fits hop
  have hne := (hq.valid hop).positions_ne_nil
  have hm := (hq.valid hop).inRange
  have hdvd : 2 ^ width ∣ a.size := ha ▸ Nat.dvd_refl _
  have hfit := two_pow_lt_size hwidth
  have hps (p : Nat) (hp : p ∈ (Support.onQubits width qubits).positions) : p < 64 :=
    (hm p hp).trans_le (hwidth.trans (by decide))
  have hcount : (Support.onQubits width qubits).count ≤ width :=
    Support.count_le_of_lt h.distinct hm
  have hhigh (p : Nat) (hp : p ∈ (Support.onQubits width qubits).positions) :
      p < (Support.onQubits width qubits).highest + 1 :=
    Nat.lt_succ_of_le (Support.le_highest h.distinct p hp)
  have hblock := hm _ (Support.highest_mem hne)
  have hhigh63 := hblock.trans_le hwidth
  refine ⟨?_, _, _, hq.ofQubits hop,
    Support.ofQubits?_eq hwidth (hq.length ▸ hop.arity_le) hq.inRange,
    Support.holds_onWords hm hwidth, ?_, fun i hi => ?_, fun length hlen hlength => ?_,
    applySequentially?_eq h hm hwidth hdvd (ha ▸ hfit),
    applyToBlocks?_eq h hhigh hhigh63 ((Nat.pow_dvd_pow 2 hblock).trans hdvd),
    applyToGroups?_eq h hne hm hwidth hdvd (ha ▸ hfit),
    applyInParallel?_eq h hne hm hwidth hdvd (ha ▸ hfit)⟩
  · rw [State.zero?_eq, toNat_ofNat (Nat.lt_two_pow_self.trans hfit)]
  · rw [Support.mask?_eq hps, Option.map_some, toNat_ofNat ((Support.mask_lt hm).trans hfit)]
  · have hlt := (Support.localIndex_lt (Support.onQubits width qubits) i).trans
      (two_pow_lt_size (hcount.trans hwidth))
    rw [Support.localIndex?_eq hps (hcount.trans hwidth) (hi.trans hfit), Option.map_some,
      toNat_ofNat hlt]
  · have hlt := hlen.trans_lt hfit
    rw [Support.representatives?_eq h.distinct hhigh hhigh63 hlength hlt, Option.map_some,
      Support.map_toNat_map_ofNat fun rep hrep =>
        ((Support.mem_representatives_iff h.distinct hhigh hlength).1 hrep).1.trans hlt]

/-- The widest register, with its first and its last qubit among the operands. The highest position
is 62, so the block is the whole array, whose length takes the top bit of a word. -/
theorem words_suffice_on_sixtyThree :
    (exchange 3 0b101 0b110 : Operator Int).WellFormed ∧
      (exchange 3 0b101 0b110 : Operator Int).Addresses 63 [0, 62, 5] ∧
      (Array.replicate (2 ^ 63) (0 : Int)).size = 2 ^ 63 ∧
      ∃ s w, Support.ofQubits 63 [0, 62, 5] = .ok s ∧
        WordSupport.ofQubits? 63 [0, 62, 5] = some w ∧ s.positions = [62, 0, 57] ∧
        w.mask?.map UInt64.toNat = some (2 ^ 62 + 2 ^ 57 + 1) ∧
        (exchange 3 0b101 0b110 : Operator Int).applyInParallel? w 64
            (Array.replicate (2 ^ 63) 0) =
          some ((exchange 3 0b101 0b110 : Operator Int).applyInParallel s 64
            (Array.replicate (2 ^ 63) 0)) := by
  have hop : (exchange 3 0b101 0b110 : Operator Int).WellFormed :=
    ⟨by decide, by decide, rfl, rfl⟩
  have hq : (exchange 3 0b101 0b110 : Operator Int).Addresses 63 [0, 62, 5] :=
    ⟨rfl, by decide, by decide⟩
  have ha : (Array.replicate (2 ^ 63) (0 : Int)).size = 2 ^ 63 := Array.size_replicate
  obtain ⟨-, s, w, hs, hw, -, hmask, -, -, -, -, -, hpar⟩ :=
    words_suffice hop (by decide) hq ha
  cases hs
  exact ⟨hop, hq, ha, _, w, rfl, hw, rfl, hmask, hpar 64⟩

end Fits

end Operator

end Ket
