import Ket.Proofs.Application.Blocks

/-! Application run by run. Starts of runs are sorted by class and row, and no two have the same
class and row, so the sorted starts are the classes among them one after the other, each in the
order of its rows. Hence every group of runs is a bundle of neighbouring classes. -/

namespace Ket

variable {α : Type}

namespace Support

/-- The order of the keys of runs, on their starts. -/
def keyLe (s : Support) (i j : Nat) : Bool :=
  decide (s.clear i < s.clear j) ||
    (s.clear i == s.clear j && decide (s.localIndex i ≤ s.localIndex j))

theorem keyLe_iff (s : Support) (i j : Nat) :
    s.keyLe i j = true ↔
      s.clear i < s.clear j ∨ s.clear i = s.clear j ∧ s.localIndex i ≤ s.localIndex j := by
  simp [keyLe]

theorem eq_of_keyLe {s : Support} (hd : s.positions.Nodup) {i j : Nat} (hij : s.keyLe i j)
    (hji : s.keyLe j i) : i = j := by
  rw [keyLe_iff] at hij hji
  have hc : s.clear i = s.clear j := by omega
  have hr : s.localIndex i = s.localIndex j := by omega
  rw [← clear_or_deposit_localIndex hd i, hc, hr, clear_or_deposit_localIndex hd j]

theorem keyLe_trans (s : Support) {i j k : Nat} (hij : s.keyLe i j) (hjk : s.keyLe j k) :
    s.keyLe i k := by
  rw [keyLe_iff] at *
  omega

theorem keyLe_total (s : Support) (i j : Nat) : (s.keyLe i j || s.keyLe j i) = true := by
  rw [Bool.or_eq_true, keyLe_iff, keyLe_iff]
  omega

/-- The representatives among the starts of runs of `2 ^ l` entries. -/
def runClasses (s : Support) (l length : Nat) : List Nat :=
  (s.representatives length).filter fun rep => rep % 2 ^ l = 0

variable {s : Support} {l m length : Nat}

theorem mem_runClasses_iff (hd : s.positions.Nodup) (hm : ∀ p ∈ s.positions, p < m)
    (hlen : 2 ^ m ∣ length) {rep : Nat} :
    rep ∈ s.runClasses l length ↔ rep < length ∧ s.clear rep = rep ∧ 2 ^ l ∣ rep := by
  rw [runClasses, List.mem_filter, mem_representatives_iff hd hm hlen, and_assoc,
    decide_eq_true_iff, Nat.dvd_iff_mod_eq_zero]

theorem pairwise_members (hd : s.positions.Nodup) {rep : Nat} (hrep : s.clear rep = rep) :
    (s.members rep).Pairwise fun i j => s.keyLe i j ∧ i ≠ j := by
  rw [members_eq, List.pairwise_map]
  refine List.pairwise_lt_range.imp_of_mem fun {b c} hb hc hlt => ?_
  rw [List.mem_range] at hb hc
  have hb' := localIndex_or_deposit hd hrep hb
  have hc' := localIndex_or_deposit hd hrep hc
  refine ⟨?_, fun h => ?_⟩
  · rw [keyLe_iff, hb', hc', clear_or_deposit, clear_or_deposit]
    omega
  · rw [h, hc'] at hb'
    omega

/-- The members of the classes, taken in order, ascend strictly in the order of the keys. -/
theorem pairwise_flatMap_members (hd : s.positions.Nodup) {reps : List Nat}
    (hasc : reps.Pairwise (· < ·)) (hreps : ∀ rep ∈ reps, s.clear rep = rep) :
    (reps.flatMap s.members).Pairwise fun i j => s.keyLe i j ∧ i ≠ j := by
  refine List.pairwise_flatMap.2 ⟨fun rep h => pairwise_members hd (hreps rep h), ?_⟩
  refine hasc.imp_of_mem fun {rep rep'} h h' hlt i hi j hj => ?_
  rw [mem_members_iff hd (hreps rep h)] at hi
  rw [mem_members_iff hd (hreps rep' h')] at hj
  refine ⟨?_, fun h => ?_⟩
  · rw [keyLe_iff, hi, hj]
    exact Or.inl hlt
  · rw [← hi, ← hj, h] at hlt
    exact Nat.lt_irrefl _ hlt

theorem members_add (hl : ∀ p ∈ s.positions, l ≤ p) {rep : Nat} (hrep : 2 ^ l ∣ rep) {j : Nat}
    (hj : j < 2 ^ l) : s.members (rep + j) = (s.members rep).map (· + j) := by
  rw [members_eq, members_eq, List.map_map]
  exact List.map_congr_left fun b _ => member_add hl hrep hj b

/-- Every multiple of `2 ^ l` is a member of the class of a multiple of `2 ^ l`. -/
theorem mem_flatMap_members_iff (hd : s.positions.Nodup) (hl : ∀ p ∈ s.positions, l ≤ p)
    (hm : ∀ p ∈ s.positions, p < m) {n : Nat} (hlen : 2 ^ m ∣ 2 ^ l * n) {i : Nat} :
    i ∈ (s.runClasses l (2 ^ l * n)).flatMap s.members ↔ ∃ k < n, 2 ^ l * k = i := by
  have hmem {r : Nat} : r ∈ s.runClasses l (2 ^ l * n) ↔ _ := mem_runClasses_iff hd hm hlen
  rw [List.mem_flatMap]
  refine ⟨?_, ?_⟩
  · rintro ⟨rep, hrep, hi⟩
    obtain ⟨hlt, hc, hdvd⟩ := hmem.1 hrep
    rw [members_eq, List.mem_map] at hi
    obtain ⟨b, -, rfl⟩ := hi
    obtain ⟨k, hk⟩ := dvd_member hl hdvd b
    have hlt' := or_lt_of_dvd hlen hlt (deposit_lt hm b)
    rw [hk] at hlt' ⊢
    exact ⟨k, Nat.lt_of_mul_lt_mul_left hlt', rfl⟩
  · rintro ⟨k, hk, rfl⟩
    have hdvd : 2 ^ l ∣ 2 ^ l * k := Nat.dvd_mul_right _ _
    have hlt : 2 ^ l * k < 2 ^ l * n := Nat.mul_lt_mul_of_pos_left hk (Nat.two_pow_pos l)
    refine ⟨s.clear (2 ^ l * k), hmem.2 ⟨?_, s.clear_clear _, s.dvd_clear hdvd⟩, ?_⟩
    · exact Nat.lt_of_le_of_lt (s.clear_le _) hlt
    · exact (mem_members_iff hd (s.clear_clear _)).2 rfl

theorem pairwise_mergeSort_keyLe (s : Support) (starts : List Nat) :
    (starts.mergeSort s.keyLe).Pairwise fun i j => s.keyLe i j = true := by
  apply List.pairwise_mergeSort
  · exact fun _ _ _ => s.keyLe_trans
  · exact s.keyLe_total

/-- Sorting the starts of the runs yields the classes among them, member after member. -/
theorem mergeSort_starts (hd : s.positions.Nodup) (hl : ∀ p ∈ s.positions, l ≤ p)
    (hm : ∀ p ∈ s.positions, p < m) {n : Nat} (hlen : 2 ^ m ∣ 2 ^ l * n) :
    ((List.range n).map (2 ^ l * ·)).mergeSort s.keyLe =
      (s.runClasses l (2 ^ l * n)).flatMap s.members := by
  have hclear (rep : Nat) (h : rep ∈ s.runClasses l (2 ^ l * n)) : s.clear rep = rep :=
    ((mem_runClasses_iff hd hm hlen).1 h).2.1
  have hsorted : ((s.runClasses l (2 ^ l * n)).flatMap s.members).Pairwise fun i j =>
      s.keyLe i j ∧ i ≠ j :=
    pairwise_flatMap_members hd ((s.pairwise_representatives _).filter _) hclear
  have hnodup : ((List.range n).map (2 ^ l * ·)).Nodup :=
    List.nodup_range.map fun i j h => Nat.eq_of_mul_eq_mul_left (Nat.two_pow_pos l) h
  -- both lists are sorted by an order without ties, so it is enough that they have the same members
  refine List.Perm.eq_of_pairwise (fun i j _ _ => eq_of_keyLe hd) (pairwise_mergeSort_keyLe s _)
    (hsorted.imp And.left) ((List.mergeSort_perm _ _).trans ?_)
  refine (List.perm_ext_iff_of_nodup hnodup (hsorted.imp And.right)).2 fun i => ?_
  rw [mem_flatMap_members_iff hd hl hm hlen, List.mem_map]
  simp only [List.mem_range]

end Support

theorem take_drop_flatMap {β : Type} {f : β → List α} {length : Nat} {xs : List β}
    (hf : ∀ x ∈ xs, (f x).length = length) {k : Nat} (hk : k < xs.length) :
    ((xs.flatMap f).drop (length * k)).take length = f xs[k] := by
  induction xs generalizing k with
  | nil => simp at hk
  | cons x xs ih =>
    have hx : (f x).length = length := hf x (by simp)
    rw [List.flatMap_cons]
    cases k with
    | zero => rw [Nat.mul_zero, List.drop_zero, List.take_left' hx, List.getElem_cons_zero]
    | succ k =>
      rw [Nat.mul_succ, Nat.add_comm, ← List.drop_drop, List.drop_left' hx,
        ih (fun x hx => hf x (by simp [hx])) (Nat.lt_of_succ_lt_succ hk), List.getElem_cons_succ]

/-- Lists of one length, put together and cut into pieces of this length. -/
theorem pieces_flatMap {β : Type} {f : β → List α} {length : Nat} (hl : 0 < length)
    {xs : List β} (hf : ∀ x ∈ xs, (f x).length = length) :
    pieces length (xs.flatMap f).toArray = xs.map fun x => (f x).toArray := by
  have hsize : (xs.flatMap f).toArray.size = length * xs.length := by
    rw [List.size_toArray, List.length_flatMap, List.map_congr_left hf, List.map_const',
      List.sum_replicate_nat, Nat.mul_comm]
  rw [pieces_eq hl hsize]
  refine List.ext_getElem (by simp) fun k hk _ => ?_
  rw [List.length_map, List.length_range] at hk
  rw [List.getElem_map, List.getElem_range, List.extract_toArray, List.getElem_map,
    ← take_drop_flatMap hf hk, List.extract_eq_take_drop, Nat.add_sub_cancel_left]

namespace Run

/-- The run of `length` entries that starts at `start`. -/
def read (a : Array α) (length start : Nat) : Run α := ⟨start, a.extract start (start + length)⟩

/-- The run at `start` that holds the values of a function at their places. -/
def ofFn (f : Nat → α) (length start : Nat) : Run α :=
  ⟨start, ((List.range length).map fun j => f (start + j)).toArray⟩

theorem cut_eq {length n : Nat} (hl : 0 < length) {a : Array α} (ha : a.size = length * n) :
    cut length a = ((List.range n).map (length * ·)).map (Run.read a length) := by
  rw [cut, pieces_eq hl ha]
  refine List.ext_getElem (by simp) fun k _ _ => ?_
  simp [Run.read, Nat.mul_comm]

theorem getElem?_values_read (a : Array α) {length start j : Nat} (hj : j < length) :
    (Run.read a length start).values[j]? = a[start + j]? := by
  rw [Run.read, Array.getElem?_extract]
  split
  · rfl
  · exact (Array.getElem?_eq_none (by omega)).symm

/-- Runs are sorted as their starts are. -/
theorem map_snd_mergeSort (s : Support) (a : Array α) (length : Nat) (starts : List Nat) :
    (((starts.map (Run.read a length)).map fun r => (r.key s, r)).mergeSort fun x y =>
        decide (x.1.1 < y.1.1) || (x.1.1 == y.1.1 && decide (x.1.2 ≤ y.1.2))).map (·.2) =
      (starts.mergeSort s.keyLe).map (Run.read a length) := by
  have hkeyed := List.map_mergeSort (r := s.keyLe) (l := starts)
    (f := fun start => ((Run.read a length start).key s, Run.read a length start))
    (s := fun x y => decide (x.1.1 < y.1.1) || (x.1.1 == y.1.1 && decide (x.1.2 ≤ y.1.2)))
    fun _ _ _ _ => rfl
  rw [List.map_map]
  exact (congrArg (List.map (·.2)) hkeyed.symm).trans List.map_map

theorem groups_cut {s : Support} (hd : s.positions.Nodup) {l m n : Nat}
    (hl : ∀ p ∈ s.positions, l ≤ p) (hm : ∀ p ∈ s.positions, p < m) {a : Array α}
    (ha : a.size = 2 ^ l * n) (hdvd : 2 ^ m ∣ a.size) :
    groups s (cut (2 ^ l) a) = (s.runClasses l a.size).map fun rep =>
      ((s.members rep).map (Run.read a (2 ^ l))).toArray := by
  have hsize : ∀ rep ∈ s.runClasses l a.size,
      ((s.members rep).map (Run.read a (2 ^ l))).length = s.classSize := by
    simp [Support.members, Support.offsets]
  have hsort := Support.mergeSort_starts hd hl hm (n := n) (ha ▸ hdvd)
  rw [groups, cut_eq (Nat.two_pow_pos l) ha, map_snd_mergeSort, hsort, ← ha, List.map_flatMap]
  exact pieces_flatMap (s.classSize_eq ▸ Nat.two_pow_pos _) hsize

theorem foldl_writeTo_ofFn (f : Nat → α) (length : Nat) (starts : List Nat) (a : Array α) :
    (starts.map (Run.ofFn f length)).foldl writeTo a =
      (starts.flatMap fun start =>
        (List.range length).map fun j => (start + j, f (start + j))).foldl
        (fun a w => a.setIfInBounds w.1 w.2) a := by
  have hzip (start : Nat) : ((List.range length).map fun j => f (start + j)).zipIdx start =
      (List.range length).map fun j => (f (start + j), start + j) :=
    List.ext_getElem (by simp) fun j _ _ => by simp
  rw [List.foldl_map, List.foldl_flatMap]
  congr 1
  funext a start
  rw [writeTo, Run.ofFn, hzip, List.foldl_map, List.foldl_map]

/-- Runs that hold the values of a function leave these wherever a run stands, in any order. -/
theorem getElem?_foldl_writeTo_ofFn (f : Nat → α) (length : Nat) (starts : List Nat)
    (a : Array α) (i : Nat) :
    ((starts.map (Run.ofFn f length)).foldl writeTo a)[i]? =
      if ∃ start ∈ starts, ∃ j < length, start + j = i then a[i]?.map fun _ => f i
      else a[i]? := by
  rw [foldl_writeTo_ofFn, getElem?_foldl_setIfInBounds (f := f)]
  · refine if_congr ?_ rfl rfl
    simp only [List.mem_map, List.mem_flatMap, List.mem_range]
    refine ⟨?_, ?_⟩
    · rintro ⟨_, ⟨start, hs, j, hj, rfl⟩, hi⟩
      exact ⟨start, hs, j, hj, hi⟩
    · rintro ⟨start, hs, j, hj, rfl⟩
      exact ⟨(start + j, f (start + j)), ⟨start, hs, j, hj, rfl⟩, rfl⟩
  · intro w hw
    simp only [List.mem_map, List.mem_flatMap] at hw
    obtain ⟨start, -, j, -, rfl⟩ := hw
    rfl

theorem getElem?_foldl_writeTo_of_perm {f : Nat → α} {length : Nat} {starts : List Nat}
    {runs : List (Run α)} (hruns : runs.Perm (starts.map (Run.ofFn f length))) (a : Array α)
    (i : Nat) :
    (runs.foldl writeTo a)[i]? =
      if ∃ start ∈ starts, ∃ j < length, start + j = i then a[i]?.map fun _ => f i
      else a[i]? := by
  have hvalues : (runs.map Run.start).map (Run.ofFn f length) = runs := by
    rw [List.map_map]
    refine (List.map_congr_left fun r hr => ?_).trans (List.map_id _)
    obtain ⟨start, -, rfl⟩ := List.mem_map.1 (hruns.mem_iff.1 hr)
    rfl
  have hstarts : (runs.map Run.start).Perm starts := by
    have h := hruns.map Run.start
    rwa [List.map_map, show Run.start ∘ Run.ofFn f length = id from rfl, List.map_id] at h
  rw [← hvalues, getElem?_foldl_writeTo_ofFn]
  simp only [hstarts.mem_iff]

section Groups

variable [Zero α] [Add α] [Mul α] {op : Operator α} {s : Support}

theorem transform_column (h : op.Fits s) {l : Nat} (hl : ∀ p ∈ s.positions, l ≤ p)
    (a : Array α) {rep : Nat} (hc : s.clear rep = rep) (hd : 2 ^ l ∣ rep) {j : Nat}
    (hj : j < 2 ^ l) :
    op.transform (((s.members rep).map (Run.read a (2 ^ l))).map fun r => r.values.getD j 0) =
      (s.members rep).map fun start => op.entry s a (start + j) := by
  have hc' : s.clear (rep + j) = rep + j := (Support.clear_add hl hd hj).trans (by rw [hc])
  have hread (start : Nat) : (Run.read a (2 ^ l) start).values.getD j 0 = a.getD (start + j) 0 := by
    rw [Array.getD_eq_getD_getElem?, Array.getD_eq_getD_getElem?, getElem?_values_read a hj]
  have htransform := Operator.transform_gather_members h hc' a
  rw [gather, Support.members_add hl hd hj, List.map_map, List.map_map] at htransform
  rw [List.map_map]
  simpa only [Function.comp_def, hread] using htransform

/-- A group of runs of neighbouring classes becomes the runs of their entries. -/
theorem transformGroup_read (h : op.Fits s) {l : Nat} (hl : ∀ p ∈ s.positions, l ≤ p)
    (a : Array α) {rep : Nat} (hc : s.clear rep = rep) (hd : 2 ^ l ∣ rep) :
    (transformGroup op (2 ^ l) ((s.members rep).map (Run.read a (2 ^ l))).toArray).toList =
      (s.members rep).map (Run.ofFn (op.entry s a) (2 ^ l)) := by
  have hcolumns : ((List.range (2 ^ l)).map fun j =>
      op.transform (((s.members rep).map (Run.read a (2 ^ l))).map fun r => r.values.getD j 0)) =
      (List.range (2 ^ l)).map fun j => (s.members rep).map fun start => op.entry s a (start + j) :=
    List.map_congr_left fun j hj => transform_column h hl a hc hd (List.mem_range.1 hj)
  rw [transformGroup]
  simp only [hcolumns]
  refine List.ext_getElem (by simp) fun b hb _ => ?_
  have hb' : b < (s.members rep).length := by simpa using hb
  simp [Run.ofFn, Run.read, List.getD_eq_getElem?_getD, hb']

/-- Together the groups are the runs of the entries. -/
theorem perm_flatMap_groups (h : op.Fits s) {l m n : Nat} (hl : ∀ p ∈ s.positions, l ≤ p)
    (hm : ∀ p ∈ s.positions, p < m) {a : Array α} (hn : a.size = 2 ^ l * n) (ha : 2 ^ m ∣ a.size)
    {done : List (Array (Run α))}
    (hdone : done.Perm ((groups s (cut (2 ^ l) a)).map (transformGroup op (2 ^ l)))) :
    (done.flatMap Array.toList).Perm
      (((s.runClasses l a.size).flatMap s.members).map (Run.ofFn (op.entry s a) (2 ^ l))) := by
  have hread : ∀ rep ∈ s.runClasses l a.size, (transformGroup op (2 ^ l)
      ((s.members rep).map (Run.read a (2 ^ l))).toArray).toList =
      (s.members rep).map (Run.ofFn (op.entry s a) (2 ^ l)) := by
    intro rep hrep
    obtain ⟨-, hc, hd⟩ := (Support.mem_runClasses_iff h.distinct hm ha).1 hrep
    exact transformGroup_read h hl a hc hd
  refine (hdone.flatMap_right _).trans (List.Perm.of_eq ?_)
  rw [groups_cut h.distinct hl hm hn ha, List.map_map, List.flatMap_map, List.map_flatMap,
    ← List.flatMap_congr hread]
  rfl

/-- The groups leave the entry at every place, since every place is in a run of some group. They
may be written back in any order. -/
theorem getElem?_foldl_groups (h : op.Fits s) {l m : Nat} (hl : ∀ p ∈ s.positions, l ≤ p)
    (hm : ∀ p ∈ s.positions, p < m) (hlm : l ≤ m) {a : Array α} (ha : 2 ^ m ∣ a.size)
    {done : List (Array (Run α))}
    (hdone : done.Perm ((groups s (cut (2 ^ l) a)).map (transformGroup op (2 ^ l)))) (i : Nat) :
    (done.foldl (fun a group => group.foldl writeTo a) a)[i]? =
      a[i]?.map fun _ => op.entry s a i := by
  obtain ⟨n, hn⟩ := Nat.dvd_trans (Nat.pow_dvd_pow 2 hlm) ha
  have hfold : done.foldl (fun a group => group.foldl writeTo a) a =
      (done.flatMap Array.toList).foldl writeTo a := by
    rw [List.foldl_flatMap]
    exact List.foldl_ext _ _ a fun b group _ => (Array.foldl_toList _).symm
  rw [hfold, getElem?_foldl_writeTo_of_perm (perm_flatMap_groups h hl hm hn ha hdone)]
  by_cases hi : i < a.size
  · have hk : i / 2 ^ l < n :=
      (Nat.div_lt_iff_lt_mul (Nat.two_pow_pos l)).2 (by rwa [Nat.mul_comm, ← hn])
    have hstart : 2 ^ l * (i / 2 ^ l) ∈ (s.runClasses l a.size).flatMap s.members := by
      rw [hn, Support.mem_flatMap_members_iff h.distinct hl hm (hn ▸ ha)]
      exact ⟨_, hk, rfl⟩
    exact if_pos ⟨_, hstart, i % 2 ^ l, Nat.mod_lt _ (Nat.two_pow_pos l), Nat.div_add_mod i _⟩
  · simp [Array.getElem?_eq_none (Nat.le_of_not_lt hi)]

end Groups

end Run

end Ket
