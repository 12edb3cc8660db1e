import Mathlib.Data.Prod.Lex
import Ket.Proofs.Application.Runs
import Ket.Proofs.Support.Partition

/-! The groups that runs are sorted into. No two runs have the same key, so the sorted list is the
same whatever the sorting algorithm, and it splits into groups of one run for each row without a
remainder. A group is a bundle of neighbouring classes, one for each place in its runs. -/

namespace Ket

namespace Support

variable {s : Support}

theorem eq_of_clear_of_localIndex (hd : s.positions.Nodup) {i j : Nat}
    (hc : s.clear i = s.clear j) (hr : s.localIndex i = s.localIndex j) : i = j := by
  rw [← clear_or_deposit_localIndex hd i, hc, hr, clear_or_deposit_localIndex hd j]

theorem add_two_pow_le {l i length : Nat} (hi : 2 ^ l ∣ i) (hlen : 2 ^ l ∣ length)
    (h : i < length) : i + 2 ^ l ≤ length := by
  obtain ⟨k, rfl⟩ := hi
  obtain ⟨n, rfl⟩ := hlen
  exact Nat.mul_le_mul_left (2 ^ l) (Nat.lt_of_mul_lt_mul_left h)

/-- A class is told by the start of a run and a place in the run. -/
theorem add_mem_representatives_iff {l m length : Nat} (hd : s.positions.Nodup)
    (hl : ∀ p ∈ s.positions, l ≤ p) (hm : ∀ p ∈ s.positions, p < m) (hlm : l ≤ m)
    (hlen : 2 ^ m ∣ length) {rep j : Nat} (hdvd : 2 ^ l ∣ rep) (hj : j < 2 ^ l) :
    rep + j ∈ s.representatives length ↔ rep ∈ s.runClasses l length := by
  rw [mem_representatives_iff hd hm hlen, mem_runClasses_iff hd hm hlen, clear_add hl hdvd hj,
    Nat.add_right_cancel_iff]
  refine ⟨fun h => ⟨by omega, h.2, hdvd⟩, fun h => ⟨?_, h.2.1⟩⟩
  have hle := add_two_pow_le hdvd ((Nat.pow_dvd_pow 2 hlm).trans hlen) h.1
  omega

end Support

namespace Run

variable {α : Type}

/-- By class, and in a class by row. -/
def Sorted (s : Support) (runs : List (Run α)) : Prop :=
  runs.Pairwise fun r r' => toLex (r.key s) ≤ toLex (r'.key s)

/-- A group of runs that differ in addressed bits only, where `rep` is the part of the key that they
share. Row after row, its runs are those of the members of `rep`, and the elements at one place of
all runs are the class that is as far behind `rep`. -/
structure IsBundle (s : Support) (a : Array α) (length rep : Nat) (group : Array (Run α)) :
    Prop where
  size : group.size = 2 ^ s.count
  key : ∀ r ∈ group, (r.key s).1 = rep
  run : ∀ b < 2 ^ s.count, ∃ r offset, group[b]? = some r ∧ s.offsets[b]? = some offset ∧
    r.start = rep ||| offset ∧ r.values.size = length
  representative : ∀ j < length, rep + j ∈ s.representatives a.size
  members : ∀ j < length, group.toList.map (fun r => r.start + j) = s.members (rep + j)
  values : ∀ j < length,
    group.toList.map (fun r => r.values[j]?) = (s.members (rep + j)).map fun i => a[i]?

variable {s : Support} {l m n : Nat} {a : Array α}

theorem IsBundle.size_values_of_mem {length rep : Nat} {group : Array (Run α)}
    (h : IsBundle s a length rep group) {r : Run α} (hr : r ∈ group) : r.values.size = length := by
  obtain ⟨b, hb, rfl⟩ := Array.getElem_of_mem hr
  obtain ⟨r, -, hget, -, -, hlength⟩ := h.run b (h.size ▸ hb)
  rwa [(Array.getElem?_eq_some_iff.1 hget).2]

theorem toLex_key_le_iff (r r' : Run α) :
    toLex (r.key s) ≤ toLex (r'.key s) ↔ s.keyLe r.start r'.start = true := by
  rw [Prod.Lex.toLex_le_toLex, Support.keyLe_iff]
  rfl

theorem size_values_read {length start : Nat} (h : start + length ≤ a.size) :
    (Run.read a length start).values.size = length := by
  rw [read, Array.size_extract]
  omega

section Cut

variable (ha : a.size = 2 ^ l * n)

include ha

theorem exists_of_mem_cut {r : Run α} (hr : r ∈ cut (2 ^ l) a) :
    ∃ k < n, r = Run.read a (2 ^ l) (2 ^ l * k) := by
  rw [cut_eq (Nat.two_pow_pos l) ha, List.mem_map] at hr
  obtain ⟨start, hstart, rfl⟩ := hr
  obtain ⟨k, hk, rfl⟩ := List.mem_map.1 hstart
  exact ⟨k, List.mem_range.1 hk, rfl⟩

theorem size_values_of_mem_cut {r : Run α} (hr : r ∈ cut (2 ^ l) a) : r.values.size = 2 ^ l := by
  obtain ⟨k, hk, rfl⟩ := exists_of_mem_cut ha hr
  exact size_piece ha hk

theorem getElem?_values_of_mem_cut {r : Run α} (hr : r ∈ cut (2 ^ l) a) {j : Nat}
    (hj : j < 2 ^ l) : r.values[j]? = a[r.start + j]? := by
  obtain ⟨k, -, rfl⟩ := exists_of_mem_cut ha hr
  exact getElem?_values_read a hj

/-- From the lowest position on, the bits of an index in a run are those of its start. -/
theorem testBit_add_of_mem_cut {r : Run α} (hr : r ∈ cut (2 ^ l) a) {j p : Nat} (hj : j < 2 ^ l)
    (hp : l ≤ p) : (r.start + j).testBit p = r.start.testBit p := by
  obtain ⟨k, -, rfl⟩ := exists_of_mem_cut ha hr
  have hzero := Nat.testBit_two_pow_mul_add k (Nat.two_pow_pos l) p
  rw [Nat.add_zero] at hzero
  rw [read, Nat.testBit_two_pow_mul_add k hj, hzero, if_neg (by omega), if_neg (by omega)]

theorem pairwise_key_cut (hd : s.positions.Nodup) :
    (cut (2 ^ l) a).Pairwise fun r r' => r.key s ≠ r'.key s := by
  rw [cut_eq (Nat.two_pow_pos l) ha, List.map_map, List.pairwise_map]
  refine List.nodup_range.imp fun {j k} hne h => hne ?_
  obtain ⟨hc, hr⟩ := Prod.mk.inj h
  exact Nat.eq_of_mul_eq_mul_left (Nat.two_pow_pos l)
    (Support.eq_of_clear_of_localIndex hd hc hr)

end Cut

section Groups

variable (hd : s.positions.Nodup) (hl : ∀ p ∈ s.positions, l ≤ p)
  (hm : ∀ p ∈ s.positions, p < m) (ha : a.size = 2 ^ l * n) (hdvd : 2 ^ m ∣ a.size)

include hd hl hm ha hdvd

theorem flatMap_groups :
    (groups s (cut (2 ^ l) a)).flatMap Array.toList =
      (((List.range n).map (2 ^ l * ·)).mergeSort s.keyLe).map (Run.read a (2 ^ l)) := by
  rw [groups_cut hd hl hm ha hdvd, Support.mergeSort_starts hd hl hm (n := n) (ha ▸ hdvd),
    List.flatMap_map, List.map_flatMap, ha]

/-- The groups, one after the other, are the only way to sort the runs. -/
theorem sorted_iff_eq_flatMap_groups (sorted : List (Run α)) :
    sorted.Perm (cut (2 ^ l) a) ∧ Sorted s sorted ↔
      sorted = (groups s (cut (2 ^ l) a)).flatMap Array.toList := by
  have hflat := flatMap_groups hd hl hm ha hdvd
  have hperm : ((groups s (cut (2 ^ l) a)).flatMap Array.toList).Perm (cut (2 ^ l) a) := by
    rw [hflat, cut_eq (Nat.two_pow_pos l) ha]
    exact (List.mergeSort_perm _ _).map _
  have hsorted : Sorted s ((groups s (cut (2 ^ l) a)).flatMap Array.toList) := by
    rw [hflat, Sorted, List.pairwise_map]
    exact (Support.pairwise_mergeSort_keyLe s _).imp (toLex_key_le_iff _ _).2
  refine ⟨?_, fun h => h ▸ ⟨hperm, hsorted⟩⟩
  rintro ⟨hp, hs⟩
  refine (hp.trans hperm.symm).eq_of_pairwise (fun r r' hr hr' hle hge => ?_) hs hsorted
  obtain ⟨k, -, rfl⟩ := exists_of_mem_cut ha (hp.mem_iff.1 hr)
  obtain ⟨k', -, rfl⟩ := exists_of_mem_cut ha (hperm.mem_iff.1 hr')
  rw [toLex_key_le_iff] at hle hge
  exact congrArg (Run.read a (2 ^ l)) (Support.eq_of_keyLe hd hle hge)

theorem length_cut_eq :
    (cut (2 ^ l) a).length = 2 ^ s.count * (groups s (cut (2 ^ l) a)).length := by
  have hperm := ((sorted_iff_eq_flatMap_groups hd hl hm ha hdvd _).2 rfl).1
  have hsize : ∀ g ∈ groups s (cut (2 ^ l) a), g.toList.length = 2 ^ s.count := by
    rw [groups_cut hd hl hm ha hdvd]
    simp [Support.length_members]
  rw [← hperm.length_eq, List.length_flatMap, List.map_congr_left hsize, List.map_const',
    List.sum_replicate_nat, Nat.mul_comm]

omit ha in
theorem isBundle_read (hlm : l ≤ m) {rep : Nat} (hrep : rep ∈ s.runClasses l a.size) :
    IsBundle s a (2 ^ l) rep ((s.members rep).map (Run.read a (2 ^ l))).toArray := by
  obtain ⟨hlt, hc, hdiv⟩ := (Support.mem_runClasses_iff hd hm hdvd).1 hrep
  have hdvd' := (Nat.pow_dvd_pow 2 hlm).trans hdvd
  refine ⟨by simp [Support.length_members], fun r hr => ?_, fun b hb => ?_, fun j hj => ?_,
    fun j hj => ?_, fun j hj => ?_⟩
  · obtain ⟨i, hi, rfl⟩ := List.mem_map.1 (List.mem_toArray.1 hr)
    exact (Support.mem_members_iff hd hc).1 hi
  · have hb' : (s.members rep)[b]? = some (rep ||| Support.deposit s.positions b) :=
      Support.getElem?_members_eq_some_iff.2 ⟨hb, rfl⟩
    have hstart := Support.lt_of_mem_members hm hdvd hlt _ (List.mem_of_getElem? hb')
    refine ⟨Run.read a (2 ^ l) _, _, ?_, Support.getElem?_offsets hb, rfl, size_values_read ?_⟩
    · rw [List.getElem?_toArray, List.getElem?_map, hb', Option.map_some]
    · exact Support.add_two_pow_le (Support.dvd_member hl hdiv b) hdvd' hstart
  · exact (Support.add_mem_representatives_iff hd hl hm hlm hdvd hdiv hj).2 hrep
  · rw [Support.members_add hl hdiv hj, List.map_map]
    rfl
  · rw [Support.members_add hl hdiv hj, List.map_map, List.map_map]
    exact List.map_congr_left fun start _ => getElem?_values_read a hj

theorem isBundle_of_mem_groups (hlm : l ≤ m) {g : Array (Run α)}
    (hg : g ∈ groups s (cut (2 ^ l) a)) : ∃ rep, IsBundle s a (2 ^ l) rep g := by
  rw [groups_cut hd hl hm ha hdvd, List.mem_map] at hg
  obtain ⟨rep, hrep, rfl⟩ := hg
  exact ⟨rep, isBundle_read hd hl hm hdvd hlm hrep⟩

/-- Each class has its own group and its own place in the runs of the group. -/
theorem existsUnique_group (hlm : l ≤ m) {rep : Nat} (hrep : rep ∈ s.representatives a.size) :
    ∃! place : Nat × Nat, place.2 < 2 ^ l ∧ ∃ g, (groups s (cut (2 ^ l) a))[place.1]? = some g ∧
      g.toList.map (fun r => r.start + place.2) = s.members rep := by
  have hclasses := (s.pairwise_representatives a.size).filter fun rep => rep % 2 ^ l = 0
  have hdiv : 2 ^ l ∣ 2 ^ l * (rep / 2 ^ l) := Nat.dvd_mul_right _ _
  have hj := Nat.mod_lt rep (Nat.two_pow_pos l)
  have hmem : 2 ^ l * (rep / 2 ^ l) ∈ s.runClasses l a.size := by
    rwa [← Support.add_mem_representatives_iff hd hl hm hlm hdvd hdiv hj, Nat.div_add_mod]
  obtain ⟨k, hk⟩ := List.getElem?_of_mem hmem
  rw [groups_cut hd hl hm ha hdvd]
  refine ⟨(k, rep % 2 ^ l), ⟨hj, _, by rw [List.getElem?_map, hk, Option.map_some], ?_⟩, ?_⟩
  · rw [(isBundle_read hd hl hm hdvd hlm hmem).members _ hj, Nat.div_add_mod]
  · rintro ⟨k', j⟩ ⟨hj', g, hg, hmembers⟩
    rw [List.getElem?_map, Option.map_eq_some_iff] at hg
    obtain ⟨rep', hk', rfl⟩ := hg
    have hrep' := List.mem_of_getElem? hk'
    obtain ⟨-, -, t, rfl⟩ := (Support.mem_runClasses_iff hd hm hdvd).1 hrep'
    rw [(isBundle_read hd hl hm hdvd hlm hrep').members j hj'] at hmembers
    have hfirst := congrArg (·[0]?) hmembers
    simp only [Support.getElem?_members_zero, Option.some.injEq] at hfirst
    subst hfirst
    rw [Nat.mul_add_div (Nat.two_pow_pos l), Nat.div_eq_of_lt hj', Nat.add_zero] at hk
    have hlt := (List.getElem?_eq_some_iff.1 hk').1
    have hkk : k' = k := (List.getElem?_inj hlt hclasses.nodup).1 (hk'.trans hk.symm)
    rw [Nat.mul_add_mod, Nat.mod_eq_of_lt hj', hkk]

end Groups

/-- The array is cut into runs on which the addressed qubits are constant, and their keys are
distinct, so there is one way to sort them. The sorted list is made of groups with one run for each
row, and nothing is left over. Each group is a bundle of classes, and each class of the array has
one place in one group. -/
theorem groups_of_classes {width : Nat} {qubits : List Nat}
    (hcount : 1 ≤ qubits.length ∧ qubits.length ≤ 3) (hd : qubits.Nodup)
    (hr : ∀ q ∈ qubits, q < width) {a : Array α} (ha : a.size = 2 ^ width) :
    ∃ s, Support.ofQubits width qubits = .ok s ∧
      let length := 1 <<< min s.lowest Operator.maxRunBits
      let runs := Run.cut length a
      let groups := Run.groups s runs
      (∀ r ∈ runs, r.values.size = length ∧ ∀ j < length, r.values[j]? = a[r.start + j]? ∧
        ∀ q ∈ qubits, Register.value width (r.start + j) q = Register.value width r.start q) ∧
      runs.Pairwise (fun r r' => r.key s ≠ r'.key s) ∧
      (∀ sorted, sorted.Perm runs ∧ Sorted s sorted ↔ sorted = groups.flatMap Array.toList) ∧
      runs.length = 2 ^ qubits.length * groups.length ∧
      (∀ g ∈ groups, g.size = 2 ^ qubits.length ∧ ∃ rep, IsBundle s a length rep g) ∧
      ∀ rep ∈ s.representatives a.size, ∃! place : Nat × Nat, place.2 < length ∧
        ∃ g, groups[place.1]? = some g ∧
          g.toList.map (fun r => r.start + place.2) = s.members rep := by
  have hs := Support.ofQubits_eq_ok hcount.1 hcount.2 hd hr
  have hvalid := Support.valid_of_ofQubits hs
  have hd' := hvalid.distinct
  have hm := hvalid.inRange
  have hc := Support.count_onQubits width qubits
  have hl : ∀ p ∈ (Support.onQubits width qubits).positions,
      min (Support.onQubits width qubits).lowest Operator.maxRunBits ≤ p := fun p hp =>
    (Nat.min_le_left _ _).trans (Support.lowest_le hd' p hp)
  have hlm : min (Support.onQubits width qubits).lowest Operator.maxRunBits ≤ width := by
    have hmem := Support.highest_mem hvalid.positions_ne_nil
    exact (hl _ hmem).trans (hm _ hmem).le
  have hdvd : 2 ^ width ∣ a.size := ha ▸ Nat.dvd_refl _
  obtain ⟨n, hn⟩ := (Nat.pow_dvd_pow 2 hlm).trans hdvd
  refine ⟨_, hs, ?_⟩
  simp only [Nat.one_shiftLeft]
  refine ⟨fun r hrun => ⟨?_, fun j hj => ⟨?_, fun q hq => ?_⟩⟩, pairwise_key_cut hn hd',
    sorted_iff_eq_flatMap_groups hd' hl hm hn hdvd, hc ▸ length_cut_eq hd' hl hm hn hdvd,
    fun g hg => ?_, fun rep => existsUnique_group hd' hl hm hn hdvd hlm⟩
  · exact size_values_of_mem_cut hn hrun
  · exact getElem?_values_of_mem_cut hn hrun hj
  · exact testBit_add_of_mem_cut hn hrun hj (hl _ (List.mem_map_of_mem hq))
  · obtain ⟨rep, hg⟩ := isBundle_of_mem_groups hd' hl hm hn hdvd hlm hg
    exact ⟨hc ▸ hg.size, rep, hg⟩

/-- The lowest position is above the longest runs, so a stretch on which the addressed qubits are
constant is cut into two runs. -/
theorem groups_of_classes_on_fifteen :
    [1, 0].Nodup ∧ (∀ q ∈ [1, 0], q < 15) ∧ (Array.replicate (2 ^ 15) 'a').size = 2 ^ 15 ∧
      ∃ s, Support.ofQubits 15 [1, 0] = .ok s ∧ s.lowest = 13 ∧
        let length := 1 <<< min s.lowest Operator.maxRunBits
        let runs := Run.cut length (Array.replicate (2 ^ 15) 'a')
        length = 4096 ∧ runs.length = 4 * (Run.groups s runs).length ∧
          runs.Pairwise fun r r' => r.key s ≠ r'.key s := by
  have hd : [1, 0].Nodup := by decide
  have hr : ∀ q ∈ [1, 0], q < 15 := by decide
  have ha : (Array.replicate (2 ^ 15) 'a').size = 2 ^ 15 := Array.size_replicate
  obtain ⟨s, hs, -, hkeys, -, hlength, -⟩ := groups_of_classes ⟨by decide, by decide⟩ hd hr ha
  have hlow : s.lowest = 13 := by
    cases hs
    have hasc : ([13, 14] : List Nat).mergeSort = [13, 14] := List.mergeSort_of_pairwise (by decide)
    exact congrArg (fun ps => ps.head?.getD 0) hasc
  refine ⟨hd, hr, ha, s, hs, hlow, ?_, hlength, hkeys⟩
  rw [hlow]
  decide

end Run

end Ket
