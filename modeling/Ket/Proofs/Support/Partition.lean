import Ket.Proofs.Operator.Embedding
import Ket.Proofs.Support.Extent

/-! The classes as a partition of the indices. It holds of every array of whole blocks, a block
being long enough for the highest position: each index of such an array is a member of one class,
and its place among the members is its row. -/

namespace Ket.Support

variable {s : Support}

theorem getElem?_offsets {b : Nat} (hb : b < 2 ^ s.count) :
    s.offsets[b]? = some (deposit s.positions b) := by
  rw [offsets, classSize_eq, List.getElem?_map, List.getElem?_range hb, Option.map_some]

theorem length_members (s : Support) (rep : Nat) : (s.members rep).length = 2 ^ s.count := by
  rw [members_eq, List.length_map, List.length_range]

theorem getElem?_members_eq_some_iff {rep b i : Nat} :
    (s.members rep)[b]? = some i ↔ b < 2 ^ s.count ∧ rep ||| deposit s.positions b = i := by
  rw [members_eq, List.getElem?_map]
  by_cases hb : b < 2 ^ s.count
  · simp [hb]
  · simp [hb]

theorem getElem?_members_zero (s : Support) (rep : Nat) : (s.members rep)[0]? = some rep := by
  have hzero : deposit s.positions 0 = 0 := by
    induction s.positions with
    | nil => rfl
    | cons p ps ih => rw [deposit, ih, Nat.zero_testBit, if_neg Bool.false_ne_true, Nat.or_zero]
  exact getElem?_members_eq_some_iff.2 ⟨Nat.two_pow_pos _, by rw [hzero, Nat.or_zero]⟩

theorem nodup_members (hd : s.positions.Nodup) {rep : Nat} (hrep : s.clear rep = rep) :
    (s.members rep).Nodup := by
  rw [members_eq]
  refine List.Nodup.map_on (fun b hb c hc h => ?_) List.nodup_range
  rw [← localIndex_or_deposit hd hrep (List.mem_range.1 hb), h,
    localIndex_or_deposit hd hrep (List.mem_range.1 hc)]

/-- The class of an index and its place in the class are told by the index. -/
theorem clear_and_localIndex_of_member (hd : s.positions.Nodup) {rep b i : Nat}
    (hrep : s.clear rep = rep) (hi : (s.members rep)[b]? = some i) :
    rep = s.clear i ∧ b = s.localIndex i := by
  obtain ⟨hb, rfl⟩ := getElem?_members_eq_some_iff.1 hi
  rw [clear_or_deposit, hrep, localIndex_or_deposit hd hrep hb]
  exact ⟨rfl, rfl⟩

theorem getElem?_members_localIndex (hd : s.positions.Nodup) (i : Nat) :
    (s.members (s.clear i))[s.localIndex i]? = some i :=
  getElem?_members_eq_some_iff.2 ⟨localIndex_lt s i, clear_or_deposit_localIndex hd i⟩

section Blocks

variable {m length : Nat} (hd : s.positions.Nodup) (hm : ∀ p ∈ s.positions, p < m)
  (hlen : 2 ^ m ∣ length)

include hm hlen

theorem lt_of_mem_members {rep : Nat} (hrep : rep < length) :
    ∀ i ∈ s.members rep, i < length := by
  intro i hi
  rw [members_eq, List.mem_map] at hi
  obtain ⟨b, -, rfl⟩ := hi
  exact or_lt_of_dvd hlen hrep (deposit_lt hm b)

include hd

theorem member_iff {i : Nat} (hi : i < length) (rep b : Nat) :
    rep ∈ s.representatives length ∧ (s.members rep)[b]? = some i ↔
      rep = s.clear i ∧ b = s.localIndex i := by
  have hmem {r : Nat} := mem_representatives_iff (i := r) hd hm hlen
  refine ⟨?_, ?_⟩
  · rintro ⟨hrep, hb⟩
    exact clear_and_localIndex_of_member hd (hmem.1 hrep).2 hb
  · rintro ⟨rfl, rfl⟩
    have hlt := Nat.lt_of_le_of_lt (s.clear_le i) hi
    exact ⟨hmem.2 ⟨hlt, s.clear_clear i⟩, getElem?_members_localIndex hd i⟩

end Blocks

section Qubits

variable {width : Nat} {qubits : List Nat}

theorem clear_onQubits_eq_self_iff {i : Nat} :
    (onQubits width qubits).clear i = i ↔ ∀ q ∈ qubits, Register.value width i q = false := by
  rw [clear_eq_self_iff, onQubits, List.forall_mem_map]
  rfl

/-- Representatives come in increasing order and are the indices in which all addressed qubits are
0. A class has distinct members within the array, and its representative is the first. Every index
is a member of one class, at the place of its row. The lengths are those of the whole array and of
any blocks that the highest position allows. -/
theorem classes_partition (hcount : 1 ≤ qubits.length ∧ qubits.length ≤ 3) (hd : qubits.Nodup)
    (hr : ∀ q ∈ qubits, q < width) :
    ∃ s, ofQubits width qubits = .ok s ∧ 2 ^ (s.highest + 1) ∣ 2 ^ width ∧
      ∀ length, 2 ^ (s.highest + 1) ∣ length →
        (s.representatives length).Pairwise (· < ·) ∧
        (∀ i, i ∈ s.representatives length ↔
          i < length ∧ ∀ q ∈ qubits, Register.value width i q = false) ∧
        (∀ rep ∈ s.representatives length, (s.members rep).length = 2 ^ qubits.length ∧
          (s.members rep).Nodup ∧ (∀ i ∈ s.members rep, i < length) ∧
          (s.members rep)[0]? = some rep ∧
          ∀ b < 2 ^ qubits.length, ∃ offset, s.offsets[b]? = some offset ∧
            s.localIndex (rep ||| offset) = b) ∧
        ∀ i < length, ∀ rep b, rep ∈ s.representatives length ∧ (s.members rep)[b]? = some i ↔
          rep = s.clear i ∧ b = s.localIndex i := by
  have hs := ofQubits_eq_ok hcount.1 hcount.2 hd hr
  have hvalid := valid_of_ofQubits hs
  have hd' := hvalid.distinct
  have hm : ∀ p ∈ (onQubits width qubits).positions, p < (onQubits width qubits).highest + 1 :=
    fun p hp => Nat.lt_succ_of_le (le_highest hd' p hp)
  have hhigh := hvalid.inRange _ (highest_mem hvalid.positions_ne_nil)
  have hc := count_onQubits width qubits
  refine ⟨_, hs, Nat.pow_dvd_pow 2 hhigh, fun length hlen => ?_⟩
  have hmem {r : Nat} := mem_representatives_iff (i := r) hd' hm hlen
  refine ⟨pairwise_representatives _ _, fun i => ?_, fun rep hrep => ?_,
    fun i hi => member_iff hd' hm hlen hi⟩
  · rw [hmem, clear_onQubits_eq_self_iff]
  · obtain ⟨hlt, hclear⟩ := hmem.1 hrep
    refine ⟨hc ▸ length_members _ rep, nodup_members hd' hclear,
      lt_of_mem_members hm hlen hlt, getElem?_members_zero _ rep, fun b hb => ?_⟩
    rw [← hc] at hb
    exact ⟨_, getElem?_offsets hb, localIndex_or_deposit hd' hclear hb⟩

/-- Qubits 3 and 1 of four, on one of the two blocks of the array. Index 6 has the bits of row 1. -/
theorem classes_partition_on_four :
    [3, 1].Nodup ∧ (∀ q ∈ [3, 1], q < 4) ∧ ∃ s, ofQubits 4 [3, 1] = .ok s ∧
      2 ^ (s.highest + 1) ∣ 8 ∧ s.representatives 8 = [0b000, 0b010] ∧
      (s.members 0b010)[1]? = some 0b110 ∧
      ∀ rep b, rep ∈ s.representatives 8 ∧ (s.members rep)[b]? = some 0b110 →
        rep = 0b010 ∧ b = 1 := by
  have hd : [3, 1].Nodup := by decide
  have hr : ∀ q ∈ [3, 1], q < 4 := by decide
  obtain ⟨s, hs, -, h⟩ := classes_partition ⟨by decide, by decide⟩ hd hr
  have hs' : s = ⟨[0, 2]⟩ := by
    cases hs
    rfl
  subst hs'
  have hasc : (⟨[0, 2]⟩ : Support).ascending = [0, 2] := List.mergeSort_of_pairwise (by decide)
  have hdvd : 2 ^ ((⟨[0, 2]⟩ : Support).highest + 1) ∣ 8 := by
    rw [highest, hasc]
    decide
  have hreps : (⟨[0, 2]⟩ : Support).representatives 8 = [0b000, 0b010] := by
    have hnumbers : List.range (8 >>> (⟨[0, 2]⟩ : Support).count) = [0, 1] := by decide
    rw [representatives, hnumbers, List.map_cons, List.map_singleton, representative,
      representative, hasc]
    decide
  obtain ⟨-, -, -, hindex⟩ := h 8 hdvd
  refine ⟨hd, hr, _, hs, hdvd, hreps, by decide, fun rep b hb => ?_⟩
  exact (hindex 6 (by decide) rep b).1 hb

end Qubits

end Ket.Support
