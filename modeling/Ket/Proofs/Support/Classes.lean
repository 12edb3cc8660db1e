import Mathlib.Data.List.Induction
import Mathlib.Data.List.Sort
import Ket.Proofs.Support.Bits

/-! The representatives of the classes. Inserting zeros at ascending positions is a strictly
increasing map from class numbers onto the indices in which all addressed bits are zero, so
`representatives` lists these indices once each and in order. -/

namespace Ket.Support

theorem insertZero_eq (i p : Nat) : insertZero i p = i + i / 2 ^ p * 2 ^ p := by
  have hlt : i % 2 ^ p < 2 ^ (p + 1) :=
    calc i % 2 ^ p < 2 ^ p := Nat.mod_lt i (Nat.two_pow_pos p)
      _ ≤ 2 ^ (p + 1) := Nat.pow_le_pow_right (by decide) (Nat.le_succ p)
  have hdiv := Nat.div_add_mod' i (2 ^ p)
  rw [insertZero, Nat.one_shiftLeft, ← Nat.shiftLeft_add_eq_or_of_lt hlt, Nat.shiftLeft_eq,
    Nat.shiftRight_eq_div_pow, Nat.pow_succ, ← Nat.mul_assoc]
  omega

theorem insertZero_lt_insertZero {i j : Nat} (p : Nat) (h : i < j) :
    insertZero i p < insertZero j p := by
  rw [insertZero_eq, insertZero_eq]
  exact Nat.add_lt_add_of_lt_of_le h
    (Nat.mul_le_mul_right _ (Nat.div_le_div_right (Nat.le_of_lt h)))

theorem testBit_insertZero (i p j : Nat) :
    (insertZero i p).testBit j =
      if j < p then i.testBit j else if j = p then false else i.testBit (j - 1) := by
  rw [insertZero, Nat.one_shiftLeft, Nat.testBit_or, Nat.testBit_shiftLeft,
    Nat.testBit_shiftRight, Nat.testBit_mod_two_pow]
  rcases Nat.lt_trichotomy j p with h | h | h
  · simp [h, show ¬ p + 1 ≤ j by omega]
  · simp [h]
  · simp [show ¬ j < p by omega, show j ≠ p by omega, show p + 1 ≤ j by omega,
      show p + (j - (p + 1)) = j - 1 by omega]

/-- Takes the bit at position `p` out of an index. -/
def removeBit (i p : Nat) : Nat := (i >>> (p + 1)) <<< p ||| i % (1 <<< p)

theorem testBit_removeBit (i p j : Nat) :
    (removeBit i p).testBit j = if j < p then i.testBit j else i.testBit (j + 1) := by
  rw [removeBit, Nat.one_shiftLeft, Nat.testBit_or, Nat.testBit_shiftLeft,
    Nat.testBit_shiftRight, Nat.testBit_mod_two_pow]
  by_cases h : j < p
  · simp [h, show ¬ p ≤ j by omega]
  · simp [h, show p ≤ j by omega, show p + 1 + (j - p) = j + 1 by omega]

theorem removeBit_lt {i p n : Nat} (hp : p ≤ n) (hi : i < 2 ^ (n + 1)) : removeBit i p < 2 ^ n := by
  refine Nat.lt_pow_two_of_testBit _ fun j hj => ?_
  rw [testBit_removeBit, if_neg (by omega)]
  exact Nat.testBit_lt_two_pow (hi.trans_le (Nat.pow_le_pow_right (by decide) (by omega)))

theorem insertZero_removeBit {i p : Nat} (h : i.testBit p = false) :
    insertZero (removeBit i p) p = i := by
  refine Nat.eq_of_testBit_eq fun j => ?_
  rw [testBit_insertZero, testBit_removeBit, testBit_removeBit]
  rcases Nat.lt_trichotomy j p with hj | hj | hj
  · simp [hj]
  · simp [hj, h]
  · simp [show ¬ j < p by omega, show j ≠ p by omega, show ¬ j - 1 < p by omega,
      show j - 1 + 1 = j by omega]

theorem insertZero_lt_iff {i p m : Nat} (hm : 2 ^ p ∣ m) : insertZero i p < 2 * m ↔ i < m := by
  obtain ⟨t, rfl⟩ := hm
  have hpos := Nat.two_pow_pos p
  have hdiv := Nat.div_add_mod i (2 ^ p)
  have hmod := Nat.mod_lt i hpos
  rw [insertZero_eq, Nat.mul_comm (i / 2 ^ p)]
  refine ⟨?_, ?_⟩
  · intro h
    have hq : i / 2 ^ p < t := Nat.lt_of_mul_lt_mul_left (a := 2 ^ p) (by omega)
    rw [Nat.mul_comm]
    exact (Nat.div_lt_iff_lt_mul hpos).1 hq
  · intro h
    have hq : i / 2 ^ p < t := (Nat.div_lt_iff_lt_mul hpos).2 (Nat.mul_comm _ _ ▸ h)
    have hle : 2 ^ p * (i / 2 ^ p + 1) ≤ 2 ^ p * t := Nat.mul_le_mul_left _ hq
    rw [Nat.mul_succ] at hle
    omega

theorem pairwise_ascending {s : Support} (hd : s.positions.Nodup) :
    s.ascending.Pairwise (· < ·) := by
  have hle : s.ascending.Pairwise (· ≤ ·) := List.pairwise_mergeSort' (· ≤ ·) s.positions
  have hne : s.ascending.Nodup := (List.mergeSort_perm s.positions _).nodup_iff.2 hd
  exact (hle.and hne).imp fun h => Nat.lt_of_le_of_ne h.1 h.2

theorem mem_ascending {s : Support} {p : Nat} : p ∈ s.ascending ↔ p ∈ s.positions :=
  (List.mergeSort_perm s.positions _).mem_iff

theorem length_ascending (s : Support) : s.ascending.length = s.count :=
  (List.mergeSort_perm s.positions _).length_eq

/-- What is told of the numbers before the highest position is inserted carries over, since no
earlier position lies above it. -/
theorem testBit_foldl_insertZero {ps : List Nat} (hs : ps.Pairwise (· < ·)) (r : Nat) :
    ∀ p ∈ ps, (ps.foldl insertZero r).testBit p = false := by
  induction ps using List.reverseRecOn with
  | nil => simp
  | append_singleton ps q ih =>
    obtain ⟨hps, -, hq⟩ := List.pairwise_append.1 hs
    intro p hp
    rw [List.foldl_append, List.foldl_cons, List.foldl_nil, testBit_insertZero]
    rcases List.mem_append.1 hp with hp | hp
    · rw [if_pos (hq p hp q (List.mem_singleton_self q)), ih hps p hp]
    · simp [List.mem_singleton.1 hp]

theorem foldl_insertZero_lt_foldl_insertZero (ps : List Nat) {r r' : Nat} (h : r < r') :
    ps.foldl insertZero r < ps.foldl insertZero r' := by
  induction ps generalizing r r' with
  | nil => exact h
  | cons p ps ih => exact ih (insertZero_lt_insertZero p h)

theorem foldl_insertZero_lt_iff {ps : List Nat} (hs : ps.Pairwise (· < ·)) {h t r : Nat}
    (hh : ∀ p ∈ ps, p < h) :
    ps.foldl insertZero r < 2 ^ h * t ↔ r < 2 ^ (h - ps.length) * t := by
  induction ps using List.reverseRecOn generalizing h with
  | nil => simp
  | append_singleton ps q ih =>
    obtain ⟨hps, -, hq⟩ := List.pairwise_append.1 hs
    obtain ⟨h, rfl⟩ : ∃ h', h = h' + 1 := ⟨h - 1, by have := hh q (by simp); omega⟩
    have hqh : q ≤ h := Nat.le_of_lt_succ (hh q (by simp))
    rw [List.foldl_append, List.foldl_cons, List.foldl_nil, Nat.pow_succ', Nat.mul_assoc,
      insertZero_lt_iff (Nat.dvd_mul_right_of_dvd (Nat.pow_dvd_pow 2 hqh) t),
      ih hps fun p hp => Nat.lt_of_lt_of_le (hq p hp q (by simp)) hqh]
    simp

theorem exists_foldl_insertZero {ps : List Nat} (hs : ps.Pairwise (· < ·)) {i : Nat}
    (hi : ∀ p ∈ ps, i.testBit p = false) : ∃ r, ps.foldl insertZero r = i := by
  induction ps using List.reverseRecOn generalizing i with
  | nil => exact ⟨i, rfl⟩
  | append_singleton ps q ih =>
    obtain ⟨hps, -, hq⟩ := List.pairwise_append.1 hs
    obtain ⟨r, hr⟩ := ih (i := removeBit i q) hps fun p hp => by
      rw [testBit_removeBit, if_pos (hq p hp q (by simp)), hi p (by simp [hp])]
    refine ⟨r, ?_⟩
    rw [List.foldl_append, List.foldl_cons, List.foldl_nil, hr,
      insertZero_removeBit (hi q (by simp))]

theorem pairwise_representatives (s : Support) (length : Nat) :
    (s.representatives length).Pairwise (· < ·) :=
  List.pairwise_map.2 <| List.pairwise_lt_range.imp fun h =>
    foldl_insertZero_lt_foldl_insertZero s.ascending h

theorem clear_representative {s : Support} (hd : s.positions.Nodup) (r : Nat) :
    s.clear (s.representative r) = s.representative r :=
  clear_eq_self_iff.2 fun p hp =>
    testBit_foldl_insertZero (pairwise_ascending hd) r p (mem_ascending.2 hp)

theorem count_le_of_lt {s : Support} (hd : s.positions.Nodup) {h : Nat}
    (hh : ∀ p ∈ s.positions, p < h) : s.count ≤ h := by
  have hsub := List.subperm_of_subset hd fun p hp => List.mem_range.2 (hh p hp)
  exact hsub.length_le.trans_eq List.length_range

/-- The length is a whole number of blocks that each hold all positions. -/
theorem mem_representatives_iff {s : Support} (hd : s.positions.Nodup) {h length i : Nat}
    (hh : ∀ p ∈ s.positions, p < h) (hlen : 2 ^ h ∣ length) :
    i ∈ s.representatives length ↔ i < length ∧ s.clear i = i := by
  obtain ⟨t, rfl⟩ := hlen
  have hasc : ∀ p ∈ s.ascending, p < h := fun p hp => hh p (mem_ascending.1 hp)
  have hnum : (2 ^ h * t) >>> s.count = 2 ^ (h - s.count) * t := by
    rw [Nat.shiftRight_eq_div_pow, ← Nat.sub_add_cancel (count_le_of_lt hd hh), Nat.pow_add,
      Nat.add_sub_cancel, Nat.mul_right_comm, Nat.mul_div_cancel _ (Nat.two_pow_pos _)]
  have hlt (r : Nat) : s.representative r < 2 ^ h * t ↔ r < (2 ^ h * t) >>> s.count := by
    rw [representative, foldl_insertZero_lt_iff (pairwise_ascending hd) hasc, length_ascending,
      hnum]
  simp only [representatives, List.mem_map, List.mem_range]
  refine ⟨?_, ?_⟩
  · rintro ⟨r, hr, rfl⟩
    exact ⟨(hlt r).2 hr, clear_representative hd r⟩
  · rintro ⟨hi, hc⟩
    obtain ⟨r, rfl⟩ := exists_foldl_insertZero (pairwise_ascending hd) fun p hp =>
      clear_eq_self_iff.1 hc p (mem_ascending.1 hp)
    exact ⟨r, (hlt r).1 hi, rfl⟩

end Ket.Support
