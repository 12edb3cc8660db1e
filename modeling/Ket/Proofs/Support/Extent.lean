import Ket.Proofs.Support.Classes

/-! Bits above the highest and below the lowest position. They are the same in all members of a
class, so an index is moved by a whole number of blocks, or within a stretch on which the addressed
bits are constant, without a change of its row. -/

namespace Ket.Support

theorem le_highest {s : Support} (hd : s.positions.Nodup) :
    ∀ p ∈ s.positions, p ≤ s.highest := by
  intro p hp
  have hs := pairwise_ascending hd
  have hm := mem_ascending.2 hp
  rcases List.eq_nil_or_concat s.ascending with h | ⟨ps, q, h⟩
  · simp [h] at hm
  · rw [h, List.concat_eq_append] at hs hm
    rw [highest, h, List.concat_eq_append, List.getLast?_concat, Option.getD_some]
    obtain ⟨-, -, hq⟩ := List.pairwise_append.1 hs
    rcases List.mem_append.1 hm with hm | hm
    · exact Nat.le_of_lt (hq p hm q (List.mem_singleton_self q))
    · exact Nat.le_of_eq (List.mem_singleton.1 hm)

theorem lowest_le {s : Support} (hd : s.positions.Nodup) : ∀ p ∈ s.positions, s.lowest ≤ p := by
  intro p hp
  have hs := pairwise_ascending hd
  have hm := mem_ascending.2 hp
  cases h : s.ascending with
  | nil => simp [h] at hm
  | cons q ps =>
    rw [h] at hs hm
    rw [lowest, h, List.head?_cons, Option.getD_some]
    rcases List.mem_cons.1 hm with rfl | hm
    · exact Nat.le_refl p
    · exact Nat.le_of_lt ((List.pairwise_cons.1 hs).1 p hm)

theorem ascending_ne_nil {s : Support} (h : s.positions ≠ []) : s.ascending ≠ [] := by
  rw [← List.length_pos_iff, length_ascending]
  exact List.length_pos_iff.2 h

theorem highest_mem {s : Support} (h : s.positions ≠ []) : s.highest ∈ s.positions := by
  have hne := ascending_ne_nil h
  rw [highest, List.getLast?_eq_some_getLast hne, Option.getD_some, ← mem_ascending]
  exact List.getLast_mem hne

theorem localIndex_congr {s : Support} {i j : Nat}
    (h : ∀ p ∈ s.positions, i.testBit p = j.testBit p) : s.localIndex i = s.localIndex j := by
  refine Nat.eq_of_testBit_eq fun t => ?_
  rw [localIndex, localIndex, testBit_foldl_read, testBit_foldl_read]
  split
  · exact h _ (List.getElem_mem _)
  · rfl

section Blocks

variable {s : Support} {m : Nat} (hm : ∀ p ∈ s.positions, p < m)

include hm

theorem localIndex_block (k : Nat) {j : Nat} (hj : j < 2 ^ m) :
    s.localIndex (2 ^ m * k + j) = s.localIndex j :=
  localIndex_congr fun p hp => by rw [Nat.testBit_two_pow_mul_add k hj, if_pos (hm p hp)]

theorem member_block (k c : Nat) {j : Nat} (hj : j < 2 ^ m) :
    s.clear (2 ^ m * k + j) ||| deposit s.positions c =
      2 ^ m * k + (s.clear j ||| deposit s.positions c) := by
  have hlt : s.clear j ||| deposit s.positions c < 2 ^ m :=
    Nat.or_lt_two_pow (Nat.lt_of_le_of_lt (s.clear_le j) hj) (deposit_lt hm c)
  refine Nat.eq_of_testBit_eq fun p => ?_
  rw [Nat.testBit_or, testBit_clear, Nat.testBit_two_pow_mul_add k hj,
    Nat.testBit_two_pow_mul_add k hlt, Nat.testBit_or, testBit_clear]
  by_cases hp : p < m
  · simp [hp]
  · have hmem : p ∉ s.positions := fun h => hp (hm p h)
    simp [hp, hmem, testBit_deposit_of_notMem hmem]

omit s hm in
theorem or_lt_of_dvd {length i d : Nat} (hlen : 2 ^ m ∣ length) (hi : i < length)
    (hd : d < 2 ^ m) : i ||| d < length := by
  obtain ⟨t, rfl⟩ := hlen
  have hpos := Nat.two_pow_pos m
  rw [Nat.mul_comm, ← Nat.div_lt_iff_lt_mul hpos] at hi ⊢
  rwa [Nat.or_div_two_pow, Nat.div_eq_of_lt hd, Nat.or_zero]

end Blocks

theorem two_pow_dvd_iff {l i : Nat} : 2 ^ l ∣ i ↔ ∀ j < l, i.testBit j = false := by
  rw [Nat.dvd_iff_mod_eq_zero]
  refine ⟨?_, ?_⟩
  · intro h j hj
    have hb := Nat.testBit_mod_two_pow i l j
    rw [h, Nat.zero_testBit] at hb
    simpa [hj] using hb.symm
  · intro h
    refine Nat.eq_of_testBit_eq fun j => ?_
    rw [Nat.testBit_mod_two_pow, Nat.zero_testBit]
    by_cases hj : j < l <;> simp [hj, h]

theorem dvd_clear (s : Support) {l i : Nat} (hi : 2 ^ l ∣ i) : 2 ^ l ∣ s.clear i :=
  two_pow_dvd_iff.2 fun j hj => by rw [testBit_clear, two_pow_dvd_iff.1 hi j hj, Bool.false_and]

theorem add_eq_or {l i j : Nat} (hi : 2 ^ l ∣ i) (hj : j < 2 ^ l) : i + j = i ||| j := by
  obtain ⟨k, rfl⟩ := hi
  exact Nat.two_pow_add_eq_or_of_lt hj k

section Stretches

variable {s : Support} {l : Nat} (hl : ∀ p ∈ s.positions, l ≤ p)

include hl

theorem testBit_of_lt_two_pow {j : Nat} (hj : j < 2 ^ l) :
    ∀ p ∈ s.positions, j.testBit p = false := fun p hp =>
  Nat.testBit_lt_two_pow (Nat.lt_of_lt_of_le hj (Nat.pow_le_pow_right (by decide) (hl p hp)))

theorem dvd_member {rep : Nat} (hrep : 2 ^ l ∣ rep) (b : Nat) :
    2 ^ l ∣ rep ||| deposit s.positions b := by
  refine two_pow_dvd_iff.2 fun j hj => ?_
  have hmem : j ∉ s.positions := fun h => absurd (hl j h) (by omega)
  rw [Nat.testBit_or, two_pow_dvd_iff.1 hrep j hj, testBit_deposit_of_notMem hmem, Bool.or_false]

theorem clear_add {i j : Nat} (hi : 2 ^ l ∣ i) (hj : j < 2 ^ l) :
    s.clear (i + j) = s.clear i + j := by
  rw [add_eq_or hi hj, add_eq_or (s.dvd_clear hi) hj]
  refine Nat.eq_of_testBit_eq fun p => ?_
  rw [testBit_clear, Nat.testBit_or, Nat.testBit_or, testBit_clear]
  by_cases hp : p ∈ s.positions
  · simp [hp, testBit_of_lt_two_pow hl hj p hp]
  · simp [hp]

/-- The members of neighbouring classes stand side by side. -/
theorem member_add {rep j : Nat} (hrep : 2 ^ l ∣ rep) (hj : j < 2 ^ l) (b : Nat) :
    (rep + j) ||| deposit s.positions b = (rep ||| deposit s.positions b) + j := by
  rw [add_eq_or (dvd_member hl hrep b) hj, add_eq_or hrep hj, Nat.or_assoc, Nat.or_assoc,
    Nat.or_comm j]

end Stretches

end Ket.Support
