import Mathlib.Algebra.Group.Nat.Defs
import Ket.Support

/-! The bits of the numbers that a support computes: its mask, the member offsets, row numbers and
cleared indices. From these, an index is told apart into the representative of its class and its
row, and put together again. -/

namespace Ket.Support

theorem testBit_one_shiftLeft (p j : Nat) : (1 <<< p).testBit j = decide (p = j) := by
  rw [Nat.one_shiftLeft, Nat.testBit_two_pow]

theorem testBit_foldl_or (ps : List Nat) (m j : Nat) :
    (ps.foldl (fun m p => m ||| 1 <<< p) m).testBit j = (m.testBit j || decide (j ∈ ps)) := by
  induction ps generalizing m with
  | nil => simp
  | cons p ps ih =>
    rw [List.foldl_cons, ih, Nat.testBit_or, testBit_one_shiftLeft, Bool.or_assoc]
    simp only [List.mem_cons, Bool.decide_or, eq_comm]

theorem classSize_eq (s : Support) : s.classSize = 2 ^ s.count := Nat.one_shiftLeft _

theorem testBit_mask (s : Support) (j : Nat) : s.mask.testBit j = decide (j ∈ s.positions) := by
  simp [mask, testBit_foldl_or]

theorem testBit_clear (s : Support) (i j : Nat) :
    (s.clear i).testBit j = (i.testBit j && !decide (j ∈ s.positions)) := by
  rw [clear, Nat.testBit_xor, Nat.testBit_and, testBit_mask]
  cases i.testBit j <;> cases decide (j ∈ s.positions) <;> rfl

theorem clear_le (s : Support) (i : Nat) : s.clear i ≤ i := by
  refine Nat.le_of_testBit fun j hj => ?_
  rw [testBit_clear, Bool.and_eq_true] at hj
  exact hj.1

theorem clear_eq_self_iff {s : Support} {i : Nat} :
    s.clear i = i ↔ ∀ p ∈ s.positions, i.testBit p = false := by
  refine ⟨?_, ?_⟩
  · intro h p hp
    rw [← h, testBit_clear]
    simp [hp]
  · intro h
    refine Nat.eq_of_testBit_eq fun j => ?_
    rw [testBit_clear]
    by_cases hj : j ∈ s.positions
    · simp [h j hj]
    · simp [hj]

theorem clear_clear (s : Support) (i : Nat) : s.clear (s.clear i) = s.clear i :=
  clear_eq_self_iff.2 fun p hp => by simp [testBit_clear, hp]

theorem testBit_deposit_of_notMem {ps : List Nat} {b j : Nat} (hj : j ∉ ps) :
    (deposit ps b).testBit j = false := by
  induction ps with
  | nil => exact Nat.zero_testBit j
  | cons p ps ih =>
    obtain ⟨hp, hps⟩ := not_or.1 fun h => hj (List.mem_cons.2 h)
    rw [deposit, Nat.testBit_or, ih hps]
    split
    · rw [testBit_one_shiftLeft, decide_eq_false (Ne.symm hp), Bool.or_false]
    · rw [Nat.zero_testBit, Bool.or_false]

/-- The first position takes the most significant of the bits. -/
theorem testBit_deposit_getElem {ps : List Nat} (hd : ps.Nodup) (b : Nat) {t : Nat}
    (ht : t < ps.length) : (deposit ps b).testBit ps[t] = b.testBit (ps.length - 1 - t) := by
  induction ps generalizing t with
  | nil => simp at ht
  | cons p ps ih =>
    obtain ⟨hp, hps⟩ := List.nodup_cons.1 hd
    cases t with
    | zero =>
      rw [List.getElem_cons_zero, deposit, Nat.testBit_or, testBit_deposit_of_notMem hp]
      cases hb : b.testBit ps.length <;>
        simp [hb, Nat.one_shiftLeft, Nat.testBit_two_pow_self]
    | succ t =>
      have ht' : t < ps.length := Nat.lt_of_succ_lt_succ ht
      have hne : p ≠ ps[t] := fun h => hp (h ▸ List.getElem_mem ht')
      rw [List.getElem_cons_succ, deposit, Nat.testBit_or, ih hps ht', List.length_cons,
        show ps.length + 1 - 1 - (t + 1) = ps.length - 1 - t by omega]
      split
      · rw [testBit_one_shiftLeft, decide_eq_false hne, Bool.false_or]
      · rw [Nat.zero_testBit, Bool.false_or]

theorem deposit_lt {ps : List Nat} {m : Nat} (h : ∀ p ∈ ps, p < m) (b : Nat) :
    deposit ps b < 2 ^ m := by
  refine Nat.lt_pow_two_of_testBit _ fun j hj => testBit_deposit_of_notMem fun hm => ?_
  exact absurd (h j hm) (by omega)

/-- Reading positions one after the other shifts what was read before to the left. -/
theorem testBit_foldl_read (i : Nat) (ps : List Nat) (b t : Nat) :
    (ps.foldl (fun b p => b <<< 1 ||| (i >>> p) % 2) b).testBit t =
      if h : t < ps.length then i.testBit ps[ps.length - 1 - t] else b.testBit (t - ps.length) := by
  induction ps generalizing b with
  | nil => simp
  | cons p ps ih =>
    have hbit : ((i >>> p) % 2).testBit 0 = i.testBit p := by
      rw [Nat.shiftRight_eq_div_pow, ← Nat.toNat_testBit]
      cases i.testBit p <;> rfl
    rw [List.foldl_cons, ih]
    simp only [List.length_cons]
    by_cases h1 : t < ps.length
    · have e : ps.length + 1 - 1 - t = ps.length - 1 - t + 1 := by omega
      rw [dif_pos h1, dif_pos (by omega)]
      simp only [e, List.getElem_cons_succ]
    · rw [dif_neg h1, Nat.testBit_or, Nat.testBit_shiftLeft]
      by_cases h2 : t = ps.length
      · subst h2
        simp [hbit]
      · have hlt : (i >>> p) % 2 < 2 ^ (t - ps.length) :=
          calc (i >>> p) % 2 < 2 ^ 1 := Nat.mod_lt _ (by decide)
            _ ≤ 2 ^ (t - ps.length) := Nat.pow_le_pow_right (by decide) (by omega)
        rw [dif_neg (by omega), Nat.testBit_lt_two_pow hlt]
        simp [show 1 ≤ t - ps.length by omega,
          show t - ps.length - 1 = t - (ps.length + 1) by omega]

theorem testBit_localIndex (s : Support) (i : Nat) {t : Nat} (ht : t < s.positions.length) :
    (s.localIndex i).testBit (s.positions.length - 1 - t) = i.testBit s.positions[t] := by
  rw [localIndex, testBit_foldl_read, dif_pos (by omega)]
  congr 2
  omega

theorem localIndex_lt (s : Support) (i : Nat) : s.localIndex i < 2 ^ s.count := by
  refine Nat.lt_pow_two_of_testBit _ fun t ht => ?_
  rw [localIndex, testBit_foldl_read, dif_neg (by unfold count at ht; omega), Nat.zero_testBit]

theorem clear_or_deposit (s : Support) (i b : Nat) :
    s.clear (i ||| deposit s.positions b) = s.clear i := by
  refine Nat.eq_of_testBit_eq fun j => ?_
  rw [testBit_clear, testBit_clear, Nat.testBit_or]
  by_cases hj : j ∈ s.positions
  · simp [hj]
  · rw [testBit_deposit_of_notMem hj, Bool.or_false]

theorem localIndex_or_deposit {s : Support} (hd : s.positions.Nodup) {i b : Nat}
    (hi : s.clear i = i) (hb : b < 2 ^ s.count) :
    s.localIndex (i ||| deposit s.positions b) = b := by
  refine Nat.eq_of_testBit_eq fun u => ?_
  by_cases hu : u < s.positions.length
  · have ht : s.positions.length - 1 - u < s.positions.length := by omega
    have h := testBit_localIndex s (i ||| deposit s.positions b) ht
    rw [show s.positions.length - 1 - (s.positions.length - 1 - u) = u by omega] at h
    rw [h, Nat.testBit_or, clear_eq_self_iff.1 hi _ (List.getElem_mem ht),
      testBit_deposit_getElem hd b ht, Bool.false_or]
    congr 1
    omega
  · have hle : 2 ^ s.count ≤ 2 ^ u := Nat.pow_le_pow_right (by decide) (by unfold count; omega)
    rw [Nat.testBit_lt_two_pow (Nat.lt_of_lt_of_le (localIndex_lt s _) hle),
      Nat.testBit_lt_two_pow (Nat.lt_of_lt_of_le hb hle)]

/-- An index is put together from its class and its row. -/
theorem clear_or_deposit_localIndex {s : Support} (hd : s.positions.Nodup) (i : Nat) :
    s.clear i ||| deposit s.positions (s.localIndex i) = i := by
  refine Nat.eq_of_testBit_eq fun j => ?_
  rw [Nat.testBit_or, testBit_clear]
  by_cases hj : j ∈ s.positions
  · obtain ⟨t, ht, rfl⟩ := List.getElem_of_mem hj
    rw [testBit_deposit_getElem hd _ ht, testBit_localIndex s i ht]
    simp [hj]
  · rw [testBit_deposit_of_notMem hj]
    simp [hj]

end Ket.Support
