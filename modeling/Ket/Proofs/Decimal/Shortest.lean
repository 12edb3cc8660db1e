import Mathlib.Algebra.Order.Field.Power
import Mathlib.Data.Rat.Cast.Order
import Mathlib.Tactic.FieldSimp
import Mathlib.Tactic.Linarith
import Mathlib.Tactic.Ring
import Ket.Decimal.Shortest

/-! The shortest digits as numbers. They stand for a number in the interval that is rounded to the
binary64 number, since the last of the grids that are tried is fine enough to have a point in every
interval. The intervals of distinct binary64 numbers have no number in common: where two of them
meet, one of the significands is odd. -/

namespace Ket

def Decimal.value (d : Decimal) : ℚ := d.digits * 10 ^ d.exponent

namespace Binary64

/-- The exponents and significands of finite numbers, apart from zero. Each number has one. -/
structure Canonical (m : Nat) (e : Int) : Prop where
  pos : 0 < m
  lt : m < 2 * leastNormal
  least : leastExponent ≤ e
  greatest : e ≤ 971
  normal : leastExponent < e → leastNormal ≤ m

/-- How far the interval goes below the number, where the distance of its neighbour above is 1. -/
def gap (m : Nat) : ℚ := if m = leastNormal then 1 / 4 else 1 / 2

/-- Whether `m * 2 ^ e` is the binary64 number that `x` is rounded to. The ends of the interval
count if the significand is even. -/
structure Rounds (m : Nat) (e : Int) (x : ℚ) : Prop where
  lower : (m - gap m) * 2 ^ e ≤ x
  upper : x ≤ (m + 1 / 2) * 2 ^ e
  even : x = (m - gap m) * 2 ^ e ∨ x = (m + 1 / 2) * 2 ^ e → m % 2 = 0

section Disjoint

variable {m m' : Nat} {e e' : Int}

theorem gap_le (m : Nat) : gap m ≤ 1 / 2 := by
  unfold gap
  split <;> norm_num

theorem Rounds.pos {x : ℚ} (h : Rounds m e x) (hm : 0 < m) : 0 < x := by
  have hm' : (1 : ℚ) ≤ m := by exact_mod_cast hm
  have hgap := gap_le m
  refine lt_of_lt_of_le (mul_pos ?_ (zpow_pos two_pos e)) h.lower
  linarith

/-- In one binade, neighbours meet at an end that one of them does not count. -/
theorem upper_le_lower_of_lt (hlt : m < m') (e : Int) :
    ((m : ℚ) + 1 / 2) * 2 ^ e ≤ (m' - gap m') * 2 ^ e ∧
      (((m : ℚ) + 1 / 2) * 2 ^ e = (m' - gap m') * 2 ^ e → m % 2 = 0 → m' % 2 ≠ 0) := by
  have hp : (0 : ℚ) < 2 ^ e := zpow_pos two_pos e
  have hlt' : (m : ℚ) + 1 ≤ m' := by exact_mod_cast hlt
  have hgap := gap_le m'
  refine ⟨mul_le_mul_of_nonneg_right (by linarith) hp.le, fun heq hm hm' => ?_⟩
  have hsum : (m' : ℚ) = m + 1 := by
    have := mul_right_cancel₀ hp.ne' heq
    linarith
  have hsucc : m' = m + 1 := by exact_mod_cast hsum
  omega

/-- The end of a binade, which the last significand does not count as it is odd. -/
theorem upper_le_lower_of_normal (hm : m < 2 * leastNormal) (hm' : leastNormal ≤ m')
    (he : e < e') : ((m : ℚ) + 1 / 2) * 2 ^ e ≤ (m' - gap m') * 2 ^ e' ∧
      (((m : ℚ) + 1 / 2) * 2 ^ e = (m' - gap m') * 2 ^ e' → m % 2 ≠ 0) := by
  have hp : (0 : ℚ) < 2 ^ e := zpow_pos two_pos e
  have hlast : (m : ℚ) + 1 ≤ 2 * leastNormal := by exact_mod_cast hm
  have hfirst : (leastNormal : ℚ) - 1 / 4 ≤ m' - gap m' := by
    have hgap := gap_le m'
    rcases hm'.eq_or_lt with rfl | hlt
    · rw [gap, if_pos rfl]
    · have hlt' : (leastNormal : ℚ) + 1 ≤ m' := by exact_mod_cast hlt
      linarith
  have hdouble : (2 : ℚ) * 2 ^ e ≤ 2 ^ e' := by
    rw [← zpow_one_add₀ two_ne_zero]
    exact zpow_le_zpow_right₀ one_le_two (by omega)
  have hone : (1 : ℚ) ≤ leastNormal := by exact_mod_cast (by decide : 1 ≤ leastNormal)
  have hbinade : (2 * (leastNormal : ℚ) - 1 / 2) * 2 ^ e ≤ (m' - gap m') * 2 ^ e' := by
    calc (2 * (leastNormal : ℚ) - 1 / 2) * 2 ^ e
        = (leastNormal - 1 / 4) * (2 * 2 ^ e) := by ring
      _ ≤ (m' - gap m') * 2 ^ e' :=
        mul_le_mul hfirst hdouble (by positivity) (by linarith)
  have hupper : ((m : ℚ) + 1 / 2) * 2 ^ e ≤ (2 * (leastNormal : ℚ) - 1 / 2) * 2 ^ e :=
    mul_le_mul_of_nonneg_right (by linarith) hp.le
  refine ⟨hupper.trans hbinade, fun heq heven => ?_⟩
  have hsum : (m : ℚ) + 1 = 2 * leastNormal := by
    have := mul_right_cancel₀ hp.ne' (hupper.antisymm (heq ▸ hbinade))
    linarith
  have hsucc : m + 1 = 2 * leastNormal := by exact_mod_cast hsum
  omega

theorem not_rounds_of_upper_le_lower {x : ℚ} (hx : Rounds m e x) (hx' : Rounds m' e' x)
    (hle : ((m : ℚ) + 1 / 2) * 2 ^ e ≤ (m' - gap m') * 2 ^ e')
    (hodd : ((m : ℚ) + 1 / 2) * 2 ^ e = (m' - gap m') * 2 ^ e' → m % 2 = 0 → m' % 2 ≠ 0) :
    False := by
  have hupper : x = (m + 1 / 2) * 2 ^ e := hx.upper.antisymm (hle.trans hx'.lower)
  have hlower : x = (m' - gap m') * 2 ^ e' := (hx.upper.trans hle).antisymm hx'.lower
  exact hodd (hupper.symm.trans hlower) (hx.even (.inr hupper)) (hx'.even (.inl hlower))

theorem Rounds.not_lex {x : ℚ} (hx : Rounds m e x) (hx' : Rounds m' e' x) (h : Canonical m e)
    (h' : Canonical m' e') : ¬ (e < e' ∨ e = e' ∧ m < m') := by
  rintro (he | ⟨rfl, hm⟩)
  · obtain ⟨hle, hodd⟩ := upper_le_lower_of_normal h.lt (h'.normal (h.least.trans_lt he)) he
    exact not_rounds_of_upper_le_lower hx hx' hle fun heq heven => absurd heven (hodd heq)
  · obtain ⟨hle, hodd⟩ := upper_le_lower_of_lt hm e
    exact not_rounds_of_upper_le_lower hx hx' hle hodd

/-- A number is rounded to one binary64 number. -/
theorem Rounds.unique {x : ℚ} (hx : Rounds m e x) (hx' : Rounds m' e' x) (h : Canonical m e)
    (h' : Canonical m' e') : m = m' ∧ e = e' := by
  have hlex := hx.not_lex hx' h h'
  have hlex' := hx'.not_lex hx h' h
  omega

end Disjoint

end Binary64

namespace Decimal

open Binary64

theorem zpow_mul_pow_toNat {x : ℚ} (hx : x ≠ 0) (n : Int) :
    x ^ n * x ^ (-n).toNat = x ^ n.toNat := by
  rw [← zpow_natCast, ← zpow_natCast, ← zpow_add₀ hx]
  congr 1
  omega

namespace Interval

/-- What the numbers of the interval are multiplied by to be compared as natural numbers. -/
def factor (e grid : Int) : ℚ := (of 0 e grid).denominator / 10 ^ grid

variable {m : Nat} {e grid : Int}

theorem denominator_pos (m : Nat) (e grid : Int) : 0 < (of m e grid).denominator := by
  simp only [of, Nat.one_shiftLeft, Nat.pow_eq]
  positivity

theorem factor_pos (e grid : Int) : 0 < factor e grid :=
  div_pos (Nat.cast_pos.2 (denominator_pos 0 e grid)) (zpow_pos (by norm_num) grid)

theorem point_mul_factor (m : Nat) (e grid : Int) (point : Nat) :
    (point : ℚ) * (10 : ℚ) ^ grid * factor e grid =
      ((point * (of m e grid).denominator : Nat) : ℚ) := by
  have h10 : (10 : ℚ) ^ grid ≠ 0 := (zpow_pos (by norm_num) grid).ne'
  rw [factor, mul_assoc, mul_div_cancel₀ _ h10, Nat.cast_mul]
  rfl

theorem quarters_mul_factor (e grid : Int) (quarters : Nat) :
    (quarters : ℚ) / (4 : ℚ) * (2 : ℚ) ^ e * factor e grid =
      ((quarters * ((1 <<< e.toNat) * Nat.pow 10 (-grid).toNat) : Nat) : ℚ) := by
  have h10 : (10 : ℚ) ^ grid ≠ 0 := (zpow_pos (by norm_num) grid).ne'
  have htwo := zpow_mul_pow_toNat (by norm_num : (2 : ℚ) ≠ 0) e
  have hten := zpow_mul_pow_toNat (by norm_num : (10 : ℚ) ≠ 0) grid
  simp only [factor, of, Nat.one_shiftLeft, Nat.pow_eq]
  push_cast
  rw [← hten, ← htwo]
  field_simp

theorem lower_mul_factor (hm : 0 < m) (e grid : Int) :
    ((m : ℚ) - gap m) * 2 ^ e * factor e grid = ((of m e grid).low : ℚ) := by
  have hquarters : ((4 * m - if m = leastNormal then 1 else 2 : Nat) : ℚ) / 4 = m - gap m := by
    unfold gap
    split
    · rw [Nat.cast_sub (by omega)]
      push_cast
      ring
    · rw [Nat.cast_sub (by omega)]
      push_cast
      ring
  rw [← hquarters, quarters_mul_factor]
  rfl

theorem upper_mul_factor (m : Nat) (e grid : Int) :
    ((m : ℚ) + 1 / 2) * 2 ^ e * factor e grid = ((of m e grid).high : ℚ) := by
  have hquarters : ((4 * m + 2 : Nat) : ℚ) / 4 = m + 1 / 2 := by
    push_cast
    ring
  rw [← hquarters, quarters_mul_factor]
  rfl

/-- A grid point is in the interval if the number that it stands for is. -/
theorem contains_iff (hm : 0 < m) {point : Nat} :
    (of m e grid).contains point = true ↔ Rounds m e (point * 10 ^ grid) := by
  have hk := factor_pos e grid
  have hpoint := point_mul_factor m e grid point
  have hlower := lower_mul_factor hm e grid
  have hupper := upper_mul_factor m e grid
  have hlow : (of m e grid).low ≤ point * (of m e grid).denominator ↔
      ((m : ℚ) - gap m) * 2 ^ e ≤ point * 10 ^ grid := by
    rw [← mul_le_mul_iff_of_pos_right hk, hlower, hpoint, Nat.cast_le]
  have hhigh : point * (of m e grid).denominator ≤ (of m e grid).high ↔
      point * 10 ^ grid ≤ ((m : ℚ) + 1 / 2) * 2 ^ e := by
    rw [← mul_le_mul_iff_of_pos_right hk, hpoint, hupper, Nat.cast_le]
  have hlow' : (of m e grid).low < point * (of m e grid).denominator ↔
      ((m : ℚ) - gap m) * 2 ^ e < point * 10 ^ grid := by
    rw [← mul_lt_mul_iff_of_pos_right hk, hlower, hpoint, Nat.cast_lt]
  have hhigh' : point * (of m e grid).denominator < (of m e grid).high ↔
      point * 10 ^ grid < ((m : ℚ) + 1 / 2) * 2 ^ e := by
    rw [← mul_lt_mul_iff_of_pos_right hk, hpoint, hupper, Nat.cast_lt]
  have hclosed : (of m e grid).closed = true ↔ m % 2 = 0 := decide_eq_true_iff
  rw [contains]
  by_cases heven : m % 2 = 0
  · rw [if_pos (hclosed.2 heven), Bool.and_eq_true, decide_eq_true_iff, decide_eq_true_iff, hlow,
      hhigh]
    exact ⟨fun ⟨h, h'⟩ => ⟨h, h', fun _ => heven⟩, fun h => ⟨h.lower, h.upper⟩⟩
  · rw [if_neg (mt hclosed.1 heven), Bool.and_eq_true, decide_eq_true_iff, decide_eq_true_iff,
      hlow', hhigh']
    refine ⟨fun ⟨h, h'⟩ => ⟨h.le, h'.le, ?_⟩, fun h => ⟨?_, ?_⟩⟩
    · rintro (heq | heq)
      · exact absurd heq h.ne'
      · exact absurd heq h'.ne
    · exact h.lower.lt_of_ne fun heq => heven (h.even (.inl heq.symm))
    · exact h.upper.lt_of_ne fun heq => heven (h.even (.inr heq))

theorem contains_of_nearest? {i : Interval} {tie : Tie} {digits : Nat}
    (h : i.nearest? tie = some digits) : i.contains digits = true := by
  have hnear : digits = i.middle / i.denominator ∧ i.contains (i.middle / i.denominator) = true ∨
      digits = i.middle / i.denominator + 1 ∧
        i.contains (i.middle / i.denominator + 1) = true := by
    unfold nearest? at h
    grind
  rcases hnear with ⟨rfl, hin⟩ | ⟨rfl, hin⟩ <;> exact hin

theorem isSome_nearest? {i : Interval} (tie : Tie)
    (h : i.contains (i.middle / i.denominator) = true) : (i.nearest? tie).isSome = true := by
  unfold nearest?
  grind

/-- On a grid that is finer than a quarter of the last place, the point below the number is in the
interval. -/
theorem contains_below (hm : 0 < m) (hgrid : (10 : ℚ) ^ grid ≤ 2 ^ e / 4) :
    (of m e grid).contains ((of m e grid).middle / (of m e grid).denominator) = true := by
  have hpos := denominator_pos m e grid
  have hdiv := Nat.div_add_mod (of m e grid).middle (of m e grid).denominator
  have hmod := Nat.mod_lt (of m e grid).middle hpos
  have hscale : (of m e grid).denominator ≤ (1 <<< e.toNat) * Nat.pow 10 (-grid).toNat := by
    have hpoint := point_mul_factor m e grid 1
    have hquarter := quarters_mul_factor e grid 1
    rw [Nat.one_mul] at hpoint hquarter
    rw [← Nat.cast_le (α := ℚ), ← hpoint, ← hquarter]
    refine mul_le_mul_of_nonneg_right ?_ (factor_pos e grid).le
    push_cast
    linarith
  have hlow : (of m e grid).low + (1 <<< e.toNat) * Nat.pow 10 (-grid).toNat ≤
      (of m e grid).middle := by
    rw [of, ← Nat.succ_mul]
    refine Nat.mul_le_mul_right _ ?_
    split <;> omega
  have hhigh : (of m e grid).middle < (of m e grid).high :=
    Nat.mul_lt_mul_of_pos_right (by omega) (hpos.trans_le hscale)
  rw [Nat.mul_comm] at hdiv
  rw [contains]
  split <;> rw [Bool.and_eq_true, decide_eq_true_iff, decide_eq_true_iff] <;> omega

end Interval

/-- A power of ten is bounded by a power of two through `10 ^ 3 < 2 ^ 10` and `2 ^ 33 < 10 ^ 10`. -/
theorem ten_zpow_le {grid n : Int} (hpos : 0 ≤ grid → 10 * grid ≤ 3 * n)
    (hneg : grid < 0 → 33 * grid ≤ 10 * n) : (10 : ℚ) ^ grid ≤ 2 ^ n := by
  rcases le_or_gt 0 grid with h | h
  · refine (pow_le_pow_iff_left₀ (by positivity) (by positivity) three_ne_zero).1 ?_
    calc ((10 : ℚ) ^ grid) ^ 3 = (10 ^ 3) ^ grid := by
          rw [← zpow_natCast, ← zpow_natCast, zpow_comm]
      _ ≤ (2 ^ 10) ^ grid := zpow_le_zpow_left₀ h (by norm_num) (by norm_num)
      _ = 2 ^ (10 * grid) := by rw [zpow_mul]; norm_num
      _ ≤ 2 ^ (3 * n) := zpow_le_zpow_right₀ one_le_two (hpos h)
      _ = (2 ^ n) ^ 3 := by rw [mul_comm, zpow_mul]; norm_cast
  · refine (pow_le_pow_iff_left₀ (by positivity) (by positivity) (by decide : 10 ≠ 0)).1 ?_
    calc ((10 : ℚ) ^ grid) ^ 10 = ((10 ^ 10) ^ (-grid))⁻¹ := by
          rw [zpow_neg, inv_inv, ← zpow_natCast, ← zpow_natCast, zpow_comm]
      _ ≤ ((2 ^ 33) ^ (-grid))⁻¹ :=
        inv_anti₀ (by positivity) (zpow_le_zpow_left₀ (by omega) (by norm_num) (by norm_num))
      _ = 2 ^ (33 * grid) := by rw [zpow_neg, inv_inv, zpow_mul]; norm_num
      _ ≤ 2 ^ (10 * n) := zpow_le_zpow_right₀ one_le_two (hneg h)
      _ = (2 ^ n) ^ 10 := by rw [mul_comm, zpow_mul]; norm_cast

variable {m : Nat} {e : Int}

/-- The search ends in the interval if one of the grids that it comes to has a point there. -/
theorem rounds_search (hm : 0 < m) (tie : Tie) {steps : Nat} {grid : Int}
    (h : ∃ k : Nat, k < steps ∧ ((Interval.of m e (grid - k)).nearest? tie).isSome = true) :
    Rounds m e (search tie m e steps grid).value := by
  induction steps generalizing grid with
  | zero =>
    obtain ⟨k, hk, -⟩ := h
    exact absurd hk (Nat.not_lt_zero k)
  | succ steps ih =>
    rw [search]
    cases hnear : (Interval.of m e grid).nearest? tie with
    | some digits => exact (Interval.contains_iff hm).1 (Interval.contains_of_nearest? hnear)
    | none =>
      refine ih ?_
      obtain ⟨k, hk, hsome⟩ := h
      cases k with
      | zero =>
        rw [Nat.cast_zero, Int.sub_zero, hnear] at hsome
        cases hsome
      | succ k =>
        refine ⟨k, Nat.lt_of_succ_lt_succ hk, ?_⟩
        rwa [show grid - 1 - (k : Int) = grid - (k + 1 : Nat) by omega]

theorem rounds_shortest (tie : Tie) (h : Canonical m e) : Rounds m e (shortest tie m e).value := by
  -- the last grid has a point; its exponent is estimated, and the bounds on `e` limit the error
  refine rounds_search h.pos tie ⟨23, by decide, Interval.isSome_nearest? tie ?_⟩
  refine Interval.contains_below h.pos ?_
  have hlog : m.log2 < 53 := (Nat.log2_lt h.pos.ne').2 h.lt
  have hleast := h.least
  have hgreatest := h.greatest
  rw [leastExponent] at hleast
  calc (10 : ℚ) ^ ((m.log2 + e + 2) * 30103 / 100000 + 1 - (23 : Nat) : Int) ≤ 2 ^ (e - 2) :=
        ten_zpow_le (fun _ => by omega) (fun _ => by omega)
    _ = 2 ^ e / 4 := by
        rw [zpow_sub₀ two_ne_zero]
        norm_num

end Decimal

end Ket
