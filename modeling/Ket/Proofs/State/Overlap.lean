import Mathlib.Algebra.Order.Ring.Defs
import Ket.Proofs.Scalar.Exact
import Ket.Proofs.State.History
import Ket.Proofs.State.Inner

/-! The measures of a state agree. Over exact scalars the inner product is conjugate symmetric and
linear in the second state, and of a state with itself it is the sum of the probabilities, which is
what the norm is the square root of. -/

namespace Ket

namespace Register

variable {F : Type} [CommRing F]

theorem conj_overlap (indices : List Nat) (a b : Array (Amplitude F)) :
    (overlap indices a b).conj = overlap indices b a := by
  have hterm (z w : Amplitude F) : star (z.conj * w) = w.conj * z := by
    rw [star_mul, ← Amplitude.star_def, star_star, Amplitude.star_def]
  rw [overlap, overlap, ← Amplitude.star_def]
  induction indices with
  | nil => exact star_zero _
  | cons i indices ih =>
    rw [List.map_cons, List.sum_cons, star_add, ih, hterm, List.map_cons, List.sum_cons]

/-- The second array is put together from two others, entry by entry. -/
theorem overlap_mul_add {indices : List Nat} {b c d : Array (Amplitude F)} {z : Amplitude F}
    (h : ∀ i ∈ indices, d.getD i 0 = z * b.getD i 0 + c.getD i 0) (a : Array (Amplitude F)) :
    overlap indices a d = z * overlap indices a b + overlap indices a c := by
  rw [overlap, overlap, overlap]
  induction indices with
  | nil => simp
  | cons i indices ih =>
    obtain ⟨hi, h⟩ := List.forall_mem_cons.1 h
    simp only [List.map_cons, List.sum_cons]
    rw [ih h, hi]
    ring

end Register

theorem getD_zipWith {α : Type} [Zero α] (f : α → α → α) {n : Nat} {b c : Array α} (hb : b.size = n)
    (hc : c.size = n) {i : Nat} (hi : i < n) :
    (Array.zipWith f b c).getD i 0 = f (b.getD i 0) (c.getD i 0) := by
  simp [hb, hc, hi]

theorem Amplitude.normSq_nonneg {F : Type} [CommRing F] [LinearOrder F] [IsStrictOrderedRing F]
    (z : Amplitude F) : 0 ≤ z.normSq := add_nonneg (mul_self_nonneg z.re) (mul_self_nonneg z.im)

namespace State

theorem inner_eq_error_iff {F : Type} [Zero F] [Add F] [Sub F] [Mul F] [Neg F]
    {a b : State (Amplitude F)} {e : RegisterError} :
    inner a b = .error e ↔ a.width ≠ b.width ∧ e = .widthMismatch a.width b.width := by
  rw [inner]
  split
  · simp [*]
  · simp [*, eq_comm]

theorem normSq_eq_sum {F : Type} [CommRing F] (st : State (Amplitude F)) :
    st.normSq = st.probabilities.toList.sum := by
  rw [normSq, ← Array.foldl_toList, List.sum_eq_foldl]

variable {F : Type} [CommRing F] [Scalar F] {a b c : State (Amplitude F)}

/-- No amplitude is left out. -/
theorem inner_eq_of_reachable (ha : a.Reachable) (hb : b.Reachable) (hw : b.width = a.width) :
    inner a b =
      .ok (Register.overlap (List.range (2 ^ a.width)) a.amplitudes b.amplitudes) := by
  have hsize : b.amplitudes.size = 2 ^ a.width := by rw [hb.size, hw]
  rw [← inner_eq_overlap a.width ha.size hsize, inner, inner, if_pos hw.symm, if_pos rfl]

theorem inner_self (ha : a.Reachable) : inner a a = .ok (.ofReal a.normSq) := by
  rw [inner_eq_of_reachable ha ha rfl, Register.overlap_self, ← normSq_eq_weight a.width ha.size]

/-- The state `z * b + c` is there, and the inner product with it is put together likewise. -/
theorem exists_inner_mul_add (ha : a.Reachable) (hb : b.Reachable) (hc : c.Reachable)
    (hwb : b.width = a.width) (hwc : c.width = a.width) (z : Amplitude F) :
    ∃ d, ofAmplitudes (Array.zipWith (fun x y => z * x + y) b.amplitudes c.amplitudes) = .ok d ∧
      d.Reachable ∧ inner a d =
        .ok (z * Register.overlap (List.range (2 ^ a.width)) a.amplitudes b.amplitudes +
          Register.overlap (List.range (2 ^ a.width)) a.amplitudes c.amplitudes) := by
  have hsizeb : b.amplitudes.size = 2 ^ a.width := by rw [hb.size, hwb]
  have hsizec : c.amplitudes.size = 2 ^ a.width := by rw [hc.size, hwc]
  have hsized : (Array.zipWith (fun x y => z * x + y) b.amplitudes c.amplitudes).size =
      2 ^ a.width := by
    rw [Array.size_zipWith, hsizeb, hsizec, Nat.min_self]
  have hd := reachable_of_size ha.wellFormed.width_pos ha.wellFormed.width_le hsized
  refine ⟨_, ofAmplitudes_eq_ok_iff.2 ⟨a.width, ha.wellFormed.width_pos, hsized, rfl⟩, hd, ?_⟩
  rw [inner_eq_of_reachable ha hd rfl, Register.overlap_mul_add fun i hi =>
    getD_zipWith _ hsizeb hsizec (List.mem_range.1 hi)]

/-- Inner products are refused exactly for states of different widths. Over exact scalars they are
conjugate symmetric and linear in the second state, and of a state with itself they are real, namely
the sum of the probabilities, of which none is negative and of which the norm takes the root. -/
theorem inner_laws {F : Type} [CommRing F] [LinearOrder F] [IsStrictOrderedRing F] [Scalar F] :
    (∀ {G : Type} [Zero G] [Add G] [Sub G] [Mul G] [Neg G] (a b : State (Amplitude G))
      (e : RegisterError), inner a b = .error e ↔
        a.width ≠ b.width ∧ e = .widthMismatch a.width b.width) ∧
    (∀ a b c : State (Amplitude F), a.Reachable → b.Reachable → c.Reachable →
      b.width = a.width → c.width = a.width → ∃ p q,
        inner a b = .ok p ∧ inner b a = .ok p.conj ∧ inner a c = .ok q ∧
        ∀ z, ∃ d, ofAmplitudes (Array.zipWith (fun x y => z * x + y) b.amplitudes c.amplitudes) =
          .ok d ∧ d.Reachable ∧ inner a d = .ok (z * p + q)) ∧
    ∀ a : State (Amplitude F), a.Reachable → ∃ r,
      inner a a = .ok r ∧ r.im = 0 ∧ r.re = a.probabilities.toList.sum ∧
      r.re = a.normSq ∧ a.norm = Scalar.sqrt a.normSq ∧ ∀ p ∈ a.probabilities, 0 ≤ p := by
  refine ⟨fun a b e => inner_eq_error_iff, fun a b c ha hb hc hwb hwc => ?_, fun a ha => ?_⟩
  · refine ⟨_, _, inner_eq_of_reachable ha hb hwb, ?_, inner_eq_of_reachable ha hc hwc,
      exists_inner_mul_add ha hb hc hwb hwc⟩
    rw [inner_eq_of_reachable hb ha hwb.symm, Register.conj_overlap, hwb]
  · refine ⟨_, inner_self ha, rfl, a.normSq_eq_sum, rfl, rfl, fun p hp => ?_⟩
    obtain ⟨z, -, rfl⟩ := Array.mem_map.1 hp
    exact z.normSq_nonneg

/-- On the real numbers, with amplitudes off the real axis and states that are not normalised. -/
theorem inner_laws_on_reals :
    inner (⟨1, #[1, .i]⟩ : State (Amplitude ℝ)) ⟨2, #[1, 0, 0, .i]⟩ = .error (.widthMismatch 1 2) ∧
    (∃ p q d, inner (⟨1, #[1, .i]⟩ : State (Amplitude ℝ)) ⟨1, #[.i, 1]⟩ = .ok p ∧
      inner (⟨1, #[.i, 1]⟩ : State (Amplitude ℝ)) ⟨1, #[1, .i]⟩ = .ok p.conj ∧
      inner (⟨1, #[1, .i]⟩ : State (Amplitude ℝ)) ⟨1, #[1, 1]⟩ = .ok q ∧
      ofAmplitudes #[.i * .i + 1, .i * 1 + 1] = .ok d ∧
      inner ⟨1, #[1, .i]⟩ d = .ok (.i * p + q)) ∧
    ∃ r, inner (⟨1, #[1, .i]⟩ : State (Amplitude ℝ)) ⟨1, #[1, .i]⟩ = .ok r ∧ r.im = 0 ∧
      r.re = (⟨1, #[1, .i]⟩ : State (Amplitude ℝ)).probabilities.toList.sum := by
  obtain ⟨herror, hinner, hself⟩ := inner_laws (F := ℝ)
  have hreach (x y : Amplitude ℝ) : (⟨1, #[x, y]⟩ : State (Amplitude ℝ)).Reachable :=
    reachable_of_size (by decide) (by decide) rfl
  refine ⟨(herror _ _ _).2 ⟨by decide, rfl⟩, ?_, ?_⟩
  · obtain ⟨p, q, hp, hp', hq, hcombined⟩ :=
      hinner _ _ _ (hreach 1 .i) (hreach .i 1) (hreach 1 1) rfl rfl
    obtain ⟨d, hd, -, hsum⟩ := hcombined .i
    exact ⟨p, q, d, hp, hp', hq, by simpa using hd, hsum⟩
  · obtain ⟨r, hr, him, hre, -⟩ := hself _ (hreach 1 .i)
    exact ⟨r, hr, him, hre⟩

end State

end Ket
