import Mathlib.Algebra.BigOperators.Group.List.Basic
import Ket.State
import Ket.Proofs.Amplitude.Ring

/-! Inner products and norms over exact scalars, as sums over basis indices. The folds over the
arrays are the sum over all indices of the register. A sum over some of the indices is the share
that these indices have in it. -/

namespace Ket

variable {F : Type} [CommRing F]

/-- The share of the given indices in the inner product. -/
def Register.overlap (indices : List Nat) (a b : Array (Amplitude F)) : Amplitude F :=
  (indices.map fun i => (a.getD i 0).conj * b.getD i 0).sum

/-- The share of the given indices in the squared norm. -/
def Register.weight (indices : List Nat) (a : Array (Amplitude F)) : F :=
  (indices.map fun i => (a.getD i 0).normSq).sum

theorem Register.overlap_self (indices : List Nat) (a : Array (Amplitude F)) :
    overlap indices a a = .ofReal (weight indices a) := by
  rw [overlap, weight]
  simp only [Amplitude.conj_mul_self]
  induction indices with
  | nil => rfl
  | cons i indices ih =>
    rw [List.map_cons, List.sum_cons, ih, Amplitude.ofReal_add, List.map_cons, List.sum_cons]

/-- Where inner products are equal, so are squared norms. -/
theorem Register.weight_eq_of_overlap_eq {indices : List Nat} {a b : Array (Amplitude F)}
    (h : overlap indices a a = overlap indices b b) : weight indices a = weight indices b := by
  rw [overlap_self, overlap_self] at h
  exact congrArg Amplitude.re h

theorem Register.overlap_perm {indices indices' : List Nat} (h : indices.Perm indices')
    (a b : Array (Amplitude F)) : overlap indices a b = overlap indices' a b :=
  (h.map _).sum_eq

/-- The share of disjoint classes is the sum of their shares. -/
theorem Register.overlap_flatMap (classes : List Nat) (f : Nat → List Nat)
    (a b : Array (Amplitude F)) :
    overlap (classes.flatMap f) a b = (classes.map fun rep => overlap (f rep) a b).sum := by
  induction classes with
  | nil => rfl
  | cons rep classes ih =>
    rw [overlap] at ih ⊢
    rw [List.flatMap_cons, List.map_append, List.sum_append, ih, List.map_cons, List.sum_cons]
    rfl

theorem toList_eq_map_getD {α : Type} [Zero α] (a : Array α) :
    a.toList = (List.range a.size).map fun i => a.getD i 0 := by
  refine List.ext_getElem (by simp) fun i hi _ => ?_
  have hi' : i < a.size := by simpa using hi
  simp [hi']

namespace State

variable {n : Nat}

theorem inner_eq_overlap (width : Nat) {a b : Array (Amplitude F)} (ha : a.size = n)
    (hb : b.size = n) :
    inner ⟨width, a⟩ ⟨width, b⟩ = .ok (Register.overlap (List.range n) a b) := by
  rw [inner, if_pos rfl, ← Array.foldl_toList, Array.toList_zip, toList_eq_map_getD a,
    toList_eq_map_getD b, ha, hb, List.zip_map', List.foldl_map, Register.overlap,
    List.sum_eq_foldl, List.foldl_map]

theorem normSq_eq_weight (width : Nat) {a : Array (Amplitude F)} (ha : a.size = n) :
    normSq ⟨width, a⟩ = Register.weight (List.range n) a := by
  rw [normSq, probabilities, ← Array.foldl_toList, Array.toList_map, toList_eq_map_getD a, ha,
    List.map_map, Register.weight, List.sum_eq_foldl]
  rfl

end State

end Ket
