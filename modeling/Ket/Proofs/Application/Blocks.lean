import Ket.Proofs.Application.Entry
import Ket.Proofs.Support.Extent

/-! Application block by block. A block is long enough to hold the members of every class that it
meets, so an entry of a block is the entry of the whole array at the same place. -/

namespace Ket

variable {α : Type}

/-- A whole number of pieces, none of them shorter than the others. -/
theorem pieces_eq {length n : Nat} (hl : 0 < length) {a : Array α} (ha : a.size = length * n) :
    pieces length a =
      (List.range n).map fun k => a.extract (length * k) (length * k + length) := by
  have hn : (a.size + length - 1) / length = n := by
    rw [ha, Nat.add_sub_assoc hl, Nat.mul_add_div hl, Nat.div_eq_of_lt (by omega), Nat.add_zero]
  rw [pieces, hn]
  exact List.map_congr_left fun k _ => by rw [Nat.mul_comm]

theorem getElem?_piece {length n k : Nat} {a : Array α} (ha : a.size = length * n) (hk : k < n)
    {j : Nat} (hj : j < length) :
    (a.extract (length * k) (length * k + length))[j]? = a[length * k + j]? := by
  have hle : length * (k + 1) ≤ length * n := Nat.mul_le_mul_left _ hk
  rw [Nat.mul_succ] at hle
  rw [Array.getElem?_extract, if_pos (by omega)]

theorem size_piece {length n k : Nat} {a : Array α} (ha : a.size = length * n) (hk : k < n) :
    (a.extract (length * k) (length * k + length)).size = length := by
  have hle : length * (k + 1) ≤ length * n := Nat.mul_le_mul_left _ hk
  rw [Nat.mul_succ] at hle
  rw [Array.size_extract]
  omega

/-- Pieces of one length that hold the values of a function at their places, put together. -/
theorem foldl_append_eq_ofFn {length : Nat} {piece : Nat → Array α} {f : Nat → α} {n : Nat}
    (hsize : ∀ k < n, (piece k).size = length)
    (hget : ∀ k < n, ∀ j < length, (piece k)[j]? = some (f (length * k + j))) :
    ((List.range n).map piece).foldl (· ++ ·) #[] =
      Array.ofFn fun i : Fin (length * n) => f i := by
  induction n with
  | zero => simp
  | succ n ih =>
    rw [List.range_succ, List.map_append, List.foldl_append, List.map_singleton, List.foldl_cons,
      List.foldl_nil, ih (fun k hk => hsize k (by omega)) fun k hk => hget k (by omega)]
    refine Array.ext_getElem? fun i => ?_
    rw [Array.getElem?_append, Array.size_ofFn, Array.getElem?_ofFn, Array.getElem?_ofFn,
      Nat.mul_succ]
    by_cases hi : i < length * n
    · simp [hi, show i < length * n + length by omega]
    · by_cases hj : i - length * n < length
      · have hlast := hget n (Nat.lt_succ_self n) (i - length * n) hj
        rw [Nat.add_sub_cancel' (Nat.le_of_not_lt hi)] at hlast
        simp [hi, hlast, show i < length * n + length by omega]
      · have hnone := hsize n (Nat.lt_succ_self n)
        simp [hi, hnone, show ¬ i < length * n + length by omega]
        omega

namespace Operator

variable [Zero α] [Add α] [Mul α] {op : Operator α} {s : Support}

theorem entry_piece {m n k : Nat} (hm : ∀ p ∈ s.positions, p < m) {a : Array α}
    (ha : a.size = 2 ^ m * n) (hk : k < n) {j : Nat} (hj : j < 2 ^ m) :
    op.entry s (a.extract (2 ^ m * k) (2 ^ m * k + 2 ^ m)) j = op.entry s a (2 ^ m * k + j) := by
  refine Grid.total_congr fun c _ => ?_
  have hlt : s.clear j ||| Support.deposit s.positions c < 2 ^ m :=
    Nat.or_lt_two_pow (Nat.lt_of_le_of_lt (s.clear_le j) hj) (Support.deposit_lt hm c)
  rw [Support.localIndex_block hm k hj, Support.member_block hm k c hj,
    Array.getD_eq_getD_getElem?, Array.getD_eq_getD_getElem?, getElem?_piece ha hk hlt]

theorem applyToBlocks_eq (h : op.Fits s) {m : Nat} (hm : ∀ p ∈ s.positions, p < m) {a : Array α}
    (ha : 2 ^ m ∣ a.size) : op.applyToBlocks s (2 ^ m) a = op.applySequentially s a := by
  obtain ⟨n, hn⟩ := ha
  let block (k : Nat) := a.extract (2 ^ m * k) (2 ^ m * k + 2 ^ m)
  have hblock {k : Nat} (hk : k < n) (j : Nat) :
      (op.applySequentially s (block k))[j]? = (block k)[j]?.map fun _ => op.entry s (block k) j :=
    getElem?_applySequentially h hm ⟨1, by rw [size_piece hn hk, Nat.mul_one]⟩ j
  have hsize (k : Nat) (hk : k < n) : (op.applySequentially s (block k)).size = 2 ^ m :=
    (size_applySequentially op s (block k)).trans (size_piece hn hk)
  have hget (k : Nat) (hk : k < n) (j : Nat) (hj : j < 2 ^ m) :
      (op.applySequentially s (block k))[j]? = some (op.entry s a (2 ^ m * k + j)) := by
    have hlt : j < (block k).size := (size_piece hn hk).symm ▸ hj
    rw [hblock hk, entry_piece hm hn hk hj, Array.getElem?_eq_getElem hlt, Option.map_some]
  rw [applyToBlocks, pieces_eq (Nat.two_pow_pos m) hn, List.map_map]
  refine (foldl_append_eq_ofFn hsize hget).trans (Array.ext_getElem? fun i => ?_)
  rw [getElem?_applySequentially h hm ⟨n, hn⟩]
  by_cases hi : i < 2 ^ m * n <;> simp [hi, hn]

end Operator

end Ket
