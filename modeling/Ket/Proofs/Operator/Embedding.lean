import Mathlib.Algebra.BigOperators.Fin
import Mathlib.Tactic.Ring
import Ket.Proofs.Application.Entry

/-! Operators on the whole register. A row of the register's matrix has an entry at each index that
agrees with the row's index on the qubits that are not addressed, so an amplitude of the result is
a sum over the settings of the addressed qubits. Sequential application computes these sums. -/

namespace Ket

theorem Grid.total_eq_sum {M : Type} [AddCommMonoid M] (f : Nat → M) (n : Nat) :
    total f n = ∑ c ∈ Finset.range n, f c := by
  induction n with
  | zero => rfl
  | succ n ih => rw [total, ih, Finset.sum_range_succ]

namespace Register

/-- The value of qubit `q` in a basis index. -/
def value (width i q : Nat) : Bool := i.testBit (width - 1 - q)

/-- The values of the given qubits, read as a number with the first qubit in front. -/
def row (width : Nat) (qubits : List Nat) (i : Nat) : Nat :=
  ∑ j : Fin qubits.length, (value width i qubits[j]).toNat * 2 ^ (qubits.length - 1 - j)

/-- The index that gives the given qubits the bits of `c`, the first qubit taking the most
significant bit, and all other qubits their values in `i`. -/
def neighbour (width : Nat) (qubits : List Nat) (i c : Nat) : Nat :=
  Nat.ofBits fun p : Fin width =>
    let place := qubits.idxOf (width - 1 - p)
    if place < qubits.length then c.testBit (qubits.length - 1 - place) else i.testBit p

theorem neighbour_lt (width : Nat) (qubits : List Nat) (i c : Nat) :
    neighbour width qubits i c < 2 ^ width := Nat.ofBits_lt_two_pow _

theorem value_neighbour {width q : Nat} (hq : q < width) (qubits : List Nat) (i c : Nat) :
    value width (neighbour width qubits i c) q =
      if qubits.idxOf q < qubits.length then c.testBit (qubits.length - 1 - qubits.idxOf q)
      else value width i q := by
  have hp : width - 1 - q < width := by omega
  rw [value, neighbour, Nat.testBit_ofBits_lt _ _ hp]
  simp only [show width - 1 - (width - 1 - q) = q by omega, value]

theorem value_neighbour_of_notMem {width q : Nat} (hq : q < width) {qubits : List Nat}
    (hm : q ∉ qubits) (i c : Nat) :
    value width (neighbour width qubits i c) q = value width i q := by
  rw [value_neighbour hq, if_neg (by simpa [List.idxOf_lt_length_iff] using hm)]

theorem value_neighbour_getElem {width : Nat} {qubits : List Nat} (hd : qubits.Nodup)
    (hr : ∀ q ∈ qubits, q < width) (i c : Nat) {t : Nat} (ht : t < qubits.length) :
    value width (neighbour width qubits i c) qubits[t] = c.testBit (qubits.length - 1 - t) := by
  rw [value_neighbour (hr _ (List.getElem_mem ht)), hd.idxOf_getElem t ht, if_pos ht]

example : neighbour 3 [2, 0] 0b011 0b01 = 0b110 := by decide

/-- An index of the register is known by the values of its qubits. -/
theorem eq_of_value {width i j : Nat} (hi : i < 2 ^ width) (hj : j < 2 ^ width)
    (h : ∀ q < width, value width i q = value width j q) : i = j := by
  refine Nat.eq_of_testBit_eq fun p => ?_
  by_cases hp : p < width
  · have hq := h (width - 1 - p) (by omega)
    rwa [value, value, show width - 1 - (width - 1 - p) = p by omega] at hq
  · have hle : 2 ^ width ≤ 2 ^ p := Nat.pow_le_pow_right (by decide) (by omega)
    rw [Nat.testBit_lt_two_pow (by omega), Nat.testBit_lt_two_pow (by omega)]

theorem row_cons (width : Nat) (q : Nat) (qubits : List Nat) (i : Nat) :
    row width (q :: qubits) i =
      (value width i q).toNat * 2 ^ qubits.length + row width qubits i := by
  change ∑ j : Fin (qubits.length + 1), _ = _
  rw [Fin.sum_univ_succ]
  congr 1
  refine Finset.sum_congr rfl fun j _ => ?_
  simp [Nat.sub_sub, Nat.add_comm]

theorem foldl_read_eq_row (width i : Nat) (qubits : List Nat) (b : Nat) :
    (qubits.map (width - 1 - ·)).foldl (fun b p => b <<< 1 ||| (i >>> p) % 2) b =
      b * 2 ^ qubits.length + row width qubits i := by
  induction qubits generalizing b with
  | nil => simp [row]
  | cons q qubits ih =>
    have hbit : (i >>> (width - 1 - q)) % 2 = (value width i q).toNat := by
      rw [value, Nat.toNat_testBit, Nat.shiftRight_eq_div_pow]
    have hor : b <<< 1 ||| (i >>> (width - 1 - q)) % 2 = b * 2 + (value width i q).toNat := by
      rw [hbit, ← Nat.shiftLeft_add_eq_or_of_lt (Bool.toNat_lt _), Nat.shiftLeft_eq, Nat.pow_one]
    rw [List.map_cons, List.foldl_cons, ih, hor, row_cons, List.length_cons, Nat.pow_succ]
    ring

end Register

namespace Support

/-- The positions of the given qubits. -/
def onQubits (width : Nat) (qubits : List Nat) : Support := ⟨qubits.map (width - 1 - ·)⟩

variable {width : Nat} {qubits : List Nat}

theorem ofQubits_eq_ok (hpos : 1 ≤ qubits.length) (hle : qubits.length ≤ maxCount)
    (hd : qubits.Nodup) (hr : ∀ q ∈ qubits, q < width) :
    ofQubits width qubits = .ok (onQubits width qubits) := by
  have hfault : firstFault? (decide <| · < width) [] qubits = none :=
    firstFault?_eq_none_iff.2 ⟨by simpa using hr, hd, by simp⟩
  rw [ofQubits, if_neg (by omega), hfault, onQubits]

theorem ofQubits_eq_ok_iff {s : Support} :
    ofQubits width qubits = .ok s ↔ (1 ≤ qubits.length ∧ qubits.length ≤ maxCount) ∧
      qubits.Nodup ∧ (∀ q ∈ qubits, q < width) ∧ s = onQubits width qubits := by
  constructor
  · intro h
    unfold ofQubits at h
    split at h
    · cases h
    rename_i hcount
    split at h
    · cases h
    · cases h
    rename_i hfault
    obtain ⟨hr, hd, -⟩ := firstFault?_eq_none_iff.1 hfault
    cases h
    exact ⟨by omega, hd, by simpa using hr, rfl⟩
  · rintro ⟨⟨hpos, hle⟩, hd, hr, rfl⟩
    exact ofQubits_eq_ok hpos hle hd hr

theorem count_onQubits (width : Nat) (qubits : List Nat) :
    (onQubits width qubits).count = qubits.length := by
  simp [count, onQubits]

theorem mem_onQubits_iff {q : Nat} (hq : q < width) (hr : ∀ q ∈ qubits, q < width) :
    width - 1 - q ∈ (onQubits width qubits).positions ↔ q ∈ qubits := by
  rw [onQubits, List.mem_map]
  refine ⟨?_, ?_⟩
  · rintro ⟨q', hq', h⟩
    have := hr q' hq'
    rwa [show q = q' by omega]
  · exact fun h => ⟨q, h, rfl⟩

theorem lt_of_mem_onQubits (hr : ∀ q ∈ qubits, q < width) :
    ∀ p ∈ (onQubits width qubits).positions, p < width := by
  intro p hp
  obtain ⟨q, hq, rfl⟩ := List.mem_map.1 hp
  have := hr q hq
  omega

theorem nodup_onQubits (hd : qubits.Nodup) (hr : ∀ q ∈ qubits, q < width) :
    (onQubits width qubits).positions.Nodup := by
  refine List.Nodup.map_on (fun q hq q' hq' h => ?_) hd
  have := hr q hq
  have := hr q' hq'
  omega

theorem valid_of_ofQubits {s : Support} (h : ofQubits width qubits = .ok s) : s.Valid width := by
  obtain ⟨⟨hpos, hle⟩, hd, hr, rfl⟩ := ofQubits_eq_ok_iff.1 h
  have hcount := count_onQubits width qubits
  exact ⟨hcount ▸ hpos, hcount ▸ hle, nodup_onQubits hd hr, lt_of_mem_onQubits hr⟩

theorem Valid.positions_ne_nil {s : Support} (h : s.Valid width) : s.positions ≠ [] :=
  List.ne_nil_of_length_pos h.count_pos

theorem localIndex_onQubits (i : Nat) :
    (onQubits width qubits).localIndex i = Register.row width qubits i := by
  rw [localIndex, onQubits, Register.foldl_read_eq_row, Nat.zero_mul, Nat.zero_add]

theorem testBit_deposit_onQubits (hd : qubits.Nodup) (hr : ∀ q ∈ qubits, q < width) (c : Nat)
    {t : Nat} (ht : t < qubits.length) :
    (deposit (onQubits width qubits).positions c).testBit (width - 1 - qubits[t]) =
      c.testBit (qubits.length - 1 - t) := by
  have hlen := count_onQubits width qubits
  have h := testBit_deposit_getElem (nodup_onQubits hd hr) c (t := t) (by rwa [← hlen] at ht)
  simpa [onQubits] using h

/-- The members of a class differ in the addressed qubits only. -/
theorem clear_or_deposit_onQubits (hd : qubits.Nodup) (hr : ∀ q ∈ qubits, q < width)
    {i : Nat} (hi : i < 2 ^ width) (c : Nat) :
    (onQubits width qubits).clear i ||| deposit (onQubits width qubits).positions c =
      Register.neighbour width qubits i c := by
  have hlt := Nat.or_lt_two_pow (Nat.lt_of_le_of_lt (clear_le (onQubits width qubits) i) hi)
    (deposit_lt (lt_of_mem_onQubits hr) c)
  refine Register.eq_of_value hlt (Register.neighbour_lt _ _ _ _) fun q hq => ?_
  have hmem := mem_onQubits_iff hq hr
  rw [Register.value, Nat.testBit_or, testBit_clear]
  by_cases hm : q ∈ qubits
  · obtain ⟨t, ht, rfl⟩ := List.getElem_of_mem hm
    rw [Register.value_neighbour_getElem hd hr i c ht, testBit_deposit_onQubits hd hr c ht]
    simp [hmem.2 hm]
  · rw [Register.value_neighbour_of_notMem hq hm, testBit_deposit_of_notMem (hmem.not.2 hm),
      Register.value]
    simp [hmem.not.2 hm]

end Support

theorem Register.row_lt (width : Nat) (qubits : List Nat) (i : Nat) :
    row width qubits i < 2 ^ qubits.length := by
  have h := Support.localIndex_lt (.onQubits width qubits) i
  rwa [Support.localIndex_onQubits, Support.count_onQubits] at h

namespace Operator

variable {α : Type}

/-- Qubit numbers that the operator can be applied to in a register. -/
structure Addresses (op : Operator α) (width : Nat) (qubits : List Nat) : Prop where
  length : qubits.length = op.arity
  distinct : qubits.Nodup
  inRange : ∀ q ∈ qubits, q < width

section Addresses

variable {op : Operator α} {width : Nat} {qubits : List Nat}

theorem Addresses.ofQubits (hq : op.Addresses width qubits) (hop : op.WellFormed) :
    Support.ofQubits width qubits = .ok (.onQubits width qubits) :=
  Support.ofQubits_eq_ok (hq.length ▸ hop.arity_pos) (hq.length ▸ hop.arity_le) hq.distinct
    hq.inRange

theorem Addresses.valid (hq : op.Addresses width qubits) (hop : op.WellFormed) :
    (Support.onQubits width qubits).Valid width :=
  Support.valid_of_ofQubits (hq.ofQubits hop)

theorem Addresses.fits (hq : op.Addresses width qubits) (hop : op.WellFormed) :
    op.Fits (.onQubits width qubits) :=
  hop.fits (hq.valid hop).distinct (by rw [Support.count_onQubits, hq.length])

end Addresses

variable [Zero α] [Add α] [Mul α]

/-- The operator applied to the given qubits of the whole register. -/
def embed (op : Operator α) (width : Nat) (qubits : List Nat) (a : Array α) : Array α :=
  Array.ofFn fun i : Fin (2 ^ width) =>
    (List.range (2 ^ op.arity)).foldl
      (fun sum c => sum + op.matrix.get (Register.row width qubits i) c *
        a.getD (Register.neighbour width qubits i c) 0) 0

theorem size_embed (op : Operator α) (width : Nat) (qubits : List Nat) (a : Array α) :
    (op.embed width qubits a).size = 2 ^ width := Array.size_ofFn

theorem getElem?_embed (op : Operator α) {width : Nat} (qubits : List Nat) (a : Array α) {i : Nat}
    (hi : i < 2 ^ width) : (op.embed width qubits a)[i]? = some
      (Grid.total (fun c => op.matrix.get (Register.row width qubits i) c *
        a.getD (Register.neighbour width qubits i c) 0) (2 ^ op.arity)) := by
  rw [embed, Array.getElem?_ofFn, dif_pos hi, Grid.total_eq_foldl]

theorem getD_embed (op : Operator α) {width : Nat} (qubits : List Nat) (a : Array α) {i : Nat}
    (hi : i < 2 ^ width) : (op.embed width qubits a).getD i 0 =
      Grid.total (fun c => op.matrix.get (Register.row width qubits i) c *
        a.getD (Register.neighbour width qubits i c) 0) (2 ^ op.arity) := by
  rw [Array.getD_eq_getD_getElem?, getElem?_embed op qubits a hi, Option.getD_some]

theorem entry_eq_foldl {op : Operator α} (hop : op.WellFormed) {width : Nat}
    {qubits : List Nat} (hq : op.Addresses width qubits) (a : Array α) {i : Nat}
    (hi : i < 2 ^ width) :
    op.entry (.onQubits width qubits) a i = (List.range (2 ^ op.arity)).foldl
      (fun sum c => sum + op.matrix.get (Register.row width qubits i) c *
        a.getD (Register.neighbour width qubits i c) 0) 0 := by
  rw [entry, Grid.total_eq_foldl, hop.cols, dim, Nat.one_shiftLeft]
  simp only [Support.localIndex_onQubits,
    Support.clear_or_deposit_onQubits hq.distinct hq.inRange hi]

theorem applySequentially_eq_embed {op : Operator α} (hop : op.WellFormed) {width : Nat}
    {qubits : List Nat} (hq : op.Addresses width qubits) {a : Array α}
    (ha : a.size = 2 ^ width) :
    op.applySequentially (.onQubits width qubits) a = op.embed width qubits a := by
  refine Array.ext_getElem? fun i => ?_
  rw [getElem?_applySequentially (hq.fits hop) (hq.valid hop).inRange (ha ▸ Nat.dvd_refl _)]
  by_cases hi : i < 2 ^ width
  · simp [embed, hi, ha, entry_eq_foldl hop hq a hi]
  · simp [embed, hi, ha]

/-- Sequential application leaves at every index the sum over the settings of the addressed
qubits, taken of the amplitudes as they were before any of them was overwritten. -/
theorem sequential_amplitude {op : Operator α} (hop : op.WellFormed) {width : Nat}
    {qubits : List Nat} (hq : op.Addresses width qubits) {a : Array α}
    (ha : a.size = 2 ^ width) :
    ∃ s, Support.ofQubits width qubits = .ok s ∧
      (op.applySequentially s a).size = 2 ^ width ∧
      ∀ i < 2 ^ width, (op.applySequentially s a)[i]? = some
        ((List.range (2 ^ op.arity)).foldl
          (fun sum c => sum + op.matrix.get (Register.row width qubits i) c *
            a.getD (Register.neighbour width qubits i c) 0) 0) := by
  refine ⟨_, hq.ofQubits hop, (size_applySequentially _ _ _).trans ha, fun i hi => ?_⟩
  rw [applySequentially_eq_embed hop hq ha, embed, Array.getElem?_ofFn, dif_pos hi]

/-- An operator on two qubits that is far from unitary. -/
def counting : Operator Int := ⟨2, ⟨4, 4, Array.ofFn fun k : Fin 16 => (k : Int), rfl⟩⟩

/-- The qubits are not adjacent and stand in descending order. -/
theorem sequential_amplitude_on_three :
    counting.WellFormed ∧ counting.Addresses 3 [2, 0] ∧
      (#[1, 2, 3, 5, 7, 11, 13, 17] : Array Int).size = 2 ^ 3 ∧
      ∃ s, Support.ofQubits 3 [2, 0] = .ok s ∧
        (counting.applySequentially s #[1, 2, 3, 5, 7, 11, 13, 17])[6]? =
          some (4 * 3 + 5 * 13 + 6 * 5 + 7 * 17) := by
  have hop : counting.WellFormed := ⟨by decide, by decide, rfl, rfl⟩
  have hq : counting.Addresses 3 [2, 0] := ⟨rfl, by decide, by decide⟩
  have ha : (#[1, 2, 3, 5, 7, 11, 13, 17] : Array Int).size = 2 ^ 3 := rfl
  obtain ⟨s, hs, -, h⟩ := sequential_amplitude hop hq ha
  refine ⟨hop, hq, ha, s, hs, (h 6 (by decide)).trans ?_⟩
  decide

end Operator

/-- The sum in a semiring, where the order of the terms is of no account. -/
theorem Operator.getD_embed_eq_sum {α : Type} [CommSemiring α] (op : Operator α) {width : Nat}
    (qubits : List Nat) (a : Array α) {i : Nat} (hi : i < 2 ^ width) :
    (op.embed width qubits a).getD i 0 = ∑ c ∈ Finset.range (2 ^ op.arity),
      op.matrix.get (Register.row width qubits i) c *
        a.getD (Register.neighbour width qubits i c) 0 := by
  rw [getD_embed op qubits a hi, Grid.total_eq_sum]

end Ket
