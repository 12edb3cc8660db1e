import Ket.Proofs.Decimal.Plain
import Ket.Proofs.State.History

/-! The listing of a state. It has one line for each basis index, in increasing order, and the label
of a line is the index in binary. The digits of a label are the values of the qubits from left to
right, so the digit of a qubit is the bit that operators on this qubit address. -/

namespace Ket

theorem Support.positions_of_ofQubits {width : Nat} {qubits : List Nat} {s : Support}
    (h : ofQubits width qubits = .ok s) (hwidth : width ≤ UInt32.size) :
    s.positions = qubits.map fun q => (Qubit.ofNat q).bitPosition width := by
  obtain ⟨-, -, hr, rfl⟩ := ofQubits_eq_ok_iff.1 h
  refine List.map_congr_left fun q hq => ?_
  rw [Qubit.bitPosition, Qubit.index_ofNat (Nat.lt_of_lt_of_le (hr q hq) hwidth)]

namespace State

section Labels

/-- The last digit is told by the rest of the division by two. -/
theorem label_succ {width : Nat} (hpos : 1 ≤ width) (i : Nat) :
    label (width + 1) i = label width (i / 2) ++ [(i % 2).digitChar] := by
  rw [label, Nat.toDigits_eq_if (by decide)]
  split
  · rename_i hi
    have hpad : label width 0 = List.replicate width '0' := by
      obtain ⟨n, rfl⟩ := Nat.exists_eq_add_of_le' hpos
      rw [label, Nat.toDigits_zero, List.replicate_succ']
      rfl
    rw [Nat.div_eq_of_lt hi, hpad, Nat.mod_eq_of_lt hi]
    rfl
  · rw [label, List.leftpad, List.leftpad, List.length_append, List.length_singleton,
      Nat.add_sub_add_right, List.append_assoc]

/-- From left to right the digits are the bits from the most significant one on. -/
theorem label_eq_map {width : Nat} (hpos : 1 ≤ width) {i : Nat} (hi : i < 2 ^ width) :
    label width i =
      (List.range width).map fun q => if i.testBit (width - 1 - q) then '1' else '0' := by
  induction width, hpos using Nat.le_induction generalizing i with
  | base =>
    obtain rfl | rfl : i = 0 ∨ i = 1 := by omega
    · rfl
    · rfl
  | succ width hpos ih =>
    rw [label_succ hpos, ih (i := i / 2) (by omega), List.range_succ, List.map_append,
      List.map_singleton, Nat.add_sub_cancel, Nat.sub_self]
    refine congrArg₂ (· ++ ·) (List.map_congr_left fun q hq => ?_) (congrArg (fun c => [c]) ?_)
    · have hplace : width - q = width - 1 - q + 1 := by
        have := List.mem_range.1 hq
        omega
      rw [hplace, Nat.testBit_succ]
    · rw [Nat.testBit_zero]
      rcases Nat.mod_two_eq_zero_or_one i with h | h <;> simp [h]

theorem length_label {width : Nat} (hpos : 1 ≤ width) {i : Nat} (hi : i < 2 ^ width) :
    (label width i).length = width := by
  rw [label_eq_map hpos hi, List.length_map, List.length_range]

theorem getElem?_label {width : Nat} (hpos : 1 ≤ width) {i : Nat} (hi : i < 2 ^ width) {q : Nat}
    (hq : q < width) :
    (label width i)[q]? = some (if i.testBit (width - 1 - q) then '1' else '0') := by
  rw [label_eq_map hpos hi, List.getElem?_map, List.getElem?_range hq, Option.map_some]

/-- The zeros in front do not count. -/
theorem ofDigitChars_label (width i : Nat) : Nat.ofDigitChars 2 (label width i) 0 = i := by
  rw [label, List.leftpad, Nat.ofDigitChars_append, Nat.ofDigitChars_replicate_zero, Nat.mul_zero,
    Nat.ofDigitChars_toDigits (by decide) (by decide)]

theorem isDigit_of_mem_label {width i : Nat} {c : Char} (hc : c ∈ label width i) :
    c.isDigit = true := by
  rcases List.mem_append.1 hc with hc | hc
  · exact Decimal.isDigit_of_mem_replicate hc
  · exact Nat.isDigit_of_mem_toDigits (by decide) (by decide) hc

end Labels

section Lines

/-- A line of the listing, without its end. -/
def line {α : Type} [HasText α] (width i : Nat) (z : α) : List Char :=
  '|' :: label width i ++ ['⟩', ':', ' '] ++ (text z).toList

theorem toList_text_amplitude (z : Amplitude Float) :
    (text z).toList = if z.im < 0 then (text z.re).toList ++ '-' :: (text (-z.im)).toList ++ ['i']
      else (text z.re).toList ++ '+' :: (text z.im).toList ++ ['i'] := by
  have h : text z = if z.im < 0 then text z.re ++ "-" ++ text (-z.im) ++ "i"
      else text z.re ++ "+" ++ text z.im ++ "i" := rfl
  rw [h]
  split <;> simp

theorem newline_notMem_text_float (x : Float) : '\n' ∉ (text x).toList := by
  rw [toList_text_float]
  intro hmem
  rcases Decimal.mem_plain hmem with h | h
  · cases h
  · revert h
    decide

theorem newline_notMem_line (width i : Nat) (z : Amplitude Float) : '\n' ∉ line width i z := by
  have hlabel : '\n' ∉ label width i := fun h => absurd (isDigit_of_mem_label h) (by decide)
  have htext : '\n' ∉ (text z).toList := by
    rw [toList_text_amplitude]
    split <;> simp [newline_notMem_text_float]
  simp [line, hlabel, htext]

theorem toList_text {α : Type} [HasText α] (st : State α) :
    (text st).toList =
      (st.amplitudes.toList.zipIdx.map fun p => line st.width p.2 p.1).flatMap (· ++ ['\n']) := by
  have h : text st = String.join (st.amplitudes.toList.zipIdx.map fun p =>
    "|" ++ String.ofList (label st.width p.2) ++ "⟩: " ++ text p.1 ++ "\n") := rfl
  rw [h, String.toList_join, List.flatMap_map, List.flatMap_map]
  refine congrArg (List.flatMap · _) (funext fun p => ?_)
  simp [line]

end Lines

/-- A state is listed in as many lines as it has amplitudes. The label of a line has one digit for
each qubit, which is the bit of the index at the position of this qubit, so the label says the index
in binary and no two labels are equal. Operators address a qubit at the same position. -/
theorem text_lines {st : State (Amplitude Float)} (h : st.Reachable) :
    (∃ lines : List (List Char), (text st).toList = lines.flatMap (· ++ ['\n']) ∧
      lines.length = 2 ^ st.width ∧ (∀ l ∈ lines, '\n' ∉ l) ∧
      ∀ i < 2 ^ st.width, ∃ z, st.amplitudes[i]? = some z ∧
        lines[i]? = some ('|' :: label st.width i ++ ['⟩', ':', ' '] ++ (text z).toList)) ∧
    (∀ i < 2 ^ st.width, (label st.width i).length = st.width ∧
      (∀ q < st.width, (label st.width i)[q]? =
        some (if i.testBit ((Qubit.ofNat q).bitPosition st.width) then '1' else '0')) ∧
      Nat.ofDigitChars 2 (label st.width i) 0 = i) ∧
    (∀ i j, label st.width i = label st.width j → i = j) ∧
    (∀ q < st.width, ∃ s, Support.ofQubits st.width [q] = .ok s) ∧
    ∀ qubits s, Support.ofQubits st.width qubits = .ok s →
      s.positions = qubits.map fun q => (Qubit.ofNat q).bitPosition st.width := by
  have hpos := h.wellFormed.width_pos
  have hwidth : st.width ≤ UInt32.size := Nat.le_trans h.wellFormed.width_le (by decide)
  refine ⟨⟨_, toList_text st, ?_, ?_, fun i hi => ?_⟩, fun i hi => ⟨length_label hpos hi, ?_,
    ofDigitChars_label _ i⟩, fun i j hij => ?_, fun q hq => ?_, fun qubits s hs =>
    Support.positions_of_ofQubits hs hwidth⟩
  · rw [List.length_map, List.length_zipIdx, Array.length_toList, h.size]
  · rintro l hl
    obtain ⟨p, -, rfl⟩ := List.mem_map.1 hl
    exact newline_notMem_line _ _ _
  · have hi' : i < st.amplitudes.size := h.size ▸ hi
    refine ⟨st.amplitudes[i], Array.getElem?_eq_getElem hi', ?_⟩
    rw [List.getElem?_map, List.getElem?_zipIdx, Array.getElem?_toList,
      Array.getElem?_eq_getElem hi', Nat.zero_add]
    rfl
  · intro q hq
    rw [getElem?_label hpos hi hq, Qubit.bitPosition,
      Qubit.index_ofNat (Nat.lt_of_lt_of_le hq hwidth)]
  · rw [← ofDigitChars_label st.width i, hij, ofDigitChars_label]
  · exact ⟨_, Support.ofQubits_eq_ok Nat.le.refl (Nat.le_add_left 1 2)
      (List.nodup_singleton q) (List.forall_mem_singleton.2 hq)⟩

/-- Only the second of two qubits is 1, which is the last digit of the label and the lowest bit of
the index. -/
theorem text_lines_on_two :
    let st : State (Amplitude Float) := ⟨2, #[0, ⟨0.5, -2⟩, 0, 0]⟩
    st.Reachable ∧
      (∃ lines : List (List Char), (text st).toList = lines.flatMap (· ++ ['\n']) ∧
        lines.length = 4 ∧ lines[1]? = some "|01⟩: 0.5-2i".toList) ∧
      Nat.ofDigitChars 2 (label 2 1) 0 = 1 ∧ Support.ofQubits 2 [1] = .ok ⟨[0]⟩ := by
  intro st
  have hst : st.Reachable := reachable_of_size (by decide) (by decide) rfl
  obtain ⟨⟨lines, htext, hlength, -, hlines⟩, hlabel, -, hone, hpositions⟩ := text_lines hst
  obtain ⟨z, hz, hline⟩ := hlines 1 (by decide)
  obtain rfl := Option.some.inj hz
  obtain ⟨s, hs⟩ := hone 1 (by decide)
  have hposition : s = ⟨[0]⟩ := congrArg Support.mk (hpositions [1] s hs)
  exact ⟨hst, ⟨lines, htext, hlength, hline.trans (by decide +kernel)⟩,
    (hlabel 1 (by decide)).2.2, hs.trans (congrArg _ hposition)⟩

end State

end Ket
