import Ket.Instruction
import Ket.Proofs.Decimal.Reading

/-! Instructions by their written form, which is all that a log tells of them. A name has no bracket
and no blank, a number has no blank, and an operand has no comma. So the form is cut at its first
blank, then at a bracket before it and at the commas behind it, and each part is that of one gate,
angle or operand. -/

namespace Ket

/-- A text is cut at the first place of a character. -/
theorem append_cons_inj {c : Char} {xs xs' ys ys' : List Char} (h : c ∉ xs) (h' : c ∉ xs')
    (heq : xs ++ c :: ys = xs' ++ c :: ys') : xs = xs' ∧ ys = ys' := by
  induction xs generalizing xs' with
  | nil =>
    cases xs' with
    | nil => exact ⟨rfl, (List.cons.inj heq).2⟩
    | cons x' xs' => exact absurd ((List.cons.inj heq).1 ▸ List.mem_cons_self ..) h'
  | cons x xs ih =>
    rw [List.mem_cons, not_or] at h
    cases xs' with
    | nil => exact absurd (List.cons.inj heq).1.symm h.1
    | cons x' xs' =>
      rw [List.mem_cons, not_or] at h'
      obtain ⟨rfl, hrest⟩ := List.cons.inj heq
      obtain ⟨rfl, rfl⟩ := ih h.2 h'.2 hrest
      exact ⟨rfl, rfl⟩

/-- The numbers with the property are told apart by their written form, which is one word. -/
structure Legible {F : Type} [HasText F] (p : F → Prop) : Prop where
  injective : ∀ θ φ : F, p θ → p φ → text θ = text φ → θ = φ
  word : ∀ θ : F, p θ → ' ' ∉ (text θ).toList

namespace Gate

theorem find?_name : ∀ g : Gate, all.find? (·.name == g.name) = some g
  | one g => by cases g <;> decide
  | two g => by cases g <;> decide
  | three g => by cases g <;> decide
  | rotation a => by cases a <;> decide
  | pairRotation a => by cases a <;> decide
  | measure => by decide

theorem name_inj {g g' : Gate} : g.name = g'.name ↔ g = g' := by
  refine ⟨fun h => Option.some.inj ?_, congrArg name⟩
  rw [← find?_name g, h, find?_name g']

theorem notMem_name : ∀ g : Gate, '(' ∉ g.name.toList ∧ ' ' ∉ g.name.toList := by
  have hall : ∀ g ∈ all, '(' ∉ g.name.toList ∧ ' ' ∉ g.name.toList := by decide
  exact fun g => hall g (mem_all g)

end Gate

namespace Qubit

theorem toList_text (q : Qubit) : (text q).toList = 'q' :: Nat.toDigits 10 q.index := by
  rw [show text q = "q" ++ q.index.repr from rfl, String.toList_append, Nat.toList_repr]
  rfl

theorem eq_of_text {a b : Qubit} (h : text a = text b) : a = b := by
  refine index_inj.1 ?_
  have hdigits := congrArg (fun s => Nat.ofDigitChars 10 s.toList.tail 0) h
  simpa only [toList_text, List.tail_cons, Nat.ofDigitChars_ten_toDigits] using hdigits

theorem comma_notMem_text (q : Qubit) : ',' ∉ (text q).toList := by
  rw [toList_text, List.mem_cons, not_or]
  exact ⟨by decide, fun hc => absurd (Decimal.isDigit_of_mem_numeral hc) (by decide)⟩

end Qubit

theorem intercalate_inj {xs ys : List (List Char)} (hlen : xs.length = ys.length)
    (hxs : ∀ x ∈ xs, ',' ∉ x) (hys : ∀ y ∈ ys, ',' ∉ y) {rest : List Char}
    (h : (',' :: rest).intercalate xs = (',' :: rest).intercalate ys) : xs = ys := by
  induction xs generalizing ys with
  | nil => exact (List.length_eq_zero_iff.1 hlen.symm).symm
  | cons x xs ih =>
    obtain ⟨y, ys, rfl⟩ := List.exists_of_length_succ ys hlen.symm
    have hlen' := Nat.succ.inj hlen
    cases xs with
    | nil =>
      cases List.length_eq_zero_iff.1 hlen'.symm
      simpa using h
    | cons x' xs =>
      obtain ⟨y', ys, rfl⟩ := List.exists_of_length_succ ys hlen'.symm
      rw [List.intercalate_cons_cons, List.intercalate_cons_cons, List.append_assoc,
        List.append_assoc] at h
      obtain ⟨rfl, htail⟩ := append_cons_inj (hxs x (by simp)) (hys y (by simp)) h
      rw [ih hlen' (fun z hz => hxs z (by simp [hz])) (fun z hz => hys z (by simp [hz]))
        (List.append_cancel_left htail)]

namespace Instruction

variable {F : Type}

theorem eq_of_parts {i j : Instruction F} (hg : i.gate = j.gate) (ha : i.angle? = j.angle?)
    (hq : i.qubits = j.qubits) : i = j := by
  cases i <;> cases j <;> simp_all [gate, angle?, qubits]

def angleText [HasText F] (angle? : Option F) : List Char :=
  match angle? with
  | none => []
  | some θ => '(' :: ((text θ).toList ++ [')'])

theorem toList_text [HasText F] (i : Instruction F) :
    (text i).toList = i.gate.name.toList ++ angleText i.angle? ++
      ' ' :: [',', ' '].intercalate (i.qubits.map fun q => (text q).toList) := by
  have htext : text i = i.gate.name ++ (match i.angle? with
      | none => ""
      | some θ => "(" ++ text θ ++ ")") ++ " " ++ ", ".intercalate (i.qubits.map text) := rfl
  rw [htext]
  cases i.angle? <;>
    simp [angleText, String.toList_intercalate, List.map_map, Function.comp_def]

section Legible

variable [HasText F] {p : F → Prop} (hp : Legible p)

include hp

theorem blank_notMem_angleText {angle? : Option F} (h : ∀ θ ∈ angle?, p θ) :
    ' ' ∉ angleText angle? := by
  cases angle? with
  | none => exact List.not_mem_nil
  | some θ => simp [angleText, hp.word θ (h θ rfl)]

/-- A name ends where the text does or at a bracket. -/
theorem name_angleText_inj {g g' : Gate} {a a' : Option F} (ha : ∀ θ ∈ a, p θ)
    (ha' : ∀ θ ∈ a', p θ)
    (h : g.name.toList ++ angleText a = g'.name.toList ++ angleText a') : g = g' ∧ a = a' := by
  have hname (g : Gate) : '(' ∉ g.name.toList := (Gate.notMem_name g).1
  cases a with
  | none =>
    cases a' with
    | none =>
      simp only [angleText, List.append_nil, String.toList_inj] at h
      exact ⟨Gate.name_inj.1 h, rfl⟩
    | some φ =>
      rw [angleText, List.append_nil] at h
      exact absurd (h ▸ List.mem_append_right _ (List.mem_cons_self ..)) (hname g)
  | some θ =>
    cases a' with
    | none =>
      rw [angleText, angleText, List.append_nil] at h
      exact absurd (h ▸ List.mem_append_right _ (List.mem_cons_self ..)) (hname g')
    | some φ =>
      obtain ⟨hg, hθ⟩ := append_cons_inj (hname g) (hname g') h
      have hθ' := String.toList_inj.1 (List.append_cancel_right hθ)
      rw [hp.injective θ φ (ha θ rfl) (ha' φ rfl) hθ']
      exact ⟨Gate.name_inj.1 (String.toList_inj.1 hg), rfl⟩

theorem text_inj_of_legible {i j : Instruction F} (hi : ∀ θ ∈ i.angle?, p θ)
    (hj : ∀ θ ∈ j.angle?, p θ) : text i = text j ↔ i = j := by
  refine ⟨fun h => ?_, congrArg text⟩
  have hblank {i : Instruction F} (hi : ∀ θ ∈ i.angle?, p θ) :
      ' ' ∉ i.gate.name.toList ++ angleText i.angle? := by
    rw [List.mem_append, not_or]
    exact ⟨(Gate.notMem_name _).2, blank_notMem_angleText hp hi⟩
  rw [← String.toList_inj, toList_text, toList_text] at h
  obtain ⟨hfront, hoperands⟩ := append_cons_inj (hblank hi) (hblank hj) h
  obtain ⟨hg, ha⟩ := name_angleText_inj hp hi hj hfront
  have hcomma (qs : List Qubit) : ∀ x ∈ qs.map fun q => (text q).toList, ',' ∉ x :=
    List.forall_mem_map.2 fun q _ => q.comma_notMem_text
  have hlength : (i.qubits.map fun q => (text q).toList).length =
      (j.qubits.map fun q => (text q).toList).length := by
    rw [List.length_map, List.length_map, length_qubits, length_qubits, hg]
  have hqubits := intercalate_inj hlength (hcomma _) (hcomma _) hoperands
  refine eq_of_parts hg ha (List.map_injective_iff.2 (fun a b hab => ?_) hqubits)
  exact Qubit.eq_of_text (String.toList_inj.1 hab)

end Legible

end Instruction

theorem legible_float : Legible fun θ : Float => θ.isNaN = false where
  injective _ _ hθ hφ := (text_float_inj hθ hφ).1
  word θ _ hc := by
    rw [toList_text_float] at hc
    rcases Decimal.mem_plain hc with h | h
    · cases h
    · exact absurd h (by decide)

namespace Instruction

/-- Instructions are told apart by their written form: by the gate, by each operand in its place and
by every bit of the angle. -/
theorem text_inj {i j : Instruction Float} (hi : ∀ θ ∈ i.angle?, θ.isNaN = false)
    (hj : ∀ θ ∈ j.angle?, θ.isNaN = false) : text i = text j ↔ i = j :=
  text_inj_of_legible legible_float hi hj

/-- Turns by zeros of either sign. -/
theorem text_ne_of_zeros :
    (∀ θ ∈ (rotation .x 0 (.ofNat 1) : Instruction Float).angle?, θ.isNaN = false) ∧
      (∀ θ ∈ (rotation .x (-0) (.ofNat 1) : Instruction Float).angle?, θ.isNaN = false) ∧
      text (rotation .x 0 (.ofNat 1) : Instruction Float) ≠
        text (rotation .x (-0) (.ofNat 1) : Instruction Float) := by
  have hpos : ∀ θ ∈ (rotation .x 0 (.ofNat 1) : Instruction Float).angle?, θ.isNaN = false := by
    rintro _ ⟨⟩
    decide
  have hneg : ∀ θ ∈ (rotation .x (-0) (.ofNat 1) : Instruction Float).angle?,
      θ.isNaN = false := by
    rintro _ ⟨⟩
    decide
  refine ⟨hpos, hneg, fun h => ?_⟩
  have hangle := congrArg (fun i : Instruction Float => i.angle?.map Float.toBits)
    ((text_inj hpos hneg).1 h)
  exact absurd hangle (by decide)

end Instruction

end Ket
