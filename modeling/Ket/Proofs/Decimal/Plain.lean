import Ket.Decimal.Plain

/-! Which characters the plain form of a number is made of. None of them is a blank, so a number may
stand in a line of text with others. -/

namespace Ket

namespace Decimal

theorem isDigit_of_mem_numeral {n : Nat} {c : Char} (hc : c ∈ numeral n) : c.isDigit = true :=
  Nat.isDigit_of_mem_toDigits (by decide) (by decide) hc

theorem isDigit_of_mem_replicate {n : Nat} {c : Char} (hc : c ∈ List.replicate n '0') :
    c.isDigit = true := by
  rw [List.eq_of_mem_replicate hc]
  rfl

theorem mem_positional {d : Decimal} {c : Char} (hc : c ∈ d.positional) :
    c.isDigit = true ∨ c = '.' := by
  unfold positional at hc
  split at hc
  · rcases List.mem_append.1 hc with hc | hc
    · exact .inl (isDigit_of_mem_numeral hc)
    · exact .inl (isDigit_of_mem_replicate hc)
  · simp only at hc
    split at hc
    · rcases List.mem_append.1 hc with hc | hc
      · exact .inl (isDigit_of_mem_numeral (List.mem_of_mem_take hc))
      · rcases List.mem_cons.1 hc with rfl | hc
        · exact .inr rfl
        · exact .inl (isDigit_of_mem_numeral (List.mem_of_mem_drop hc))
    · simp only [List.mem_append, List.mem_cons] at hc
      rcases hc with (rfl | rfl | hc) | hc
      · exact .inl rfl
      · exact .inr rfl
      · exact .inl (isDigit_of_mem_replicate hc)
      · exact .inl (isDigit_of_mem_numeral hc)

theorem mem_signed {negative : Bool} {text : List Char} {c : Char} (hc : c ∈ signed negative text) :
    c = '-' ∨ c ∈ text := by
  cases negative with
  | true => exact List.mem_cons.1 hc
  | false => exact .inr hc

/-- A number is made of digits, a point, a sign and the letters of what is not finite. -/
theorem mem_plain {x : Binary64} {c : Char} (hc : c ∈ plain x) :
    c.isDigit = true ∨ c ∈ ['.', '-', 'N', 'a', 'i', 'n', 'f'] := by
  unfold plain at hc
  split at hc
  · simp only [List.mem_cons, List.not_mem_nil, or_false] at hc
    rcases hc with rfl | rfl | rfl <;> decide
  · rcases mem_signed hc with rfl | hc
    · decide
    · simp only [List.mem_cons, List.not_mem_nil, or_false] at hc
      rcases hc with rfl | rfl | rfl <;> decide
  · rcases mem_signed hc with rfl | hc
    · decide
    · rw [List.mem_singleton.1 hc]
      decide
  · rcases mem_signed hc with rfl | hc
    · decide
    · rcases mem_positional hc with hc | rfl
      · exact .inl hc
      · decide

end Decimal

theorem toList_text_float (x : Float) : (text x).toList = Decimal.plain (.ofFloat x) := by
  have h : text x = String.ofList (Decimal.plain (.ofFloat x)) := rfl
  rw [h, String.toList_ofList]

end Ket
