import Ket.Proofs.Decimal.Plain
import Ket.Proofs.Decimal.Binary64

/-! The plain form of a number is its own. Read as a number, the digits give what they stand for,
and that lies in the interval of one binary64 number. The sign tells the rest, also of a zero. -/

namespace Ket

namespace Decimal

open Binary64

/-- The number that a text of digits, with or without a point, stands for. -/
def reading (text : List Char) : ℚ :=
  (Nat.ofDigitChars 10 (text.filter (· ≠ '.')) 0 : ℚ) /
    10 ^ ((text.dropWhile (· ≠ '.')).length - 1)

theorem notMem_of_isDigit {text : List Char} (h : ∀ c ∈ text, c.isDigit = true) : '.' ∉ text :=
  fun hc => absurd (h _ hc) (by decide)

theorem ne_point {text : List Char} (h : '.' ∉ text) {c : Char} (hc : c ∈ text) :
    decide (c ≠ '.') = true := decide_eq_true fun hp => h (hp ▸ hc)

theorem reading_whole {whole : List Char} (h : '.' ∉ whole) :
    reading whole = Nat.ofDigitChars 10 whole 0 := by
  have hdrop : whole.dropWhile (· ≠ '.') = [] := by
    rw [← List.append_nil whole, List.dropWhile_append_of_pos fun c hc => ne_point h hc]
    rfl
  rw [reading, hdrop, List.filter_eq_self.2 fun c hc => ne_point h hc, List.length_nil,
    Nat.zero_sub, pow_zero, div_one]

theorem reading_point {whole fraction : List Char} (hw : '.' ∉ whole) (hf : '.' ∉ fraction) :
    reading (whole ++ '.' :: fraction) =
      (Nat.ofDigitChars 10 (whole ++ fraction) 0 : ℚ) / 10 ^ fraction.length := by
  have hdrop : (whole ++ '.' :: fraction).dropWhile (· ≠ '.') = '.' :: fraction := by
    rw [List.dropWhile_append_of_pos fun c hc => ne_point hw hc]
    rfl
  have hfilter : (whole ++ '.' :: fraction).filter (· ≠ '.') = whole ++ fraction := by
    rw [List.filter_append, List.filter_cons_of_neg (by decide),
      List.filter_eq_self.2 fun c hc => ne_point hw hc,
      List.filter_eq_self.2 fun c hc => ne_point hf hc]
  rw [reading, hdrop, hfilter, List.length_cons, Nat.add_sub_cancel]

theorem ofDigitChars_numeral (n : Nat) : Nat.ofDigitChars 10 (numeral n) 0 = n :=
  Nat.ofDigitChars_ten_toDigits

theorem value_of_neg {d : Decimal} (h : d.exponent < 0) :
    d.value = (d.digits : ℚ) / 10 ^ (-d.exponent).toNat := by
  have hexp : d.exponent = -((-d.exponent).toNat : Int) := by omega
  rw [value, hexp, zpow_neg, zpow_natCast, div_eq_mul_inv, ← hexp]

theorem reading_positional (d : Decimal) : reading d.positional = d.value := by
  have hdigits : '.' ∉ numeral d.digits := notMem_of_isDigit fun _ => isDigit_of_mem_numeral
  have hzeros (n : Nat) : '.' ∉ List.replicate n '0' :=
    notMem_of_isDigit fun _ => isDigit_of_mem_replicate
  unfold positional
  split
  case isTrue h =>
    obtain ⟨n, hn⟩ := Int.eq_ofNat_of_zero_le h
    rw [reading_whole (by simp [hdigits, hzeros]), Nat.ofDigitChars_append, ofDigitChars_numeral,
      Nat.ofDigitChars_replicate_zero, value, hn, Int.toNat_natCast, zpow_natCast, mul_comm]
    push_cast
    rfl
  case isFalse h =>
    rw [value_of_neg (not_le.1 h)]
    simp only
    split
    case isTrue hlt =>
      rw [reading_point (fun hp => hdigits (List.mem_of_mem_take hp))
        (fun hp => hdigits (List.mem_of_mem_drop hp)), List.take_append_drop, ofDigitChars_numeral,
        List.length_drop, Nat.sub_sub_self hlt.le]
    case isFalse hle =>
      have hfraction : '.' ∉ List.replicate ((-d.exponent).toNat - (numeral d.digits).length) '0' ++
          numeral d.digits := by simp [hdigits, hzeros]
      have hread : reading (['0'] ++ '.' :: _) = _ := reading_point (by decide) hfraction
      rw [Nat.ofDigitChars_append, Nat.ofDigitChars_append, Nat.ofDigitChars_replicate_zero,
        show Nat.ofDigitChars 10 ['0'] 0 = 0 from rfl, Nat.mul_zero, ofDigitChars_numeral,
        List.length_append, List.length_replicate, Nat.sub_add_cancel (not_lt.1 hle)] at hread
      exact hread

def unsigned (significand : Nat) (exponent : Int) : List Char :=
  if significand = 0 then ['0'] else (shortest .up significand exponent).positional

theorem plain_finite (negative : Bool) (significand : Nat) (exponent : Int) :
    plain (.finite negative significand exponent) =
      signed negative (unsigned significand exponent) := by
  cases significand <;> rfl

theorem mem_unsigned {significand : Nat} {exponent : Int} {c : Char}
    (hc : c ∈ unsigned significand exponent) : c.isDigit = true ∨ c = '.' := by
  unfold unsigned at hc
  split at hc
  · rw [List.mem_singleton.1 hc]
    decide
  · exact mem_positional hc

theorem signed_inj {negative negative' : Bool} {t t' : List Char} (ht : '-' ∉ t) (ht' : '-' ∉ t')
    (h : signed negative t = signed negative' t') : negative = negative' ∧ t = t' := by
  cases negative <;> cases negative'
  · exact ⟨rfl, h⟩
  · have hcons : t = '-' :: t' := h
    exact absurd (hcons ▸ List.mem_cons_self ..) ht
  · have hcons : '-' :: t = t' := h
    exact absurd (hcons ▸ List.mem_cons_self ..) ht'
  · exact ⟨rfl, List.tail_eq_of_cons_eq h⟩

theorem reading_unsigned_zero (exponent : Int) : reading (unsigned 0 exponent) = 0 := by
  rw [unsigned, if_pos rfl, reading_whole (by decide)]
  rfl

theorem rounds_unsigned {m : Nat} {e : Int} (h : Canonical m e) :
    Rounds m e (reading (unsigned m e)) := by
  rw [unsigned, if_neg h.pos.ne', reading_positional]
  exact rounds_shortest .up h

theorem unsigned_ne_zero {m : Nat} {e : Int} (h : Canonical m e) (exponent : Int) :
    unsigned m e ≠ unsigned 0 exponent := by
  intro heq
  have hpos := (rounds_unsigned h).pos h.pos
  rw [heq, reading_unsigned_zero] at hpos
  exact lt_irrefl _ hpos

/-- Digits are read as zero, or they are rounded to the number that they were taken from. -/
theorem unsigned_inj {m m' : Nat} {e e' : Int} (h : m = 0 ∧ e = leastExponent ∨ Canonical m e)
    (h' : m' = 0 ∧ e' = leastExponent ∨ Canonical m' e') (heq : unsigned m e = unsigned m' e') :
    m = m' ∧ e = e' := by
  rcases h with ⟨rfl, rfl⟩ | h <;> rcases h' with ⟨rfl, rfl⟩ | h'
  · exact ⟨rfl, rfl⟩
  · exact absurd heq.symm (unsigned_ne_zero h' _)
  · exact absurd heq (unsigned_ne_zero h _)
  · exact (rounds_unsigned h).unique (heq ▸ rounds_unsigned h') h h'

theorem mem_plain_finite {negative : Bool} {significand : Nat} {exponent : Int} {c : Char}
    (hc : c ∈ plain (.finite negative significand exponent)) :
    c = '-' ∨ c.isDigit = true ∨ c = '.' := by
  rw [plain_finite] at hc
  exact (mem_signed hc).imp_right mem_unsigned

theorem plain_injective {x y : Binary64} (hx : x.Normalized) (hy : y.Normalized)
    (h : plain x = plain y) : x = y := by
  have hnan {n m e} (h : plain .nan = plain (.finite n m e)) : False :=
    absurd (mem_plain_finite (h ▸ by decide : 'N' ∈ plain (.finite n m e))) (by decide)
  have hinfinite {b n m e} (h : plain (.infinite b) = plain (.finite n m e)) : False :=
    absurd (mem_plain_finite (h ▸ by cases b <;> decide : 'i' ∈ plain (.finite n m e))) (by decide)
  cases x with
  | nan =>
    cases y with
    | nan => rfl
    | infinite b => exact absurd h (by cases b <;> decide)
    | finite => exact (hnan h).elim
  | infinite b =>
    cases y with
    | nan => exact absurd h (by cases b <;> decide)
    | infinite b' =>
      obtain ⟨rfl, -⟩ := signed_inj (by decide) (by decide) h
      rfl
    | finite => exact (hinfinite h).elim
  | finite n m e =>
    cases y with
    | nan => exact (hnan h.symm).elim
    | infinite b => exact (hinfinite h.symm).elim
    | finite n' m' e' =>
      have hminus (m e) : '-' ∉ unsigned m e := fun hc => absurd (mem_unsigned hc) (by decide)
      rw [plain_finite, plain_finite] at h
      obtain ⟨rfl, hdigits⟩ := signed_inj (hminus m e) (hminus m' e') h
      obtain ⟨rfl, rfl⟩ := unsigned_inj hx hy hdigits
      rfl

end Decimal

/-- The written form of a number is its own, unless it is not a number. -/
theorem text_float_inj {θ φ : Float} (hθ : θ.isNaN = false) (hφ : φ.isNaN = false) :
    text θ = text φ ↔ θ = φ := by
  refine ⟨fun h => (Binary64.ofFloat_inj hθ hφ).1 ?_, congrArg text⟩
  exact Decimal.plain_injective (Binary64.normalized_ofBits _) (Binary64.normalized_ofBits _)
    (String.ofList_injective h)

end Ket
