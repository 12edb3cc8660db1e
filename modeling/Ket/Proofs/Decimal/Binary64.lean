import Ket.Proofs.Decimal.Shortest

/-! Binary64 numbers by the bits that they are stored with. Unless it is not a number, a number has
one pattern of bits, and a finite one has the significand and exponent that its interval needs. -/

namespace Ket

namespace Binary64

/-- A finite number is zero or has its canonical significand and exponent. -/
def Normalized : Binary64 → Prop
  | nan | infinite _ => True
  | finite _ significand exponent =>
    significand = 0 ∧ exponent = leastExponent ∨ Canonical significand exponent

/-- The sign, the exponent and the fraction that a number is stored with. -/
def fields : Binary64 → Bool × Nat × Nat
  | nan => (false, 2047, 1)
  | infinite negative => (negative, 2047, 0)
  | finite negative significand exponent =>
    (negative, if significand < leastNormal then 0 else (exponent - leastExponent + 1).toNat,
      significand % leastNormal)

theorem leastNormal_eq : leastNormal = 4503599627370496 := rfl

theorem leastExponent_eq : leastExponent = -1074 := rfl

theorem normalized_ofBits (bits : Nat) : (ofBits bits).Normalized := by
  have hfraction : bits % leastNormal < leastNormal := Nat.mod_lt _ (by decide)
  have hexponent : bits / leastNormal % 2048 < 2048 := Nat.mod_lt _ (by decide)
  unfold ofBits
  simp only
  split
  case isTrue => split <;> trivial
  case isFalse =>
    split
    case isTrue =>
      rcases Nat.eq_zero_or_pos (bits % leastNormal) with hzero | hpos
      · exact .inl ⟨hzero, rfl⟩
      · exact .inr ⟨hpos, by omega, le_rfl, by decide, fun h => absurd h (lt_irrefl _)⟩
    case isFalse =>
      refine .inr ⟨?_, ?_, ?_, ?_, fun _ => Nat.le_add_right ..⟩ <;>
        simp only [leastNormal_eq, leastExponent_eq] at * <;> omega

theorem fields_ofBits {bits : Nat} (h : ofBits bits ≠ nan) :
    fields (ofBits bits) = (bits.testBit 63, bits / leastNormal % 2048, bits % leastNormal) := by
  have hfraction : bits % leastNormal < leastNormal := Nat.mod_lt _ (by decide)
  unfold ofBits at h ⊢
  simp only at h ⊢
  split at h
  case isTrue hspecial =>
    rw [if_pos hspecial, hspecial]
    split at h
    case isTrue hzero => rw [if_pos hzero, hzero, fields]
    case isFalse => exact absurd rfl h
  case isFalse hfinite =>
    rw [if_neg hfinite]
    split
    case isTrue hzero => rw [fields, if_pos hfraction, Nat.mod_mod, hzero]
    case isFalse hnormal =>
      rw [fields, if_neg (by omega), Nat.add_mod_left, Nat.mod_mod]
      congr 2
      omega

theorem eq_of_fields {b b' : Nat} (hb : b < 2 ^ 64) (hb' : b' < 2 ^ 64)
    (hsign : b.testBit 63 = b'.testBit 63)
    (hexponent : b / leastNormal % 2048 = b' / leastNormal % 2048)
    (hfraction : b % leastNormal = b' % leastNormal) : b = b' := by
  rw [Nat.testBit_eq_decide_div_mod_eq, Nat.testBit_eq_decide_div_mod_eq, decide_eq_decide] at hsign
  rw [leastNormal_eq] at hexponent hfraction
  omega

theorem ofBits_eq_nan {bits : Nat} (h : ofBits bits = nan) :
    bits / leastNormal % 2048 = 2047 ∧ bits % leastNormal ≠ 0 := by
  unfold ofBits at h
  simp only at h
  split at h
  case isTrue hspecial =>
    split at h
    case isTrue => cases h
    case isFalse hfraction => exact ⟨hspecial, hfraction⟩
  case isFalse => split at h <;> cases h

open Float.Model UnpackedFloat in
theorem ofFloat_ne_nan {θ : Float} (hθ : θ.isNaN = false) : ofFloat θ ≠ nan := by
  intro h
  obtain ⟨hexponent, hfraction⟩ := ofBits_eq_nan h
  have hexponent' : @unpackExponent Format.binary64 θ.toBits.toBitVec = -1#_ := by
    refine BitVec.eq_of_toNat_eq (Eq.trans ?_ hexponent)
    simp [unpackExponent, Nat.shiftRight_eq_div_pow, leastNormal_eq]
  have hfraction' : @unpackMantissa Format.binary64 θ.toBits.toBitVec ≠ 0#_ := by
    intro hzero
    refine hfraction (Eq.trans ?_ (congrArg BitVec.toNat hzero))
    simp [unpackMantissa, leastNormal_eq]
  have hunpack : UnpackedFloat.unpack Format.binary64 θ.toBits.toBitVec = .notANumber :=
    (if_pos hexponent').trans (if_neg hfraction')
  have hnan : θ.isNaN = (UnpackedFloat.unpack Format.binary64 θ.toBits.toBitVec).isNaN := rfl
  rw [hnan, hunpack] at hθ
  cases hθ

theorem ofFloat_inj {θ φ : Float} (hθ : θ.isNaN = false) (hφ : φ.isNaN = false) :
    ofFloat θ = ofFloat φ ↔ θ = φ := by
  refine ⟨fun h => ?_, congrArg ofFloat⟩
  have hfields := congrArg fields h
  rw [ofFloat, ofFloat, fields_ofBits (ofFloat_ne_nan hθ), fields_ofBits (ofFloat_ne_nan hφ)]
    at hfields
  obtain ⟨hsign, hrest⟩ := Prod.mk.inj hfields
  obtain ⟨hexponent, hfraction⟩ := Prod.mk.inj hrest
  have hbits := eq_of_fields θ.toBits.toNat_lt φ.toBits.toNat_lt hsign hexponent hfraction
  obtain ⟨⟨bits, _⟩⟩ := θ
  obtain ⟨⟨bits', _⟩⟩ := φ
  cases UInt64.toNat_inj.1 hbits
  rfl

end Binary64

end Ket
