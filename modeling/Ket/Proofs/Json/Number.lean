import Ket.Proofs.Json.Reads

/-! Reading of numbers. Where a number ends is told by the next character, so a number that is read
off the end of a text is read in the same way when something else comes behind it. The digits of a
natural number are read as the number, if it fits. -/

namespace Ket.Json

/-- No number goes on with this. -/
def Stops (rest : List Char) : Prop :=
  ∀ c ∈ rest.head?, isDigit c = false ∧ c ∉ ['.', 'e', 'E', '+', '-']

theorem Follows.stops {rest : List Char} (h : Follows rest) : Stops rest := by
  intro c hc
  rcases h c hc with hb | rfl | rfl | rfl
  · simp only [isBlank, Bool.or_eq_true, beq_iff_eq] at hb
    rcases hb with ((rfl | rfl) | rfl) | rfl <;> decide
  all_goals decide

/-- What is read of a text is read of a longer one as well, if the number does not go on there. -/
def Extends {β : Type} (r : Reader β) : Prop :=
  ∀ s x left, r s = .ok (x, left) → ∀ rest, Stops rest → r (s ++ rest) = .ok (x, left ++ rest)

namespace Extends

variable {β γ : Type}

theorem pure (x : β) : Extends (pure x : Reader β) := by
  rintro s y left h rest -
  cases h
  rfl

theorem throw (e : Fault) : Extends (throw e : Reader β) := fun _ _ _ h => by cases h

theorem bind {r : Reader β} {f : β → Reader γ} (hr : Extends r) (hf : ∀ x, Extends (f x)) :
    Extends (r >>= f) := by
  intro s y left h rest hrest
  obtain ⟨x, t, hx, hy⟩ := bind_eq_ok_iff.1 h
  rw [bind_of_ok (hr s x t hx rest hrest)]
  exact hf x t y left hy rest hrest

end Extends

theorem get_bind {β : Type} (f : List Char → Reader β) (s : List Char) :
    (get >>= f) s = f s s := rfl

/-- The first character stays the first one, or there is none. -/
theorem Stops.append_ne {rest t : List Char} (hrest : Stops rest) {m : Char}
    (hm : isDigit m = true ∨ m ∈ ['.', 'e', 'E', '+', '-']) (ht : ∀ s, t ≠ m :: s)
    (s : List Char) : t ++ rest ≠ m :: s := by
  intro h
  cases t with
  | nil =>
    obtain ⟨hdigit, hmark⟩ := hrest m (by rw [← List.nil_append rest, h]; rfl)
    rcases hm with hm | hm
    · rw [hm] at hdigit
      cases hdigit
    · exact hmark hm
  | cons c t =>
    rw [List.cons_append, List.cons.injEq] at h
    exact ht t (congrArg (· :: t) h.1)

theorem Stops.head_append {rest t : List Char} (hrest : Stops rest)
    (ht : ¬ (t.head?.map isDigit).getD false = true) :
    ¬ ((t ++ rest).head?.map isDigit).getD false = true := by
  cases t with
  | nil =>
    cases rest with
    | nil => exact ht
    | cons c rest => simp [(hrest c rfl).1]
  | cons c t => exact ht

section Digits

variable {rest : List Char}

theorem takeWhile_isDigit_append (s : List Char) (hrest : Stops rest) :
    (s ++ rest).takeWhile isDigit = s.takeWhile isDigit := by
  induction s with
  | nil =>
    cases rest with
    | nil => rfl
    | cons c rest => simp [(hrest c rfl).1]
  | cons c s ih => simp [List.takeWhile_cons, ih]

theorem dropWhile_isDigit_append (s : List Char) (hrest : Stops rest) :
    (s ++ rest).dropWhile isDigit = s.dropWhile isDigit ++ rest := by
  induction s with
  | nil =>
    cases rest with
    | nil => rfl
    | cons c rest => simp [(hrest c rfl).1]
  | cons c s ih =>
    rw [List.cons_append, List.dropWhile_cons, List.dropWhile_cons, ih]
    split <;> rfl

end Digits

namespace Number

variable {rest : List Char}

theorem wholeDigits_append (significand : Nat) (s : List Char) (hrest : Stops rest) :
    wholeDigits significand (s ++ rest) =
      ((wholeDigits significand s).1, (wholeDigits significand s).2.1,
        (wholeDigits significand s).2.2 ++ rest) := by
  induction s generalizing significand with
  | nil =>
    cases rest with
    | nil => rfl
    | cons c rest => simp [wholeDigits, (hrest c rfl).1]
  | cons c s ih =>
    have htake := takeWhile_isDigit_append (c :: s) hrest
    have hdrop := dropWhile_isDigit_append (c :: s) hrest
    rw [List.cons_append] at htake hdrop ⊢
    simp only [wholeDigits, htake, hdrop, ih]
    split
    · split <;> rfl
    · rfl

theorem fractionDigits_append (significand places : Nat) (s : List Char) (hrest : Stops rest) :
    fractionDigits significand places (s ++ rest) =
      ((fractionDigits significand places s).1, (fractionDigits significand places s).2.1,
        (fractionDigits significand places s).2.2 ++ rest) := by
  induction s generalizing significand places with
  | nil =>
    cases rest with
    | nil => rfl
    | cons c rest => simp [fractionDigits, (hrest c rfl).1]
  | cons c s ih =>
    have hdrop := dropWhile_isDigit_append (c :: s) hrest
    rw [List.cons_append] at hdrop ⊢
    simp only [fractionDigits, hdrop, ih]
    split
    · split <;> rfl
    · rfl

theorem exponentDigits_append (value : Nat) (s : List Char) (hrest : Stops rest) :
    exponentDigits value (s ++ rest) =
      ((exponentDigits value s).1, (exponentDigits value s).2 ++ rest) := by
  induction s generalizing value with
  | nil =>
    cases rest with
    | nil => rfl
    | cons c rest => simp [exponentDigits, (hrest c rfl).1]
  | cons c s ih =>
    rw [List.cons_append]
    simp only [exponentDigits, ih]
    split
    · split <;> rfl
    · rfl

theorem extends_needDigit : Extends needDigit := by
  intro s x left h rest _
  cases s with
  | nil => cases h
  | cons c s =>
    simp only [needDigit, List.cons_append] at h ⊢
    split at h
    · rename_i hc
      cases h
      rw [if_pos hc]
      rfl
    · cases h

theorem extends_scaled (negative : Bool) (significand : Nat) (exponent : Int) :
    Extends (scaled negative significand exponent) := by
  unfold scaled
  split
  · exact Extends.pure _
  · exact Extends.throw _

theorem extends_sign : Extends fun
    | '+' :: s => .ok (false, s)
    | '-' :: s => .ok (true, s)
    | s => .ok (false, s) := by
  intro s x left h rest hrest
  simp only at h ⊢
  split at h
  · cases h
    rfl
  · cases h
    rfl
  · rename_i hplus hminus
    cases h
    split
    · rename_i h
      exact absurd h (hrest.append_ne (by decide) hplus _)
    · rename_i h
      exact absurd h (hrest.append_ne (by decide) hminus _)
    · rfl

theorem extends_exponentPart (negative : Bool) (significand : Nat) (exponent : Int) :
    Extends (exponentPart negative significand exponent) := by
  unfold exponentPart
  refine Extends.bind extends_sign fun downwards => Extends.bind extends_needDigit fun _ => ?_
  intro s x left h rest hrest
  rw [get_bind] at h ⊢
  rw [exponentDigits_append 0 s hrest]
  generalize exponentDigits 0 s = digits at h ⊢
  obtain ⟨power, t⟩ := digits
  cases power with
  | some power => exact extends_scaled _ _ _ t x left h rest hrest
  | none =>
    simp only at h ⊢
    split at h
    · cases h
    · rename_i hzero
      cases h
      rw [if_neg hzero, dropWhile_isDigit_append t hrest]
      rfl

theorem extends_fractionPart (negative : Bool) (significand : Nat) (exponent : Int) :
    Extends (fractionPart negative significand exponent) := by
  unfold fractionPart
  refine Extends.bind extends_needDigit fun _ => ?_
  intro s x left h rest hrest
  rw [get_bind] at h ⊢
  rw [fractionDigits_append significand 0 s hrest]
  generalize fractionDigits significand 0 s = digits at h ⊢
  obtain ⟨significand', places, t⟩ := digits
  simp only at h ⊢
  split at h
  · exact extends_exponentPart _ _ _ _ x left h rest hrest
  · exact extends_exponentPart _ _ _ _ x left h rest hrest
  · rename_i he hE
    -- what the digits leave does not start with the letter, and neither does it with `rest` behind
    have he' := hrest.append_ne (by decide) he
    have hE' := hrest.append_ne (by decide) hE
    generalize hu : t ++ rest = u at he' hE' ⊢
    split
    · exact absurd rfl (he' _)
    · exact absurd rfl (hE' _)
    · subst hu
      exact extends_scaled _ _ _ t x left h rest hrest

theorem extends_tailPart (negative : Bool) (significand surplus : Nat) :
    Extends (tailPart negative significand surplus) := by
  intro s x left h rest hrest
  unfold tailPart at h ⊢
  split at h
  · exact extends_fractionPart _ _ _ _ x left h rest hrest
  · exact extends_exponentPart _ _ _ _ x left h rest hrest
  · exact extends_exponentPart _ _ _ _ x left h rest hrest
  · rename_i hpoint he hE
    split
    · rename_i h
      exact absurd h (hrest.append_ne (by decide) hpoint _)
    · rename_i h
      exact absurd h (hrest.append_ne (by decide) he _)
    · rename_i h
      exact absurd h (hrest.append_ne (by decide) hE _)
    · split at h
      · rename_i hsurplus
        cases h
        rw [if_pos hsurplus]
      · rename_i hsurplus
        rw [if_neg hsurplus]
        exact extends_scaled _ _ _ _ x left h rest hrest

theorem extends_unsigned (negative : Bool) : Extends (unsigned negative) := by
  unfold unsigned
  refine Extends.bind extends_needDigit fun _ => ?_
  intro s x left h rest hrest
  rw [get_bind] at h ⊢
  split at h
  · rename_i t
    simp only [List.cons_append] at h ⊢
    split at h
    · cases h
    · rename_i hdigit
      rw [if_neg (hrest.head_append hdigit)]
      exact extends_tailPart _ _ _ t x left h rest hrest
  · rename_i hzero
    have hzero' := hrest.append_ne (by decide) hzero
    have hwhole := wholeDigits_append 0 s hrest
    generalize hu : s ++ rest = u at hzero' hwhole ⊢
    split
    · exact absurd rfl (hzero' _)
    · rw [hwhole]
      exact extends_tailPart _ _ _ _ x left h rest hrest

theorem extends_read : Extends read := by
  intro s x left h rest hrest
  unfold read at h ⊢
  split at h
  · exact extends_unsigned _ _ x left h rest hrest
  · rename_i hminus
    split
    · rename_i h
      exact absurd h (hrest.append_ne (by decide) hminus _)
    · exact extends_unsigned _ _ x left h rest hrest

section Whole

theorem le_ofDigitChars (ds : List Char) (init : Nat) : init ≤ Nat.ofDigitChars 10 ds init := by
  induction ds generalizing init with
  | nil => exact Nat.le_refl _
  | cons d ds ih =>
    rw [Nat.ofDigitChars_cons]
    exact Nat.le_trans (by omega) (ih _)

theorem wholeDigits_eq {ds : List Char} (hds : ∀ d ∈ ds, isDigit d = true) {significand : Nat}
    (hfits : Nat.ofDigitChars 10 ds significand < UInt64.size) :
    wholeDigits significand ds = (Nat.ofDigitChars 10 ds significand, 0, []) := by
  induction ds generalizing significand with
  | nil => rfl
  | cons d ds ih =>
    obtain ⟨hd, hds⟩ := List.forall_mem_cons.1 hds
    have hnext : significand * 10 + digitValue d = 10 * significand + (d.toNat - '0'.toNat) := by
      rw [Nat.mul_comm, digitValue]
    rw [Nat.ofDigitChars_cons] at hfits ⊢
    have hlt := Nat.lt_of_le_of_lt (le_ofDigitChars ds _) hfits
    rw [wholeDigits, if_pos hd]
    simp only [hnext, fits, hlt, decide_true, if_true]
    exact ih hds hfits

theorem isDigit_of_mem_natText {n : Nat} {c : Char} (hc : c ∈ natText n) : isDigit c = true :=
  Nat.isDigit_of_mem_toDigits (by decide) (by decide) hc

theorem exists_natText_eq_cons (n : Nat) : ∃ d ds, natText n = d :: ds ∧ isDigit d = true := by
  cases htext : natText n with
  | nil => exact absurd htext Nat.toDigits_ne_nil
  | cons d ds => exact ⟨d, ds, rfl, isDigit_of_mem_natText (htext ▸ List.mem_cons_self)⟩

/-- Only zero is written with a zero in front. -/
theorem head_natText {n : Nat} (hn : n ≠ 0) : (natText n).head? ≠ some '0' := by
  induction n using Nat.strongRecOn with
  | ind n ih =>
    rw [natText, Decimal.numeral, Nat.toDigits_eq_if (by decide)]
    split
    · rename_i hlt
      rw [List.head?_cons, ne_eq, Option.some.injEq, Nat.digitChar_eq_zero]
      exact hn
    · rename_i hge
      have hdiv : n / 10 ≠ 0 := by omega
      have hhead := ih (n / 10) (by omega) hdiv
      rw [natText, Decimal.numeral] at hhead
      cases htens : Nat.toDigits 10 (n / 10) with
      | nil => exact absurd htens Nat.toDigits_ne_nil
      | cons d ds => rwa [htens] at hhead

theorem needDigit_natText (n : Nat) : needDigit (natText n) = .ok ((), natText n) := by
  obtain ⟨d, ds, htext, hd⟩ := exists_natText_eq_cons n
  rw [htext]
  exact if_pos hd

theorem read_natText {n : Nat} (hn : n < UInt64.size) : read (natText n) = .ok (.whole n, []) := by
  rcases Nat.eq_zero_or_pos n with rfl | hpos
  · rfl
  have hneed := needDigit_natText n
  have hhead := head_natText (Nat.ne_of_gt hpos)
  have hdigit : ∀ c ∈ natText n, isDigit c = true := fun c hc => isDigit_of_mem_natText hc
  have hvalue : Nat.ofDigitChars 10 (natText n) 0 = n :=
    Nat.ofDigitChars_toDigits (by decide) (by decide)
  have hwhole := wholeDigits_eq hdigit (hvalue.symm ▸ hn)
  rw [hvalue] at hwhole
  -- of the text only these facts count from here on
  generalize natText n = text at hneed hhead hdigit hwhole
  unfold read
  split
  · cases hdigit '-' List.mem_cons_self
  · rw [unsigned, bind_of_ok hneed, get_bind]
    split
    · exact absurd rfl hhead
    · rw [hwhole]
      rfl

end Whole

end Number

/-- The reader takes no text. -/
def Refuses {β : Type} (r : Reader β) : Prop := ∀ s y, r s ≠ .ok y

theorem refuses_throw {β : Type} (e : Fault) : Refuses (throw e : Reader β) := nofun

theorem refuses_bind {β γ : Type} (r : Reader β) {f : β → Reader γ} (hf : ∀ x, Refuses (f x)) :
    Refuses (r >>= f) := by
  rintro s ⟨y, left⟩ h
  obtain ⟨x, t, -, hy⟩ := bind_eq_ok_iff.1 h
  exact hf x t _ hy

theorem refuses_wrongType {β : Type} (c : Char) : Refuses (wrongType c : Reader β) := by
  have hend (_ : Unit) : Refuses (throw .mismatch : Reader β) := refuses_throw _
  unfold wrongType
  split
  · exact refuses_bind _ hend
  · exact refuses_bind _ hend
  · exact refuses_bind _ hend
  · exact refuses_bind _ fun _ => refuses_bind _ hend
  · exact hend ()
  · exact hend ()
  · split
    · exact refuses_bind _ hend
    · exact refuses_bind _ hend

theorem opens_of_startsNumber {text : List Char} (h : ∃ c ∈ text.head?, startsNumber c = true) :
    Opens text := by
  obtain ⟨c, hc, hstart⟩ := h
  refine ⟨c, hc, ?_, ?_, ?_, ?_⟩
  · rw [Bool.eq_false_iff]
    intro hb
    simp only [isBlank, Bool.or_eq_true, beq_iff_eq] at hb
    rcases hb with ((rfl | rfl) | rfl) | rfl <;> cases hstart
  all_goals
    rintro rfl
    cases hstart

/-- A number that is read off a text that holds nothing else. -/
theorem reads_number {text : List Char} {n : Number}
    (hstart : ∃ c ∈ text.head?, startsNumber c = true) (h : Number.read text = .ok (n, [])) :
    Reads number text n where
  opens := opens_of_startsNumber hstart
  read rest hrest := by
    obtain ⟨c, hc, hblank, -⟩ := opens_of_startsNumber hstart
    obtain ⟨c', hc', hnumber⟩ := hstart
    cases text with
    | nil => cases hc
    | cons d text =>
      cases hc
      cases hc'
      rw [number, List.cons_append, bind_of_ok (start_cons hblank _), if_pos hnumber]
      exact Number.extends_read _ n [] h rest hrest.stops

theorem reads_uint32 (n : UInt32) : Reads uint32 (natText n.toNat) n := by
  have hlt := n.toNat_lt
  obtain ⟨d, ds, htext, hd⟩ := Number.exists_natText_eq_cons n.toNat
  have hstart : ∃ c ∈ (natText n.toNat).head?, startsNumber c = true :=
    ⟨d, by rw [htext]; rfl, by rw [startsNumber, hd, Bool.or_true]⟩
  have hread := Number.read_natText (Nat.lt_trans hlt (by decide))
  refine (reads_number hstart hread).bind fun rest => ?_
  simp only [UInt32.size, hlt, if_true, UInt32.ofNat_toNat]
  rfl

section Floats

theorem head_positional (d : Decimal) : ∃ c ∈ d.positional.head?, isDigit c = true := by
  obtain ⟨c, cs, htext, hc⟩ := Number.exists_natText_eq_cons d.digits
  rw [natText] at htext
  rw [Decimal.positional, htext]
  split
  · exact ⟨c, rfl, hc⟩
  · simp only
    split
    · rename_i hplaces
      obtain ⟨k, hk⟩ := Nat.exists_eq_succ_of_ne_zero (Nat.sub_ne_zero_of_lt hplaces)
      rw [hk]
      exact ⟨c, rfl, hc⟩
    · exact ⟨'0', rfl, by decide⟩

theorem head_scientific (d : Decimal) : ∃ c ∈ d.scientific.head?, isDigit c = true := by
  obtain ⟨c, cs, htext, hc⟩ := Number.exists_natText_eq_cons d.digits
  rw [natText] at htext
  rw [Decimal.scientific, htext]
  cases cs <;> exact ⟨c, rfl, hc⟩

theorem head_signed (negative : Bool) {text : List Char}
    (h : ∃ c ∈ text.head?, isDigit c = true) :
    ∃ c ∈ (Decimal.signed negative text).head?, startsNumber c = true := by
  cases negative with
  | true => exact ⟨'-', rfl, rfl⟩
  | false =>
    obtain ⟨c, hc, hdigit⟩ := h
    exact ⟨c, hc, by rw [startsNumber, hdigit, Bool.or_true]⟩

theorem opens_floatText (x : Float) : Opens (floatText x) := by
  unfold floatText
  split
  · exact opens_cons _ (by decide) (by decide)
  · exact opens_cons _ (by decide) (by decide)
  · exact opens_of_startsNumber (head_signed _ ⟨'0', rfl, by decide⟩)
  · refine opens_of_startsNumber (head_signed _ ?_)
    split
    · split
      · obtain ⟨c, hc, hdigit⟩ := head_positional (Decimal.shortest .even _ _)
        exact ⟨c, by rw [List.head?_append, Option.mem_def.1 hc]; rfl, hdigit⟩
      · exact head_positional _
    · exact head_scientific _

/-- The text that a number is written as is read as this number, and nothing of it is left. There is
no such text for what is not finite. -/
def ReadsBack (x : Float) : Prop := float (floatText x) = .ok (x, [])

theorem readsBack_half : ReadsBack 0.5 := by
  have hshrink : Number.shrink (Number.ofDigits 5) (-1) = 0.5 := by
    rw [Number.shrink]
    decide
  have hscale : Number.scale? 5 (-1) = some 0.5 := congrArg some hshrink
  have hscaled : Number.scaled false 5 (-1) [] = .ok (.real 0.5, []) := by
    rw [Number.scaled, hscale]
    rfl
  have htext : floatText 0.5 = ['0', '.', '5'] := by decide
  rw [ReadsBack, htext]
  change (Number.scaled false 5 (-1) >>= fun n => pure n.toFloat) [] = _
  rw [bind_of_ok hscaled]
  rfl

theorem reads_float {x : Float} (h : ReadsBack x) : Reads float (floatText x) x := by
  obtain ⟨n, left, hn, hx⟩ := bind_eq_ok_iff.1 h
  cases hx
  obtain ⟨c, hc, hblank, -⟩ := opens_floatText n.toFloat
  generalize floatText n.toFloat = text at hn hc
  cases text with
  | nil => cases hc
  | cons d text =>
    cases hc
    rw [number, bind_of_ok (start_cons hblank _)] at hn
    split at hn
    · rename_i hstart
      exact (reads_number ⟨c, rfl, hstart⟩ hn).bind fun _ => rfl
    · exact absurd hn (refuses_wrongType c _ _)

end Floats

end Ket.Json
