import Ket.Proofs.Json.Grammar
import Ket.Proofs.Json.Number
import Ket.Proofs.Json.Record

/-! Skipping takes values off the front of a text. From the state in which a value is wanted, the
machine gets to the state behind it with the same arrays and objects open as before, however deep
the value is, and it leaves what does not belong to the value. -/

namespace Ket.Json

theorem IsNumber.opens {text : List Char} (h : IsNumber text) : Opens text := by
  obtain ⟨hs, hw, -, -⟩ := h
  refine opens_of_startsNumber ?_
  rcases hs with rfl | rfl
  · cases hw with
    | zero => exact ⟨'0', rfl, rfl⟩
    | @digits c ds _ hds =>
      refine ⟨c, rfl, ?_⟩
      rw [startsNumber, hds c List.mem_cons_self, Bool.or_true]
  · exact ⟨'-', rfl, rfl⟩

theorem IsValue.opens {text : List Char} (h : IsValue text) : Opens text := by
  cases h with
  | word hw =>
    simp only [List.mem_cons, List.not_mem_nil, or_false] at hw
    rcases hw with rfl | rfl | rfl <;> exact opens_cons _ (by decide) (by decide)
  | number h => exact h.opens
  | _ => exact opens_cons _ (by decide) (by decide)

namespace Skip

variable {frames : List Frame} {rest : List Char}

/-- A character that extends what was seen. -/
theorem run_cons {state state' : Skip} {frames' : List Frame} {c : Char} {s : List Char}
    (h : extend? state frames c s = .ok (some (state', frames'))) :
    run state frames (c :: s) = run state' frames' s := by
  rw [run.eq_def]
  simp only [h]

/-- A character behind a value in an array or object. -/
theorem run_after_cons {frame : Frame} {state : Skip} {frames' : List Frame} {c : Char}
    {s : List Char} (h : continue? frame frames c = some (state, frames')) :
    run after (frame :: frames) (c :: s) = run state frames' s := by
  rw [run.eq_def]
  simp only [extend?, isComplete, if_true, h]

theorem isBlank_of_isDigit {c : Char} (hc : isDigit c = true) : isBlank c = false := by
  have hstart : startsNumber c = true := by rw [startsNumber, hc, Bool.or_true]
  obtain ⟨d, hd, hblank, -⟩ : Opens [c] := opens_of_startsNumber ⟨c, rfl, hstart⟩
  cases hd
  exact hblank

/-- Nothing is read behind a value in no array or object. -/
theorem run_after_nil (rest : List Char) : run after [] rest = .ok ((), rest) := by
  cases rest <;> rfl

section Blanks

/-- Where something is still wanted, blanks change nothing. -/
theorem run_gap {state : Skip} (hstate : state ∈ [value, firstItem, firstKey, key, colon])
    (gap : Gap) (s : List Char) : run state frames (gap.text ++ s) = run state frames s := by
  obtain ⟨text, hblank⟩ := gap
  induction text with
  | nil => rfl
  | cons c text ih =>
    obtain ⟨hc, htext⟩ := List.forall_mem_cons.1 hblank
    refine (run_cons ?_).trans (ih htext)
    simp only [List.mem_cons, List.not_mem_nil, or_false] at hstate
    rcases hstate with rfl | rfl | rfl | rfl | rfl <;> simp only [extend?, begin?, hc, if_true]

theorem run_after_gap (frame : Frame) (gap : Gap) (s : List Char) :
    run after (frame :: frames) (gap.text ++ s) = run after (frame :: frames) s := by
  obtain ⟨text, hblank⟩ := gap
  induction text with
  | nil => rfl
  | cons c text ih =>
    obtain ⟨hc, htext⟩ := List.forall_mem_cons.1 hblank
    exact (run_after_cons (by simp only [continue?, hc, if_true])).trans (ih htext)

end Blanks

theorem run_word {w : Char} {ws : List Char} (s : List Char) :
    run (word (w :: ws)) frames (w :: (ws ++ s)) = run after frames s := by
  induction ws generalizing w with
  | nil => exact run_cons (by simp [extend?])
  | cons v ws ih => exact (run_cons (by simp [extend?])).trans ih

section Numbers

/-- A number that is complete ends where no number goes on. -/
theorem run_of_stops {state : Skip} (hstate : state ∈ [zero, digits, fraction, exponentDigits])
    (h : Stops rest) : run state frames rest = run after frames rest := by
  simp only [List.mem_cons, List.not_mem_nil, or_false] at hstate
  cases rest with
  | nil => rcases hstate with rfl | rfl | rfl | rfl <;> rfl
  | cons c rest =>
    obtain ⟨hdigit, hmark⟩ := h c rfl
    simp only [List.mem_cons, List.not_mem_nil, or_false, not_or] at hmark
    rcases hstate with rfl | rfl | rfl | rfl <;>
      simp only [run, extend?, hdigit, hmark, isComplete, Bool.false_eq_true, if_false, or_self,
        if_true]

/-- Digits change nothing where they keep the state. -/
theorem run_digits {state : Skip} (hstate : state ∈ [digits, fraction, exponentDigits])
    {ds : List Char} (hds : ∀ d ∈ ds, isDigit d = true) (s : List Char) :
    run state frames (ds ++ s) = run state frames s := by
  induction ds with
  | nil => rfl
  | cons d ds ih =>
    obtain ⟨hd, hds⟩ := List.forall_mem_cons.1 hds
    refine (run_cons ?_).trans (ih hds)
    simp only [List.mem_cons, List.not_mem_nil, or_false] at hstate
    rcases hstate with rfl | rfl | rfl <;> simp only [extend?, hd, if_true]

theorem run_exponent {text : List Char} (ht : IsExponent text) {state : Skip}
    (hstate : state ∈ [zero, digits, fraction]) (h : Stops rest) :
    run state frames (text ++ rest) = run after frames rest := by
  simp only [List.mem_cons, List.not_mem_nil, or_false] at hstate
  cases ht with
  | none => exact run_of_stops (by rcases hstate with rfl | rfl | rfl <;> decide) h
  | @digits e sign c s he hsign hds =>
    obtain ⟨hc, hs⟩ := List.forall_mem_cons.1 hds
    have hletter : run state frames (e :: (sign ++ c :: s) ++ rest) =
        run exponent frames (sign ++ c :: s ++ rest) := by
      refine run_cons ?_
      rcases he with rfl | rfl <;> rcases hstate with rfl | rfl | rfl <;> rfl
    have hdigit : run exponent frames (sign ++ c :: s ++ rest) =
        run exponentDigits frames (s ++ rest) := by
      rcases hsign with rfl | rfl | rfl
      · exact run_cons (by simp only [extend?, hc, if_true])
      all_goals
        refine (run_cons rfl).trans (run_cons ?_)
        simp only [extend?, hc, if_true]
    rw [hletter, hdigit, run_digits (by decide) hs, run_of_stops (by decide) h]

theorem run_fraction {text text' : List Char} (ht : IsFraction text) (ht' : IsExponent text')
    {state : Skip} (hstate : state ∈ [zero, digits]) (h : Stops rest) :
    run state frames (text ++ (text' ++ rest)) = run after frames rest := by
  simp only [List.mem_cons, List.not_mem_nil, or_false] at hstate
  cases ht with
  | none => exact run_exponent ht' (by rcases hstate with rfl | rfl <;> decide) h
  | @digits c s hds =>
    obtain ⟨hc, hs⟩ := List.forall_mem_cons.1 hds
    have hpoint : run state frames ('.' :: c :: s ++ (text' ++ rest)) =
        run point frames (c :: (s ++ (text' ++ rest))) := by
      refine run_cons ?_
      rcases hstate with rfl | rfl <;> rfl
    have hdigit : run point frames (c :: (s ++ (text' ++ rest))) =
        run fraction frames (s ++ (text' ++ rest)) :=
      run_cons (by simp only [extend?, hc, if_true])
    rw [hpoint, hdigit, run_digits (by decide) hs, run_exponent ht' (by decide) h]

theorem run_whole {text : List Char} (ht : IsWhole text) {state : Skip}
    (hstate : state ∈ [value, sign]) (s : List Char) :
    ∃ next ∈ [zero, digits], run state frames (text ++ s) = run next frames s := by
  simp only [List.mem_cons, List.not_mem_nil, or_false] at hstate
  cases ht with
  | zero =>
    refine ⟨zero, by decide, run_cons ?_⟩
    rcases hstate with rfl | rfl <;> rfl
  | @digits c ds hzero hds =>
    obtain ⟨hc, hds⟩ := List.forall_mem_cons.1 hds
    have hblank := isBlank_of_isDigit hc
    refine ⟨digits, by decide, (run_cons ?_).trans (run_digits (by decide) hds s)⟩
    rcases hstate with rfl | rfl <;>
      simp only [extend?, begin?, hblank, hzero, hc, Bool.false_eq_true, if_false, if_true]

theorem run_number {text : List Char} (ht : IsNumber text) (h : Stops rest) :
    run value frames (text ++ rest) = run after frames rest := by
  obtain ⟨hs, hw, hf, he⟩ := ht
  rename_i sign whole fraction exponent
  have hrest {state : Skip} (hstate : state ∈ [value, Skip.sign]) :
      run state frames (whole ++ (fraction ++ (exponent ++ rest))) = run after frames rest := by
    obtain ⟨next, hnext, hwhole⟩ := run_whole hw hstate (fraction ++ (exponent ++ rest))
    rw [hwhole, run_fraction hf he hnext h]
  simp only [List.append_assoc]
  rcases hs with rfl | rfl
  · exact hrest (by decide)
  · exact (run_cons rfl).trans (hrest (by decide))

end Numbers

section Strings

theorem run_hex {c : Char} {w : Nat} (hc : hexValue? c = some w) (isKey : Bool) (left : Nat)
    (s : List Char) : run (hex isKey left) frames (c :: s) =
      run (if left ≤ 1 then .text isKey else hex isKey (left - 1)) frames s :=
  run_cons (by simp only [extend?, hc, Option.isNone_some, Bool.false_eq_true, if_false])

/-- An escape by number, after its `u`. -/
theorem run_unit {text : List Char} {u : Nat} (hu : IsUnit text u) (isKey : Bool) (s : List Char) :
    run (escape isKey) frames ('u' :: (text ++ s)) = run (.text isKey) frames s := by
  cases hu with
  | @digits a b c d w x y z ha hb hc hd =>
    have hroom := holdsFourBytes_cons a b c d s
    calc run (escape isKey) frames ('u' :: a :: b :: c :: d :: s)
      _ = run (hex isKey 4) frames (a :: b :: c :: d :: s) :=
        run_cons (by simp only [extend?, hroom, if_true])
      _ = run (hex isKey 3) frames (b :: c :: d :: s) := run_hex ha isKey 4 _
      _ = run (hex isKey 2) frames (c :: d :: s) := run_hex hb isKey 3 _
      _ = run (hex isKey 1) frames (d :: s) := run_hex hc isKey 2 _
      _ = run (.text isKey) frames s := run_hex hd isKey 1 s

theorem run_text {text : List Char} (ht : IsString text) (isKey : Bool) (s : List Char) :
    run (.text isKey) frames (text ++ '"' :: s) =
      run (if isKey then colon else after) frames s := by
  induction ht with
  | nil => exact run_cons rfl
  | @plain c text hc h ih =>
    obtain ⟨⟨hquote, hslash⟩, hcontrol⟩ : (c ≠ '"' ∧ c ≠ '\\') ∧ isControl c = false := by
      simpa [isPlain] using hc
    refine (run_cons ?_).trans ih
    simp only [extend?, hquote, hslash, hcontrol, Bool.false_eq_true, if_false]
  | @simple c x text hc h ih =>
    refine (run_cons rfl).trans ((run_cons ?_).trans ih)
    have hu : c ≠ 'u' := by
      rintro rfl
      cases hc
    simp only [extend?, hu, hc, Option.isSome_some, if_false, if_true]
  | unit hu h ih =>
    refine (run_cons rfl).trans ?_
    simp only [List.append_eq, List.cons_append, List.append_assoc]
    rw [run_unit hu, ih]

end Strings

section Values

/-- Wherever the text stands, the machine gets behind it with the same arrays and objects open. -/
def Skips (text : List Char) : Prop :=
  ∀ (frames : List Frame) (rest : List Char), Follows rest →
    run value frames (text ++ rest) = run after frames rest

theorem skips_word {w : String} (hw : w ∈ ["null", "true", "false"]) : Skips w.toList := by
  rintro frames rest -
  simp only [List.mem_cons, List.not_mem_nil, or_false] at hw
  rcases hw with rfl | rfl | rfl <;> exact (run_cons rfl).trans (run_word rest)

theorem skips_number {text : List Char} (h : IsNumber text) : Skips text :=
  fun _ _ hrest => run_number h hrest.stops

theorem skips_string {text : List Char} (h : IsString text) : Skips ('"' :: (text ++ ['"'])) := by
  rintro frames rest -
  rw [List.cons_append, List.append_assoc]
  exact (run_cons rfl).trans (run_text h false rest)

theorem run_item {frame : Frame} {i : Item} (hi : Skips i.value) (hrest : Follows rest) :
    run value (frame :: frames) (i.text ++ rest) = run after (frame :: frames) rest := by
  simp only [Item.text, List.append_assoc]
  rw [run_gap (by decide), hi _ _ (i.after.follows hrest), run_after_gap]

/-- Where an array begins, a value is skipped as anywhere else. -/
theorem run_firstItem {text : List Char} (h : Opens text) (s : List Char) :
    run firstItem frames (text ++ s) = run value frames (text ++ s) := by
  obtain ⟨c, hc, hblank, -, hclose, -⟩ := h
  cases text with
  | nil => cases hc
  | cons d text =>
    cases hc
    rw [List.cons_append, run.eq_def, run.eq_def value]
    simp only [extend?, hblank, hclose, Bool.false_eq_true, if_false, isComplete]

theorem run_items {items : List Item} (h : ∀ i ∈ items, Skips i.value) (rest : List Char) :
    run after (.array :: frames) ((items.map (·.text)).flatMap (',' :: ·) ++ ']' :: rest) =
      run after frames rest := by
  induction items with
  | nil => exact run_after_cons rfl
  | cons i items ih =>
    obtain ⟨hi, hitems⟩ := List.forall_mem_cons.1 h
    have hfollows := follows_flatMap (items.map (·.text)) (follows_bracket rest)
    simp only [List.map_cons, List.flatMap_cons, List.append_assoc, List.cons_append]
    rw [run_after_cons rfl, run_item hi hfollows, ih hitems]

theorem skips_array (gap : Gap) {items : List Item}
    (h : ∀ i ∈ items, Opens i.value ∧ Skips i.value) : Skips (bracketedText gap items) := by
  rintro frames rest -
  have hopen (s : List Char) :
      run value frames ('[' :: s) = run firstItem (.array :: frames) s := run_cons rfl
  simp only [bracketedText, List.cons_append, List.append_assoc, List.nil_append]
  rw [hopen, run_gap (by decide)]
  cases items with
  | nil => exact run_cons rfl
  | cons i items =>
    obtain ⟨⟨hopens, hi⟩, hitems⟩ := List.forall_mem_cons.1 h
    have hfollows := follows_flatMap (items.map (·.text)) (follows_bracket rest)
    have hfirst (s : List Char) : run firstItem (.array :: frames) (i.text ++ s) =
        run value (.array :: frames) (i.text ++ s) := by
      simp only [Item.text, List.append_assoc]
      rw [run_gap (by decide), run_gap (by decide), run_firstItem hopens]
    rw [List.map_cons, separated_cons, List.append_assoc, hfirst, run_item hi hfollows,
      run_items fun i hi => (hitems i hi).2]

/-- A member from the blanks before its key on, where a first key or another one is wanted. -/
theorem run_member {state : Skip} (hstate : state ∈ [firstKey, key]) {m : Member}
    (hkey : IsString m.key) (hvalue : Skips m.item.value) {frame : Frame} (hrest : Follows rest) :
    run state (frame :: frames) (m.text ++ rest) = run after (frame :: frames) rest := by
  have hquote (s : List Char) :
      run state (frame :: frames) ('"' :: s) = run (.text true) (frame :: frames) s := by
    simp only [List.mem_cons, List.not_mem_nil, or_false] at hstate
    rcases hstate with rfl | rfl <;> exact run_cons rfl
  have hcolon (s : List Char) :
      run colon (frame :: frames) (':' :: s) = run value (frame :: frames) s := run_cons rfl
  have hgap : state ∈ [value, firstItem, firstKey, key, colon] := by
    simp only [List.mem_cons, List.not_mem_nil, or_false] at hstate
    rcases hstate with rfl | rfl <;> decide
  simp only [Member.text, List.append_assoc, List.cons_append]
  rw [run_gap hgap, hquote, run_text hkey true, if_pos rfl, run_gap (by decide), hcolon,
    run_item hvalue hrest]

theorem run_members {members : List Member}
    (h : ∀ m ∈ members, IsString m.key ∧ Skips m.item.value) (rest : List Char) :
    run after (.object :: frames) ((members.map (·.text)).flatMap (',' :: ·) ++ '}' :: rest) =
      run after frames rest := by
  induction members with
  | nil => exact run_after_cons rfl
  | cons m members ih =>
    obtain ⟨⟨hkey, hvalue⟩, hmembers⟩ := List.forall_mem_cons.1 h
    have hfollows := follows_flatMap (members.map (·.text)) (follows_brace rest)
    simp only [List.map_cons, List.flatMap_cons, List.append_assoc, List.cons_append]
    rw [run_after_cons rfl, run_member (by decide) hkey hvalue hfollows, ih hmembers]

theorem skips_object (gap : Gap) {members : List Member}
    (h : ∀ m ∈ members, IsString m.key ∧ Skips m.item.value) : Skips (bracedText gap members) := by
  rintro frames rest -
  have hopen (s : List Char) :
      run value frames ('{' :: s) = run firstKey (.object :: frames) s := run_cons rfl
  simp only [bracedText, List.cons_append, List.append_assoc, List.nil_append]
  rw [hopen, run_gap (by decide)]
  cases members with
  | nil => exact run_cons rfl
  | cons m members =>
    obtain ⟨⟨hkey, hvalue⟩, hmembers⟩ := List.forall_mem_cons.1 h
    have hfollows := follows_flatMap (members.map (·.text)) (follows_brace rest)
    rw [List.map_cons, separated_cons, List.append_assoc,
      run_member (by decide) hkey hvalue hfollows, run_members hmembers]

theorem skips_value {text : List Char} (h : IsValue text) : Skips text := by
  induction h with
  | word hw => exact skips_word hw
  | number h => exact skips_number h
  | string h => exact skips_string h
  | array gap h ih => exact skips_array gap fun i hi => ⟨(h i hi).opens, ih i hi⟩
  | object gap hkeys _ ih => exact skips_object gap fun m hm => ⟨hkeys m hm, ih m hm⟩

end Values

end Skip

/-- A value is skipped as a whole, and nothing behind it is. -/
theorem skipValue_item (i : Item) (h : IsValue i.value) {rest : List Char} (hrest : Follows rest) :
    skipValue (i.before.text ++ (i.value ++ rest)) = .ok ((), rest) := by
  rw [skipValue, Skip.run_gap (by decide), Skip.skips_value h _ _ hrest, Skip.run_after_nil]

end Ket.Json
