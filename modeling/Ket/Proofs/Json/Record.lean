import Ket.Proofs.Json.Reads

/-! Reading of lists, and of records by position, that were written without blanks. Each round of a
loop takes one item together with the comma in front of it, so a loop reads what its rounds read. -/

namespace Ket.Json

variable {β : Type}

section Separated

theorem separated_cons (text : List Char) (texts : List (List Char)) :
    separated (text :: texts) = text ++ texts.flatMap (',' :: ·) := by
  induction texts generalizing text with
  | nil => simp [separated]
  | cons t texts ih => rw [separated, ih, List.flatMap_cons, List.cons_append]; simp

theorem length_le_flatMap (texts : List (List Char)) :
    texts.length ≤ (texts.flatMap (',' :: ·)).length := by
  induction texts with
  | nil => exact Nat.le_refl _
  | cons t texts ih =>
    rw [List.flatMap_cons, List.length_append, List.length_cons, List.length_cons]
    omega

theorem follows_flatMap (texts : List (List Char)) {rest : List Char} (h : Follows rest) :
    Follows (texts.flatMap (',' :: ·) ++ rest) := by
  cases texts with
  | nil => exact h
  | cons t texts => exact follows_comma _

end Separated

section Lists

theorem nextItem_close (isFirst : Bool) (rest : List Char) :
    nextItem isFirst (']' :: rest) = .ok (false, ']' :: rest) := by
  rw [nextItem, bind_of_ok (peek_cons (by decide) rest)]
  rfl

theorem nextItem_first {text : List Char} (h : Opens text) (rest : List Char) :
    nextItem true (text ++ rest) = .ok (true, text ++ rest) := by
  obtain ⟨c, hc, hb, hcomma, hclose, -⟩ := h
  cases text with
  | nil => cases hc
  | cons d text =>
    cases hc
    rw [nextItem, List.cons_append, bind_of_ok (peek_cons hb _)]
    generalize hfirst : some c = first
    split
    · cases hfirst
    · cases hfirst
      exact absurd rfl hclose
    · cases hfirst
      exact absurd rfl hcomma
    · rfl

theorem nextItem_later {text : List Char} (h : Opens text) (rest : List Char) :
    nextItem false (',' :: (text ++ rest)) = .ok (true, text ++ rest) := by
  obtain ⟨c, hc, hb, -, hclose, -⟩ := h
  cases text with
  | nil => cases hc
  | cons d text =>
    cases hc
    rw [nextItem, bind_of_ok (peek_cons (by decide) _)]
    simp only [Bool.false_eq_true, if_false]
    rw [bind_of_ok (advance_cons _ _), List.cons_append, bind_of_ok (peek_cons hb _)]
    generalize hfirst : some c = first
    split
    · cases hfirst
    · cases hfirst
      exact absurd rfl hclose
    · rfl

variable {item : Reader β} {text : β → List Char} {xs : List β}

theorem itemsLoop_later (h : ∀ x ∈ xs, Reads item (text x) x) {fuel : Nat}
    (hf : xs.length < fuel) (taken : Array β) (rest : List Char) :
    itemsLoop item fuel false taken ((xs.map text).flatMap (',' :: ·) ++ ']' :: rest) =
      .ok (taken ++ xs.toArray, ']' :: rest) := by
  induction xs generalizing fuel taken with
  | nil =>
    obtain ⟨fuel, rfl⟩ := Nat.exists_eq_succ_of_ne_zero (Nat.ne_of_gt hf)
    simp [itemsLoop, nextItem_close]
  | cons x xs ih =>
    obtain ⟨fuel, rfl⟩ := Nat.exists_eq_succ_of_ne_zero (Nat.ne_of_gt (Nat.zero_lt_of_lt hf))
    obtain ⟨hx, hxs⟩ := List.forall_mem_cons.1 h
    have hread := hx.read _ (follows_flatMap (xs.map text) (follows_bracket rest))
    have hloop := ih hxs (Nat.lt_of_succ_lt_succ hf) (taken.push x)
    rw [List.map_cons, List.flatMap_cons, List.append_assoc, List.cons_append, itemsLoop,
      nextItem_later hx.opens]
    simp only [hread, hloop]
    simp

theorem items_eq (h : ∀ x ∈ xs, Reads item (text x) x) (rest : List Char) :
    items item (separated (xs.map text) ++ ']' :: rest) = .ok (xs.toArray, ']' :: rest) := by
  cases xs with
  | nil => simp [items, separated, itemsLoop, nextItem_close]
  | cons x xs =>
    obtain ⟨hx, hxs⟩ := List.forall_mem_cons.1 h
    have hread := hx.read _ (follows_flatMap (xs.map text) (follows_bracket rest))
    have hpos := List.length_pos_iff.2 hx.opens.ne_nil
    have hlength := length_le_flatMap (xs.map text)
    rw [List.length_map] at hlength
    rw [items, List.map_cons, separated_cons, List.append_assoc, itemsLoop,
      nextItem_first hx.opens]
    simp only [hread]
    rw [itemsLoop_later hxs]
    · simp
    · simp only [List.length_append]
      omega

theorem reads_list (h : ∀ x ∈ xs, Reads item (text x) x) :
    Reads (list item) (arrayText (xs.map text)) xs.toArray where
  opens := opens_cons _ (by decide) (by decide)
  read rest _ := by
    have htext : arrayText (xs.map text) ++ rest =
        '[' :: (separated (xs.map text) ++ ']' :: rest) := by
      simp [arrayText]
    rw [htext, list, bind_of_ok (start_cons (by decide) _)]
    simp only
    rw [bind_of_ok (advance_cons _ _), bind_of_ok (items_eq h rest),
      bind_of_ok (mark_cons (by decide) rest)]
    rfl

end Lists

theorem complete_eq {σ : Type} {finish : σ → Option β} {draft : σ} {x : β}
    (h : finish draft = some x) (s : List Char) : complete finish draft s = .ok (x, s) := by
  rw [complete, h]
  rfl

section Tuples

variable {σ : Type}

/-- Reading items with these texts, one for each field, turns the first draft into the last one. -/
inductive Places : List (Field σ) → σ → List (List Char) → σ → Prop
  | nil (draft : σ) : Places [] draft [] draft
  | cons {draft next last : σ} {field : Field σ} {fields : List (Field σ)} {text : List Char}
      {texts : List (List Char)} (reads : Reads (field.read draft) text next)
      (rest : Places fields next texts last) :
      Places (field :: fields) draft (text :: texts) last

theorem positions_later {fields : List (Field σ)} {draft last : σ} {texts : List (List Char)}
    (h : Places fields draft texts last) (rest : List Char) :
    positions false draft fields (texts.flatMap (',' :: ·) ++ ']' :: rest) =
      .ok (last, ']' :: rest) := by
  induction h with
  | nil => rfl
  | @cons draft next last field fields text texts reads h ih =>
    have hfollows := follows_flatMap texts (follows_bracket rest)
    rw [List.flatMap_cons, List.append_assoc, List.cons_append, positions,
      bind_of_ok (nextItem_later reads.opens _)]
    simp only [if_true]
    rw [bind_of_ok (reads.read _ hfollows), ih]

theorem positions_eq {fields : List (Field σ)} {draft last : σ} {texts : List (List Char)}
    (h : Places fields draft texts last) (rest : List Char) :
    positions true draft fields (separated texts ++ ']' :: rest) = .ok (last, ']' :: rest) := by
  cases h with
  | nil => rfl
  | @cons _ next _ field fields text texts reads h =>
    have hfollows := follows_flatMap texts (follows_bracket rest)
    rw [separated_cons, List.append_assoc, positions, bind_of_ok (nextItem_first reads.opens _)]
    simp only [if_true]
    rw [bind_of_ok (reads.read _ hfollows), positions_later h]

theorem reads_tuple {fields : List (Field σ)} {empty last : σ} {texts : List (List Char)}
    {finish : σ → Option β} {x : β} (h : Places fields empty texts last)
    (hfinish : finish last = some x) :
    Reads (tuple fields empty finish) (arrayText texts) x where
  opens := opens_cons _ (by decide) (by decide)
  read rest _ := by
    have htext : arrayText texts ++ rest = '[' :: (separated texts ++ ']' :: rest) := by
      simp [arrayText]
    rw [htext, tuple, bind_of_ok (start_cons (by decide) _)]
    simp only
    rw [bind_of_ok (advance_cons _ _), bind_of_ok (positions_eq h rest),
      bind_of_ok (complete_eq hfinish _), bind_of_ok (mark_cons (by decide) rest)]
    rfl

end Tuples

end Ket.Json
