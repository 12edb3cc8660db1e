import Ket.Json.Document
import Ket.Proofs.Json.Grammar

/-! What it means that a reader takes a text for a value: wherever the text stands in a document,
the reader takes this text off the front, gives the value and leaves the rest. Documents are put
together from such texts, so a larger text is read in full because its parts are. -/

namespace Ket.Json

variable {β γ : Type}

/-- What may come behind a value: nothing, a blank, or a mark that no value goes on with. -/
def Follows (rest : List Char) : Prop :=
  ∀ c ∈ rest.head?, isBlank c = true ∨ c = ',' ∨ c = ']' ∨ c = '}'

/-- The text begins at once, and not with a mark that ends or separates values. -/
def Opens (text : List Char) : Prop :=
  ∃ c ∈ text.head?, isBlank c = false ∧ c ≠ ',' ∧ c ≠ ']' ∧ c ≠ '}'

structure Reads (r : Reader β) (text : List Char) (x : β) : Prop where
  opens : Opens text
  read : ∀ rest, Follows rest → r (text ++ rest) = .ok (x, rest)

theorem follows_nil : Follows [] := by simp [Follows]

theorem follows_comma (s : List Char) : Follows (',' :: s) := by simp [Follows]

theorem follows_bracket (s : List Char) : Follows (']' :: s) := by simp [Follows]

theorem follows_brace (s : List Char) : Follows ('}' :: s) := by simp [Follows]

theorem opens_cons {c : Char} (s : List Char) (hb : isBlank c = false)
    (hm : c ≠ ',' ∧ c ≠ ']' ∧ c ≠ '}') : Opens (c :: s) := ⟨c, rfl, hb, hm⟩

theorem Opens.ne_nil {text : List Char} (h : Opens text) : text ≠ [] := by
  obtain ⟨c, hc, -⟩ := h
  rintro rfl
  cases hc

/-- What comes next is read from what the first reader leaves. -/
theorem bind_of_ok {r : Reader β} {f : β → Reader γ} {s s' : List Char} {x : β}
    (h : r s = .ok (x, s')) : (r >>= f) s = f x s' := by
  change (r s >>= fun p => f p.1 p.2) = _
  rw [h]
  rfl

theorem bind_of_error {r : Reader β} {f : β → Reader γ} {s : List Char} {e : Fault}
    (h : r s = .error e) : (r >>= f) s = .error e := by
  change (r s >>= fun p => f p.1 p.2) = _
  rw [h]
  rfl

theorem bind_eq_ok_iff {r : Reader β} {f : β → Reader γ} {s s' : List Char} {y : γ} :
    (r >>= f) s = .ok (y, s') ↔ ∃ x t, r s = .ok (x, t) ∧ f x t = .ok (y, s') := by
  change (r s >>= fun p => f p.1 p.2) = _ ↔ _
  cases r s with
  | error e => exact ⟨nofun, nofun⟩
  | ok p =>
    refine ⟨fun h => ⟨p.1, p.2, rfl, h⟩, ?_⟩
    rintro ⟨x, t, hp, h⟩
    cases hp
    exact h

/-- What is made of a value without reading on. -/
theorem Reads.bind {r : Reader β} {text : List Char} {x : β} (h : Reads r text x)
    {f : β → Reader γ} {y : γ} (hf : ∀ rest, f x rest = .ok (y, rest)) :
    Reads (r >>= f) text y where
  opens := h.opens
  read rest hrest := by rw [bind_of_ok (h.read rest hrest), hf]

section Marks

theorem peek_cons {c : Char} (hc : isBlank c = false) (s : List Char) :
    peek (c :: s) = .ok (some c, c :: s) := by
  rw [peek, List.dropWhile_cons_of_neg (by simp [hc])]
  rfl

theorem advance_cons (c : Char) (s : List Char) : advance (c :: s) = .ok ((), s) := rfl

theorem start_cons {c : Char} (hc : isBlank c = false) (s : List Char) :
    start (c :: s) = .ok (c, c :: s) := bind_of_ok (peek_cons hc s)

theorem mark_cons {m : Char} (hm : isBlank m = false) (s : List Char) :
    mark m (m :: s) = .ok ((), s) := by
  rw [mark, bind_of_ok (peek_cons hm s)]
  simp only [↓reduceIte]
  rfl

theorem finish_nil : finish [] = .ok ((), []) := rfl

end Marks

theorem Reads.document {r : Reader β} {text : List Char} {x : β} (h : Reads r text x) :
    document r (String.ofList text) = .ok x := by
  have hread : (do let x ← r; finish; return x : Reader β) text = .ok (x, []) := by
    have h' := h.read [] follows_nil
    rw [List.append_nil] at h'
    rw [bind_of_ok h', bind_of_ok finish_nil]
    rfl
  rw [Json.document, String.toList_ofList, hread]

section Blanks

theorem Gap.follows (gap : Gap) {rest : List Char} (h : Follows rest) :
    Follows (gap.text ++ rest) := by
  obtain ⟨text, hblank⟩ := gap
  cases text with
  | nil => exact h
  | cons c text =>
    intro d hd
    cases hd
    exact .inl (hblank c List.mem_cons_self)

/-- Blanks in front of a text make no difference. -/
def IgnoresBlanks (r : Reader β) : Prop :=
  ∀ (gap : Gap) (s : List Char), r (gap.text ++ s) = r s

theorem ignoresBlanks_peek : IgnoresBlanks peek := fun gap s => by
  simp only [peek, List.dropWhile_append_of_pos gap.blank]

theorem IgnoresBlanks.bind {r : Reader β} (h : IgnoresBlanks r) (f : β → Reader γ) :
    IgnoresBlanks (r >>= f) := by
  intro gap s
  change (r (gap.text ++ s) >>= fun p => f p.1 p.2) = _
  rw [h gap s]
  rfl

theorem ignoresBlanks_start : IgnoresBlanks start := ignoresBlanks_peek.bind _

theorem ignoresBlanks_mark (m : Char) : IgnoresBlanks (mark m) := ignoresBlanks_peek.bind _

theorem ignoresBlanks_finish : IgnoresBlanks finish := ignoresBlanks_peek.bind _

theorem ignoresBlanks_uint32 : IgnoresBlanks uint32 := (ignoresBlanks_start.bind _).bind _

theorem ignoresBlanks_bool : IgnoresBlanks bool := ignoresBlanks_start.bind _

theorem ignoresBlanks_nextKey (isFirst : Bool) : IgnoresBlanks (nextKey isFirst) :=
  ignoresBlanks_peek.bind _

end Blanks

section Strings

/-- Whatever stands there, four characters are room enough. -/
theorem holdsFourBytes_cons (a b c d : Char) (s : List Char) :
    holdsFourBytes (a :: b :: c :: d :: s) = true := by
  have ha := a.utf8Size_pos
  have hb := b.utf8Size_pos
  have hc := c.utf8Size_pos
  have hd := d.utf8Size_pos
  refine decide_eq_true ?_
  simp only [List.take_succ_cons, List.take_zero, List.foldl_cons, List.foldl_nil]
  omega

theorem hexUnit_eq {text : List Char} {u : Nat} (h : IsUnit text u) (rest : List Char) :
    hexUnit (text ++ rest) = .ok (u, rest) := by
  cases h with
  | @digits a b c d w x y z ha hb hc hd =>
    have hvalue : ((w * 16 + x) * 16 + y) * 16 + z = w * 0x1000 + x * 0x100 + y * 0x10 + z := by
      omega
    simp only [List.cons_append, List.nil_append, hexUnit, holdsFourBytes_cons, if_true, ha, hb,
      hc, hd, hvalue]

theorem unicodeEscape_unit {text : List Char} {u : Nat} (h : IsUnit text u)
    (hl : isLeading u = false) (ht : isTrailing u = false) (rest : List Char) :
    unicodeEscape (text ++ rest) = .ok (.ofNat u, rest) := by
  rw [unicodeEscape, bind_of_ok (hexUnit_eq h rest)]
  simp only [hl, ht, Bool.false_eq_true, if_false]
  rfl

theorem unicodeEscape_pair {text text' : List Char} {u v : Nat} (h : IsUnit text u)
    (hl : isLeading u = true) (h' : IsUnit text' v) (ht : isTrailing v = true) (rest : List Char) :
    unicodeEscape (text ++ '\\' :: 'u' :: (text' ++ rest)) =
      .ok (.ofNat (0x10000 + (u - 0xD800) * 0x400 + (v - 0xDC00)), rest) := by
  have hfirst : isTrailing u = false := by
    simp only [isLeading, isTrailing, Bool.and_eq_true, decide_eq_true_eq, Bool.and_eq_false_iff,
      decide_eq_false_iff_not] at hl ⊢
    omega
  have hword (s : List Char) : word ['\\', 'u'] ('\\' :: 'u' :: s) = .ok ((), s) := rfl
  have hvalue : (u - 0xD800) * 0x400 + (v - 0xDC00) + 0x10000 =
      0x10000 + (u - 0xD800) * 0x400 + (v - 0xDC00) := by
    omega
  rw [unicodeEscape, bind_of_ok (hexUnit_eq h _)]
  simp only [hl, hfirst, Bool.false_eq_true, if_false, if_true]
  rw [bind_of_ok (hword _), bind_of_ok (hexUnit_eq h' rest), if_pos ht, hvalue]
  rfl

theorem stringLoop_simple {c x : Char} (hc : simpleEscape? c = some x) (fuel : Nat)
    (taken s : List Char) :
    stringLoop (fuel + 1) taken ('\\' :: c :: s) = stringLoop fuel (x :: taken) s := by
  have hu : c ≠ 'u' := by
    rintro rfl
    cases hc
  rw [stringLoop]
  · simp [hc]
  · exact hu

theorem stringLoop_unicode {c : Char} {s s' : List Char} (h : unicodeEscape s = .ok (c, s'))
    (fuel : Nat) (taken : List Char) :
    stringLoop (fuel + 1) taken ('\\' :: 'u' :: s) = stringLoop fuel (c :: taken) s' := by
  simp [stringLoop, h]

theorem stringLoop_spells {text cs : List Char} (h : Spells text cs) {fuel : Nat}
    (hf : text.length < fuel) (taken rest : List Char) :
    stringLoop fuel taken (text ++ '"' :: rest) = .ok (taken.reverse ++ cs, rest) := by
  -- a character or an escape takes one unit of fuel, and the quote takes one
  induction h generalizing fuel taken with
  | nil =>
    obtain ⟨fuel, rfl⟩ := Nat.exists_eq_succ_of_ne_zero (Nat.ne_of_gt hf)
    simp [stringLoop]
  | @plain c text cs hc h ih =>
    obtain ⟨fuel, rfl⟩ := Nat.exists_eq_succ_of_ne_zero (Nat.ne_of_gt (Nat.zero_lt_of_lt hf))
    obtain ⟨⟨hquote, hslash⟩, hcontrol⟩ : (c ≠ '"' ∧ c ≠ '\\') ∧ isControl c = false := by
      simpa [isPlain] using hc
    have hrest := ih (Nat.lt_of_succ_lt_succ hf) (c :: taken)
    simpa [stringLoop, hquote, hslash, hcontrol] using hrest
  | @simple c x text cs hc h ih =>
    obtain ⟨fuel, rfl⟩ := Nat.exists_eq_succ_of_ne_zero (Nat.ne_of_gt (Nat.zero_lt_of_lt hf))
    have hrest := ih (Nat.lt_of_succ_lt (Nat.lt_of_succ_lt_succ hf)) (x :: taken)
    refine (stringLoop_simple hc _ taken _).trans (hrest.trans ?_)
    simp
  | unit hu hl ht h ih =>
    obtain ⟨fuel, rfl⟩ := Nat.exists_eq_succ_of_ne_zero (Nat.ne_of_gt (Nat.zero_lt_of_lt hf))
    simp only [List.length_cons, List.length_append] at hf
    simp only [List.cons_append, List.append_assoc]
    rw [stringLoop_unicode (unicodeEscape_unit hu hl ht _), ih (by omega)]
    simp
  | pair hu hl hv ht h ih =>
    obtain ⟨fuel, rfl⟩ := Nat.exists_eq_succ_of_ne_zero (Nat.ne_of_gt (Nat.zero_lt_of_lt hf))
    simp only [List.length_cons, List.length_append] at hf
    simp only [List.cons_append, List.append_assoc]
    rw [stringLoop_unicode (unicodeEscape_pair hu hl hv ht _), ih (by omega)]
    simp

theorem string_spells {text cs : List Char} (h : Spells text cs) (rest : List Char) :
    string (text ++ '"' :: rest) = .ok (cs, rest) :=
  stringLoop_spells h (by rw [List.length_append]; omega) [] rest

theorem spells_plain {cs : List Char} (h : cs.all isPlain = true) : Spells cs cs := by
  induction cs with
  | nil => exact .nil
  | cons c cs ih =>
    rw [List.all_cons, Bool.and_eq_true] at h
    exact .plain h.1 (ih h.2)

/-- A word that needs no escapes. -/
def isPlainWord (key : String) : Bool := key.toList.all isPlain

/-- A string without escapes, after its opening quote. -/
theorem string_plain {key : String} (h : isPlainWord key) (rest : List Char) :
    string (key.toList ++ '"' :: rest) = .ok (key.toList, rest) :=
  string_spells (spells_plain h) rest

end Strings

end Ket.Json
