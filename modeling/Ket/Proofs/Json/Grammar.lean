import Ket.Json.Text
import Ket.Json.Writer

/-! The grammar of JSON. It tells which texts are numbers, strings and values, and nothing about how
they are read. Blanks may stand around every value and every key. -/

namespace Ket.Json

/-- A run of blanks, which may be empty. -/
structure Gap where
  text : List Char
  blank : ∀ c ∈ text, isBlank c = true

def Gap.none : Gap := ⟨[], by simp⟩

def Gap.space : Gap := ⟨[' '], List.all_eq_true.1 rfl⟩

section Numbers

/-- The digits before the point. Only zero starts with a zero. -/
inductive IsWhole : List Char → Prop
  | zero : IsWhole ['0']
  | digits {c : Char} {s : List Char} (hc : c ≠ '0') (h : ∀ d ∈ c :: s, isDigit d = true) :
      IsWhole (c :: s)

/-- Nothing, or a point and at least one digit. -/
inductive IsFraction : List Char → Prop
  | none : IsFraction []
  | digits {c : Char} {s : List Char} (h : ∀ d ∈ c :: s, isDigit d = true) :
      IsFraction ('.' :: c :: s)

/-- Nothing, or a letter, perhaps a sign, and at least one digit. -/
inductive IsExponent : List Char → Prop
  | none : IsExponent []
  | digits {e : Char} {sign : List Char} {c : Char} {s : List Char} (he : e = 'e' ∨ e = 'E')
      (hsign : sign = [] ∨ sign = ['+'] ∨ sign = ['-']) (h : ∀ d ∈ c :: s, isDigit d = true) :
      IsExponent (e :: (sign ++ c :: s))

inductive IsNumber : List Char → Prop
  | parts {sign whole fraction exponent : List Char} (hs : sign = [] ∨ sign = ['-'])
      (hw : IsWhole whole) (hf : IsFraction fraction) (he : IsExponent exponent) :
      IsNumber (sign ++ (whole ++ (fraction ++ exponent)))

end Numbers

section Strings

/-- A character that stands for itself in a string. -/
def isPlain (c : Char) : Bool := c != '"' && c != '\\' && !isControl c

/-- Four hexadecimal digits stand for a number. -/
inductive IsUnit : List Char → Nat → Prop
  | digits {a b c d : Char} {w x y z : Nat} (ha : hexValue? a = some w) (hb : hexValue? b = some x)
      (hc : hexValue? c = some y) (hd : hexValue? d = some z) :
      IsUnit [a, b, c, d] (w * 0x1000 + x * 0x100 + y * 0x10 + z)

/-- What may stand between quotes. -/
inductive IsString : List Char → Prop
  | nil : IsString []
  | plain {c : Char} {s : List Char} (hc : isPlain c = true) (h : IsString s) : IsString (c :: s)
  | simple {c x : Char} {s : List Char} (hc : simpleEscape? c = some x) (h : IsString s) :
      IsString ('\\' :: c :: s)
  | unit {digits s : List Char} {u : Nat} (hu : IsUnit digits u) (h : IsString s) :
      IsString ('\\' :: 'u' :: (digits ++ s))

/-- What a text between quotes spells. An escape by number stands for a character, or two of them
for one that is beyond the first plane. A surrogate alone spells nothing. -/
inductive Spells : List Char → List Char → Prop
  | nil : Spells [] []
  | plain {c : Char} {s word : List Char} (hc : isPlain c = true) (h : Spells s word) :
      Spells (c :: s) (c :: word)
  | simple {c x : Char} {s word : List Char} (hc : simpleEscape? c = some x) (h : Spells s word) :
      Spells ('\\' :: c :: s) (x :: word)
  | unit {digits s word : List Char} {u : Nat} (hu : IsUnit digits u) (hl : isLeading u = false)
      (ht : isTrailing u = false) (h : Spells s word) :
      Spells ('\\' :: 'u' :: (digits ++ s)) (.ofNat u :: word)
  | pair {digits digits' s word : List Char} {u v : Nat} (hu : IsUnit digits u)
      (hl : isLeading u = true) (hv : IsUnit digits' v) (ht : isTrailing v = true)
      (h : Spells s word) :
      Spells ('\\' :: 'u' :: (digits ++ '\\' :: 'u' :: (digits' ++ s)))
        (.ofNat (0x10000 + (u - 0xD800) * 0x400 + (v - 0xDC00)) :: word)

end Strings

section Values

/-- A value, or what stands in its place, with blanks around it. -/
structure Item where
  before : Gap
  value : List Char
  after : Gap

def Item.text (i : Item) : List Char := i.before.text ++ (i.value ++ i.after.text)

/-- A key, as it stands between the quotes, with a value. -/
structure Member where
  before : Gap
  key : List Char
  after : Gap
  item : Item

def Member.text (m : Member) : List Char :=
  m.before.text ++ '"' :: (m.key ++ '"' :: (m.after.text ++ ':' :: m.item.text))

/-- An object of these members. Without any, blanks may stand between the braces. -/
def bracedText (gap : Gap) (members : List Member) : List Char :=
  '{' :: (gap.text ++ (separated (members.map (·.text)) ++ ['}']))

def bracketedText (gap : Gap) (items : List Item) : List Char :=
  '[' :: (gap.text ++ (separated (items.map (·.text)) ++ [']']))

inductive IsValue : List Char → Prop
  | word {w : String} (h : w ∈ ["null", "true", "false"]) : IsValue w.toList
  | number {s : List Char} (h : IsNumber s) : IsValue s
  | string {s : List Char} (h : IsString s) : IsValue ('"' :: (s ++ ['"']))
  | array (gap : Gap) {items : List Item} (h : ∀ i ∈ items, IsValue i.value) :
      IsValue (bracketedText gap items)
  | object (gap : Gap) {members : List Member} (hkeys : ∀ m ∈ members, IsString m.key)
      (h : ∀ m ∈ members, IsValue m.item.value) : IsValue (bracedText gap members)

end Values

end Ket.Json
