import Ket.Json.Number
import Ket.Json.Skip

/-! Typed values in JSON text: words, numbers, lists, and records whose fields are given by name in
an object, in any order, or by position in an array. -/

namespace Ket.Json

/-- For a value that does not start like the wanted one. A simple value is read to its end, so that
it is not called a mismatch when it is no JSON. -/
def wrongType {β : Type} (c : Char) : Reader β := do
  match c with
  | 'n' => word ['n', 'u', 'l', 'l']
  | 't' => word ['t', 'r', 'u', 'e']
  | 'f' => word ['f', 'a', 'l', 's', 'e']
  | '"' => advance; discard string
  | '[' | '{' => pure ()
  | c => if startsNumber c then discard Number.read else throw .malformed
  throw .mismatch

/-- The first character of a value. -/
def start : Reader Char := do
  match ← peek with
  | none => throw .ended
  | some c => pure c

def number : Reader Number := do
  let c ← start
  if startsNumber c then Number.read else wrongType c

def uint32 : Reader UInt32 := do
  match ← number with
  | .whole n => if n < UInt32.size then return .ofNat n else throw .mismatch
  | _ => throw .mismatch

def float : Reader Float := return (← number).toFloat

def bool : Reader Bool := do
  match ← start with
  | 't' => word ['t', 'r', 'u', 'e']; return true
  | 'f' => word ['f', 'a', 'l', 's', 'e']; return false
  | c => wrongType c

def null : Reader Unit := do
  match ← start with
  | 'n' => word ['n', 'u', 'l', 'l']
  | c => wrongType c

/-- Whether another item follows in an array. The closing bracket stays in the text. -/
def nextItem (isFirst : Bool) : Reader Bool := do
  match ← peek with
  | none => throw .ended
  | some ']' => return false
  | some ',' =>
    if isFirst then return true
    advance
    match ← peek with
    | none => throw .ended
    | some ']' => throw .malformed
    | some _ => return true
  | some _ => if isFirst then return true else throw .malformed

/-- The next key of an object, none before the closing brace, which stays in the text. -/
def nextKey (isFirst : Bool) : Reader (Option (List Char)) := do
  let quote (c : Char) : Reader (Option (List Char)) :=
    if c = '"' then do advance; return some (← string) else throw .malformed
  match ← peek with
  | none => throw .ended
  | some '}' => return none
  | some ',' =>
    if isFirst then throw .malformed
    advance
    match ← peek with
    | none => throw .ended
    | some c => quote c
  | some c => if isFirst then quote c else throw .malformed

/-- Each item takes at least one character, so `fuel` need not exceed the length of the text. -/
def itemsLoop {β : Type} (item : Reader β) : Nat → Bool → Array β → Reader (Array β)
  | 0, _, _, _ => .error .ended
  | fuel + 1, isFirst, items, s =>
    match nextItem isFirst s with
    | .error e => .error e
    | .ok (false, s) => .ok (items, s)
    | .ok (true, s) =>
      match item s with
      | .error e => .error e
      | .ok (x, s) => itemsLoop item fuel false (items.push x) s

def items {β : Type} (item : Reader β) : Reader (Array β) := fun s =>
  itemsLoop item (s.length + 1) true #[] s

def list {β : Type} (item : Reader β) : Reader (Array β) := do
  match ← start with
  | '[' =>
    advance
    let xs ← items item
    mark ']'
    return xs
  | c => wrongType c

/-- A field of a record that is read into a draft. -/
structure Field (σ : Type) where
  name : List Char
  isSet : σ → Bool
  read : σ → Reader σ

def Field.of {σ β : Type} (name : String) (read : Reader β) (get : σ → Option β)
    (set : σ → β → σ) : Field σ :=
  ⟨name.toList, fun draft => (get draft).isSome, fun draft => return set draft (← read)⟩

/-- Fields by name. Those that nobody knows are skipped, and none may be repeated. -/
def membersLoop {σ : Type} (fields : List (Field σ)) : Nat → Bool → σ → Reader σ
  | 0, _, _, _ => .error .ended
  | fuel + 1, isFirst, draft, s =>
    match nextKey isFirst s with
    | .error e => .error e
    | .ok (none, s) => .ok (draft, s)
    | .ok (some key, s) =>
      let value : Reader σ :=
        match fields.find? (·.name == key) with
        | some field => do
          if field.isSet draft then throw .mismatch
          mark ':'
          field.read draft
        | none => do
          mark ':'
          skipValue
          return draft
      match value s with
      | .error e => .error e
      | .ok (draft, s) => membersLoop fields fuel false draft s

def members {σ : Type} (fields : List (Field σ)) (draft : σ) : Reader σ := fun s =>
  membersLoop fields (s.length + 1) true draft s

/-- Fields by position, of which the last ones may be left out. -/
def positions {σ : Type} (isFirst : Bool) (draft : σ) : List (Field σ) → Reader σ
  | [] => pure draft
  | field :: fields => do
    if ← nextItem isFirst then positions false (← field.read draft) fields else pure draft

/-- What a draft stands for, a mismatch if a field is missing. -/
def complete {σ β : Type} (finish : σ → Option β) (draft : σ) : Reader β :=
  match finish draft with
  | some x => pure x
  | none => throw .mismatch

def tuple {σ β : Type} (fields : List (Field σ)) (empty : σ) (finish : σ → Option β) :
    Reader β := do
  match ← start with
  | '[' =>
    advance
    let x ← complete finish (← positions true empty fields)
    mark ']'
    return x
  | c => wrongType c

def record {σ β : Type} (fields : List (Field σ)) (empty : σ) (finish : σ → Option β) :
    Reader β := do
  match ← start with
  | '{' =>
    advance
    let x ← complete finish (← members fields empty)
    mark '}'
    return x
  | _ => tuple fields empty finish

end Ket.Json
