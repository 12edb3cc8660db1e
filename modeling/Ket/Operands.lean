/-! Lists of operands: each must be in range, and none may occur twice. -/

namespace Ket

inductive OperandFault
  | outOfRange
  | repeated
deriving DecidableEq

/-- The first operand that is out of range or occurs earlier in the list or in `seen`. One that is
both counts as out of range. -/
def firstFault? {α : Type} [DecidableEq α] (inRange : α → Bool) (seen : List α) :
    List α → Option (α × OperandFault)
  | [] => none
  | q :: rest =>
    if inRange q then
      if q ∈ seen then some (q, .repeated) else firstFault? inRange (q :: seen) rest
    else some (q, .outOfRange)

theorem firstFault?_eq_none_iff {α : Type} [DecidableEq α] {inRange : α → Bool}
    {seen qs : List α} :
    firstFault? inRange seen qs = none ↔
      (∀ q ∈ qs, inRange q) ∧ qs.Nodup ∧ ∀ q ∈ qs, q ∉ seen := by
  induction qs generalizing seen with
  | nil => simp [firstFault?]
  | cons q rest ih =>
    simp only [firstFault?]
    split
    · split
      · simp_all
      · simp_all only [List.mem_cons, List.nodup_cons]
        grind
    · simp_all

end Ket
