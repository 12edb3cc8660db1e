/-! Rectangular tables of entries, row after row. -/

namespace Ket

structure Grid (α : Type) where
  rows : Nat
  cols : Nat
  entries : Array α
  size_entries : entries.size = rows * cols

namespace Grid

variable {α : Type}

def ofFn (rows cols : Nat) (f : Nat → Nat → α) : Grid α where
  rows := rows
  cols := cols
  entries := Array.ofFn (n := rows * cols) fun k => f (k / cols) (k % cols)
  size_entries := by simp

/-- A table from its entries, if there are as many as its shape has places. -/
def ofEntries? (rows cols : Nat) (entries : Array α) : Option (Grid α) :=
  if h : entries.size = rows * cols then some ⟨rows, cols, entries, h⟩ else none

def get [Zero α] (g : Grid α) (r c : Nat) : α :=
  if r < g.rows ∧ c < g.cols then g.entries.getD (r * g.cols + c) 0 else 0

def toLists [Zero α] (g : Grid α) : List (List α) :=
  (List.range g.rows).map fun r => (List.range g.cols).map (g.get r)

def map {β : Type} (f : α → β) (g : Grid α) : Grid β where
  rows := g.rows
  cols := g.cols
  entries := g.entries.map f
  size_entries := by simp [g.size_entries]

def transpose [Zero α] (g : Grid α) : Grid α := ofFn g.cols g.rows fun r c => g.get c r

instance [BEq α] : BEq (Grid α) where
  beq g h := g.rows == h.rows && g.cols == h.cols && g.entries == h.entries

/-- The first `n` terms added one after the other, starting from zero. -/
def total [Zero α] [Add α] (term : Nat → α) : Nat → α
  | 0 => 0
  | n + 1 => total term n + term n

/-- The product with a column, zero past its end. -/
def mulColumn [Zero α] [Add α] [Mul α] (g : Grid α) (column : List α) : List α :=
  (List.range g.rows).map fun r => total (fun c => g.get r c * column.getD c 0) g.cols

/-- The product, where `addMul` adds the product of its last two arguments to its first one. -/
def mulWith [Zero α] (addMul : α → α → α → α) (g h : Grid α) : Grid α :=
  ofFn g.rows h.cols fun r c =>
    (List.range g.cols).foldl (fun sum k => addMul sum (g.get r k) (h.get k c)) 0

def mul [Zero α] [Add α] [Mul α] (g h : Grid α) : Grid α := mulWith (fun s x y => s + x * y) g h

theorem get_ofFn [Zero α] {rows cols r c : Nat} {f : Nat → Nat → α} (hr : r < rows)
    (hc : c < cols) : (ofFn rows cols f).get r c = f r c := by
  have hk : r * cols + c < rows * cols := by
    calc r * cols + c < r * cols + cols := by omega
      _ = (r + 1) * cols := by rw [Nat.succ_mul]
      _ ≤ rows * cols := Nat.mul_le_mul_right _ hr
  have hd : (r * cols + c) / cols = r := by
    rw [Nat.mul_comm, Nat.mul_add_div (by omega), Nat.div_eq_of_lt hc, Nat.add_zero]
  have hm : (r * cols + c) % cols = c := by
    rw [Nat.mul_comm, Nat.mul_add_mod, Nat.mod_eq_of_lt hc]
  simp [get, ofFn, hr, hc, Array.getD, hk, hd, hm]

end Grid

end Ket
