import Ket.Basic

/-! Qubits of a register. Qubit 0 is the leftmost one: in a basis index of an `n`-qubit register it
is the most significant of the `n` bits. -/

namespace Ket

structure Qubit where
  id : UInt32
deriving DecidableEq

namespace Qubit

def ofNat (n : Nat) : Qubit := ⟨.ofNat n⟩

def index (q : Qubit) : Nat := q.id.toNat

/-- The place of the qubit's bit in a basis index, counted from the least significant bit. It is
meant for `q.index < width`. -/
def bitPosition (q : Qubit) (width : Nat) : Nat := width - 1 - q.index

instance : Ord Qubit := ⟨fun a b => compare a.id b.id⟩

instance : HasText Qubit := ⟨fun q => "q" ++ q.index.repr⟩

theorem index_lt (q : Qubit) : q.index < UInt32.size := q.id.toNat_lt

theorem index_ofNat {n : Nat} (h : n < UInt32.size) : (ofNat n).index = n :=
  UInt32.toNat_ofNat_of_lt h

theorem index_inj {a b : Qubit} : a.index = b.index ↔ a = b := by
  cases a; cases b; simp [index, UInt32.toNat_inj]

theorem index_mem_map_iff {q : Qubit} {qs : List Qubit} :
    q.index ∈ qs.map (·.index) ↔ q ∈ qs := by
  simp [index_inj]

end Qubit

end Ket
