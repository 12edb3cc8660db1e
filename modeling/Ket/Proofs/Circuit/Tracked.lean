import Mathlib.Algebra.Group.Nat.Defs
import Mathlib.Logic.Equiv.Basic
import Ket.Circuit

/-! Circuits of gates that move basis states, tracked by one value for each qubit and one phase. The
gates also have tables. For each setting of the operands, read as a number with the first operand in
front, a table says which setting it goes to or how far the phase turns. -/

namespace Ket

namespace Gate

/-- Whether the gate moves basis states. A measurement leaves them where they are. -/
def isMonomial : Gate → Bool
  | one .h | one .t | two .ch | rotation _ | pairRotation _ => false
  | _ => true

def target : Gate → Nat → Nat
  | one .x | one .y => Equiv.swap 0 1
  | two .cx | two .cy => Equiv.swap 0b10 0b11
  | two .swap => Equiv.swap 0b01 0b10
  | three .ccx => Equiv.swap 0b110 0b111
  | three .cswap => Equiv.swap 0b101 0b110
  | _ => id

def turns : Gate → Nat → Fin 4
  | one .y => fun c => if c = 0 then 1 else 3
  | one .z => fun c => if c = 1 then 2 else 0
  | one .s => fun c => if c = 1 then 1 else 0
  | two .cy => fun c => if c = 0b10 then 1 else if c = 0b11 then 3 else 0
  | two .cz => fun c => if c = 0b11 then 2 else 0
  | two .cs => fun c => if c = 0b11 then 1 else 0
  | _ => fun _ => 0

end Gate

/-- Values of the qubits, and a phase in quarter turns. -/
structure Tracked where
  bit : Qubit → Bool
  turns : Fin 4

namespace Tracked

/-- All qubits are 0. -/
def start : Tracked := ⟨fun _ => false, 0⟩

variable {F : Type} (t : Tracked)

def turn (k : Fin 4) : Tracked := { t with turns := k + t.turns }

def set (q : Qubit) (b : Bool) : Tracked := { t with bit := Function.update t.bit q b }

def flip (q : Qubit) : Tracked := t.set q (!t.bit q)

/-- The phase goes forth if the value was 0 and back if it was 1. -/
def flipTurning (q : Qubit) : Tracked := (t.flip q).turn (if t.bit q then 3 else 1)

def exchange (a b : Qubit) : Tracked := (t.set b (t.bit a)).set a (t.bit b)

/-- What a monomial instruction does. The identity and a measurement do nothing. -/
def step : Instruction F → Tracked
  | .one .x a => t.flip a
  | .one .y a => t.flipTurning a
  | .one .z a => if t.bit a then t.turn 2 else t
  | .one .s a => if t.bit a then t.turn 1 else t
  | .two .cx a b => if t.bit a then t.flip b else t
  | .two .cy a b => if t.bit a then t.flipTurning b else t
  | .two .cz a b => if t.bit a && t.bit b then t.turn 2 else t
  | .two .cs a b => if t.bit a && t.bit b then t.turn 1 else t
  | .two .swap a b => t.exchange a b
  | .three .ccx a b c => if t.bit a && t.bit b then t.flip c else t
  | .three .cswap a b c => if t.bit a then t.exchange b c else t
  | _ => t

/-- After all instructions of a circuit, when all qubits are 0 before them. -/
def ofCircuit (c : Circuit F) : Tracked := c.instructions.toList.foldl step start

/-- The values of the given qubits, read as a number with the first qubit in front. -/
def read : List Qubit → Nat
  | [] => 0
  | q :: qs => (t.bit q).toNat * 2 ^ qs.length + read qs

/-- The given qubits take the bits of `c`. -/
def write (c : Nat) : List Qubit → Tracked
  | [] => t
  | q :: qs => (write c qs).set q (c.testBit qs.length)

variable {t}

@[simp] theorem turns_write (c : Nat) (qs : List Qubit) : (t.write c qs).turns = t.turns := by
  induction qs with
  | nil => rfl
  | cons q qs ih => exact ih

theorem bit_write_of_notMem {c : Nat} {q : Qubit} {qs : List Qubit} (hq : q ∉ qs) :
    (t.write c qs).bit q = t.bit q := by
  induction qs with
  | nil => rfl
  | cons p qs ih =>
    obtain ⟨hne, hqs⟩ := not_or.1 (List.mem_cons.not.1 hq)
    exact (Function.update_of_ne hne _ _).trans (ih hqs)

theorem bit_write_getElem (c : Nat) {qs : List Qubit} (hd : qs.Nodup) {j : Nat}
    (hj : j < qs.length) : (t.write c qs).bit qs[j] = c.testBit (qs.length - 1 - j) := by
  induction qs generalizing j with
  | nil => cases hj
  | cons p qs ih =>
    obtain ⟨hp, hqs⟩ := List.nodup_cons.1 hd
    cases j with
    | zero => exact Function.update_self _ _ _
    | succ j =>
      have hj' : j < qs.length := Nat.lt_of_succ_lt_succ hj
      have hne : qs[j] ≠ p := fun h => hp (h ▸ List.getElem_mem hj')
      have hplace : (p :: qs).length - 1 - (j + 1) = qs.length - 1 - j := by
        rw [List.length_cons]
        omega
      rw [hplace, ← ih hqs hj']
      exact Function.update_of_ne hne _ _

@[simp] theorem turn_zero : t.turn 0 = t := by simp [turn]

@[simp] theorem set_eq_self {q : Qubit} {b : Bool} (h : t.bit q = b) : t.set q b = t := by
  rw [set, ← h, Function.update_eq_self]

@[simp] theorem bit_set_of_ne {p q : Qubit} (h : p ≠ q) (b : Bool) :
    (t.set q b).bit p = t.bit p :=
  Function.update_of_ne h _ _

theorem step_one {g : OneQubitGate} (hg : (Gate.one g).isMonomial = true) (a : Qubit) :
    t.step (.one g a : Instruction F) = (t.write ((Gate.one g).target (t.read [a])) [a]).turn
      ((Gate.one g).turns (t.read [a])) := by
  -- Once the value of the operand is known, the tables can be looked up.
  cases ha : t.bit a <;> cases g
  case false.h | false.t | true.h | true.t => cases hg
  all_goals simp [step, flip, flipTurning, read, write, Gate.target, Gate.turns, ha]

theorem step_two {g : TwoQubitGate} (hg : (Gate.two g).isMonomial = true) {a b : Qubit}
    (hab : a ≠ b) :
    t.step (.two g a b : Instruction F) =
      (t.write ((Gate.two g).target (t.read [a, b])) [a, b]).turn
        ((Gate.two g).turns (t.read [a, b])) := by
  cases g with
  | ch => cases hg
  | _ =>
    cases ha : t.bit a <;> cases hb : t.bit b <;>
      simp [step, flip, flipTurning, exchange, read, write, Gate.target, Gate.turns,
        Equiv.swap_apply_def, Nat.testBit, hab, ha, hb]

theorem step_three (g : ThreeQubitGate) {a b c : Qubit} (hab : a ≠ b) (hac : a ≠ c) (hbc : b ≠ c) :
    t.step (.three g a b c : Instruction F) =
      (t.write ((Gate.three g).target (t.read [a, b, c])) [a, b, c]).turn
        ((Gate.three g).turns (t.read [a, b, c])) := by
  cases g <;> cases ha : t.bit a <;> cases hb : t.bit b <;> cases hc : t.bit c <;>
    simp [step, flip, exchange, read, write, Gate.target, Gate.turns, Equiv.swap_apply_def,
      Nat.testBit, hab, hac, hbc, ha, hb, hc]

/-- The instruction moves the values of its operands as the tables of its gate say. -/
theorem step_eq {i : Instruction F} (hg : i.gate.isMonomial = true) (hd : i.qubits.Nodup) :
    t.step i = (t.write (i.gate.target (t.read i.qubits)) i.qubits).turn
      (i.gate.turns (t.read i.qubits)) := by
  cases i with
  | one g a => exact step_one hg a
  | two g a b => exact step_two hg (by simpa [Instruction.qubits] using hd)
  | three g a b c =>
    obtain ⟨⟨hab, hac⟩, hbc⟩ : (a ≠ b ∧ a ≠ c) ∧ b ≠ c := by simpa [Instruction.qubits] using hd
    exact step_three g hab hac hbc
  | rotation axis θ a => cases hg
  | pairRotation axis θ a b => cases hg
  | measure a =>
    have hstay : t.step (.one .i a : Instruction F) = _ := step_one rfl a
    exact hstay

end Tracked

end Ket
