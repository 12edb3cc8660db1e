import Ket.Circuit
import Ket.Json.Record
import Ket.Json.Shape
import Ket.Settings
import Ket.SimulationError

/-! Gates, instructions, circuits and settings from JSON text. -/

namespace Ket

namespace Json

def tag (key : List Char) : Reader Gate :=
  match Gate.ofTag? (String.ofList key) with
  | some g => pure g
  | none => throw .mismatch

/-- The only key of an object, which names a gate, with the colon behind it. What is no string is no
key, so it is not called a mismatch. -/
def tagKey : Reader Gate := do
  mark '"'
  let g ← tag (← string)
  mark ':'
  return g

/-- A gate is its tag, or an object that has `null` under it. -/
def gate : Reader Gate := do
  match ← start with
  | '"' => advance; tag (← string)
  | '{' =>
    advance
    let g ← tagKey
    null
    mark '}'
    return g
  | _ => throw .malformed

def qubit : Reader Qubit := return ⟨← uint32⟩

/-- Operands read so far, each at its place. -/
structure Draft where
  qubits : List (Option Qubit)
  angle : Option Float

namespace Draft

def qubitField (name : String) (place : Nat) : Field Draft :=
  .of name qubit (fun d => d.qubits[place]?.join)
    fun d q => { d with qubits := d.qubits.set place (some q) }

def angleField : Field Draft :=
  .of angleName float Draft.angle fun d θ => { d with angle := some θ }

def fields (g : Gate) (names : List String) : List (Field Draft) :=
  names.zipIdx.map (fun (name, place) => qubitField name place) ++
    if g.isRotation then [angleField] else []

def empty (g : Gate) : Draft := ⟨List.replicate g.arity none, none⟩

def finish (g : Gate) (d : Draft) : Option (Instruction Float) := do
  let qubits ← d.qubits.mapM id
  if g.isRotation then Instruction.make? g qubits (← d.angle) else Instruction.make? g qubits 0

end Draft

def operands (g : Gate) : Reader (Instruction Float) :=
  match shape g with
  | .single => do complete id (Instruction.make? g [← qubit] 0)
  | .tuple => tuple (Draft.fields g (List.replicate g.arity "")) (.empty g) (Draft.finish g)
  | .named names => record (Draft.fields g names) (.empty g) (Draft.finish g)

/-- The operands need not fit any register, and an angle is finite because its text is. -/
def instruction : Reader (Instruction Float) := do
  match ← start with
  | '{' =>
    advance
    let g ← tagKey
    let i ← operands g
    mark '}'
    return i
  | '"' =>
    advance
    discard string
    throw .mismatch
  | _ => throw .malformed

structure Program where
  width : Option UInt32 := none
  instructions : Option (Array (Instruction Float)) := none

namespace Program

def fields : List (Field Program) :=
  [.of "num_qubits" uint32 width fun p n => { p with width := some n },
   .of "instructions" (list instruction) instructions fun p is =>
     { p with instructions := some is }]

/-- Without a list of instructions there are none. -/
def finish (p : Program) : Option (UInt32 × List (Instruction Float)) :=
  p.width.map fun n => (n, (p.instructions.getD #[]).toList)

end Program

/-- A width and instructions that need not fit it. -/
def program : Reader (UInt32 × List (Instruction Float)) :=
  record Program.fields {} Program.finish

structure SettingsDraft where
  maxQubits : Option UInt32 := none
  parallelThreshold : Option UInt32 := none
  parallel : Option Bool := none

namespace SettingsDraft

def fields : List (Field SettingsDraft) :=
  [.of "max_qubits" uint32 maxQubits fun d n => { d with maxQubits := some n },
   .of "parallel_threshold" uint32 parallelThreshold fun d n =>
     { d with parallelThreshold := some n },
   .of "parallel" bool parallel fun d b => { d with parallel := some b }]

/-- What is not given is as by default. -/
def finish (d : SettingsDraft) : Option Settings :=
  let default : Settings := {}
  some
    { maxQubits := d.maxQubits.getD default.maxQubits
      parallelThreshold := d.parallelThreshold.getD default.parallelThreshold
      parallel := d.parallel.getD default.parallel }

end SettingsDraft

def settings : Reader Settings := record SettingsDraft.fields {} SettingsDraft.finish

/-- The value that a whole text stands for. -/
def document {β : Type} (reader : Reader β) (text : String) : Except Fault β :=
  match (do let x ← reader; finish; return x : Reader β) text.toList with
  | .ok (x, _) => .ok x
  | .error e => .error e

/-- Why a text is no circuit. -/
inductive CircuitFault
  | unreadable (fault : Fault)
  | refused (error : CircuitError Float)

/-- The instructions are appended one by one before the text behind the value is looked at. -/
def circuit (text : String) : Except CircuitFault (Circuit Float) :=
  match program text.toList with
  | .error e => .error (.unreadable e)
  | .ok ((width, is), rest) =>
    match Circuit.ofInstructions width is with
    | .error e => .error (.refused e)
    | .ok c =>
      match finish rest with
      | .error e => .error (.unreadable e)
      | .ok _ => .ok c

end Json

/-- The settings in a text. A fault of the text is an error of the configuration. -/
def Settings.ofJson (text : String) : Except (SimulationError Float Json.Fault) Settings :=
  match Json.document Json.settings text with
  | .ok settings => .ok settings
  | .error fault => .error (.config fault)

end Ket
