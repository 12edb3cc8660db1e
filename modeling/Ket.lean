import Ket.Basic
import Ket.Qubit
import Ket.Gate
import Ket.Operands
import Ket.Instruction
import Ket.Circuit.Builder
import Ket.Circuit.Depth
import Ket.Amplitude
import Ket.Grid
import Ket.Operator.Gates
import Ket.Simulation
import Ket.Decimal.Plain
import Ket.Json.Text
import Ket.Json.Number
import Ket.Json.Record
import Ket.Json.Document
import Ket.Json.Writer
import Ket.Proofs.Support.Bits
import Ket.Proofs.Support.Classes
import Ket.Proofs.Application.Entry
import Ket.Proofs.Operator.Embedding
import Ket.Proofs.Support.Extent
import Ket.Proofs.Application.Blocks
import Ket.Proofs.Application.Runs
import Ket.Proofs.Application.Parallel
import Ket.Proofs.Circuit.Reachable
import Ket.Proofs.Operator.Gates
import Ket.Proofs.Simulation.Run
import Ket.Proofs.Circuit.History
import Ket.Proofs.Application.Schedule
import Ket.Proofs.Amplitude.Ring
import Ket.Proofs.Operator.Unitary
import Ket.Proofs.Operator.UnitaryGates
import Ket.Proofs.Application.Unitary
import Ket.Proofs.Simulation.Norm
import Ket.Proofs.Json.Number
import Ket.Proofs.Json.Record
import Ket.Proofs.Json.Document
import Ket.Proofs.Circuit.Renaming
import Ket.Proofs.Operator.Placement
import Ket.Proofs.Simulation.Placement
import Ket.Proofs.Simulation.Relabelling
import Ket.Proofs.Simulation.Disjoint
import Ket.Proofs.Amplitude.Agreement
import Ket.Proofs.Amplitude.Turns
import Ket.Proofs.Operator.Monomial
import Ket.Proofs.Operator.MonomialGates
import Ket.Proofs.Amplitude.Vanishing
import Ket.Proofs.Circuit.Idle
import Ket.Proofs.Simulation.Tracked
import Ket.Proofs.Simulation.Idle
import Ket.Proofs.Amplitude.Branch
import Ket.Proofs.Circuit.Depth
import Ket.Proofs.Circuit.Ghz
import Ket.Proofs.Simulation.Ghz
import Ket.Proofs.Simulation.Controlled
import Ket.Proofs.State.History
import Ket.Proofs.Operands
import Ket.Proofs.Circuit.Check
import Ket.Proofs.State.Verdict
import Ket.Proofs.Operator.Product
import Ket.Proofs.State.Composition
import Ket.Proofs.Operator.Rotations
import Ket.Proofs.State.Rotations
import Ket.Proofs.Simulation.Log
import Ket.Proofs.State.Overlap
import Ket.Proofs.Decimal.Plain
import Ket.Proofs.State.Listing
import Ket.Proofs.Json.Grammar
import Ket.Proofs.Json.Reads
import Ket.Proofs.Json.Skip
import Ket.Proofs.Json.Object
import Ket.Proofs.Json.Settings
import Ket.Proofs.Support.Partition
import Ket.Proofs.Application.Groups
import Ket.Proofs.Words.Parallel
import Ket.Proofs.Decimal.Reading
import Ket.Proofs.Circuit.Text
