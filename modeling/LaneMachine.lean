import LaneMachine.Assembly.Numeral
import LaneMachine.Assembly.Program
import LaneMachine.Buffer
import LaneMachine.Buffer.Command
import LaneMachine.Bytes
import LaneMachine.Event
import LaneMachine.Fault
import LaneMachine.Frame
import LaneMachine.Heap.Basic
import LaneMachine.Heap.Visits
import LaneMachine.Identifier
import LaneMachine.Json.Codec
import LaneMachine.Json.Reader
import LaneMachine.Json.Value
import LaneMachine.Limits
import LaneMachine.Machine.Basic
import LaneMachine.Machine.Call
import LaneMachine.Machine.Execute
import LaneMachine.Machine.Step
import LaneMachine.Machine.Unwind
import LaneMachine.Opcode
import LaneMachine.Proofs.Arguments
import LaneMachine.Proofs.Balance
import LaneMachine.Proofs.Bounds
import LaneMachine.Proofs.ByteList
import LaneMachine.Proofs.Callers
import LaneMachine.Proofs.Checkpoints
import LaneMachine.Proofs.Commands
import LaneMachine.Proofs.Confinement
import LaneMachine.Proofs.Counters
import LaneMachine.Proofs.Disassembly
import LaneMachine.Proofs.Effect
import LaneMachine.Proofs.Evolution
import LaneMachine.Proofs.Exchange
import LaneMachine.Proofs.FaultIsolation
import LaneMachine.Proofs.Faults
import LaneMachine.Proofs.FlatStore
import LaneMachine.Proofs.Forward
import LaneMachine.Proofs.Grammar
import LaneMachine.Proofs.Immediates
import LaneMachine.Proofs.Instruction
import LaneMachine.Proofs.Interchange
import LaneMachine.Proofs.JsonCodecs
import LaneMachine.Proofs.JsonGrammar
import LaneMachine.Proofs.JsonScalars
import LaneMachine.Proofs.Lanes
import LaneMachine.Proofs.Likeness
import LaneMachine.Proofs.Locks
import LaneMachine.Proofs.Lockstep
import LaneMachine.Proofs.Nesting
import LaneMachine.Proofs.Numerals
import LaneMachine.Proofs.Overhang
import LaneMachine.Proofs.Postfix
import LaneMachine.Proofs.Report
import LaneMachine.Proofs.Resources
import LaneMachine.Proofs.Run
import LaneMachine.Proofs.Selection
import LaneMachine.Proofs.Summation
import LaneMachine.Proofs.Termination
import LaneMachine.Proofs.Throws
import LaneMachine.Proofs.Trace
import LaneMachine.Proofs.Transaction
import LaneMachine.Proofs.Twins
import LaneMachine.Proofs.Work
import LaneMachine.Proofs.WrittenIdentifier
import LaneMachine.Session
import LaneMachine.Status
import LaneMachine.Store.Access
import LaneMachine.Store.Basic
import LaneMachine.Table
import LaneMachine.Text.Blank
