import LaneMachine.Buffer
import LaneMachine.Status
import LaneMachine.Store.Basic
set_option autoImplicit false

/-!
# Faults

A fault is why an instruction could not complete.  It never leaves the machine: the
machine throws in its place, with the status that the fault stands for.
-/

namespace LaneMachine

/-- Why an instruction could not complete. -/
inductive Fault where
  /-- an operand stack or a local frame refused -/
  | buffer (error : Buffer.Error)
  /-- a store refused -/
  | store (error : Store.Error)
  /-- bytes do not spell an identifier -/
  | identifier (error : Identifier.DecodeError)
  /-- a failure that already has its status -/
  | signal (status : Status)
  /-- the byte is not assigned to an opcode -/
  | invalidOpcode (byte : UInt8)
  /-- the machine is in a state that it should never be in -/
  | internal (reason : String)
  deriving DecidableEq, Repr, Inhabited

namespace Fault

/-- The wording of a fault. -/
def message : Fault → String
  | .buffer error => error.message
  | .store error => error.message
  | .identifier error => error.message
  | .signal status => status.name
  | .invalidOpcode byte => s!"invalid opcode byte: 0x{paddedHexOfNat 2 byte.toNat}"
  | .internal reason => s!"internal error: {reason}"

/-- The status that is thrown in place of a fault. -/
def status : Fault → Status
  | .buffer (.limitExceeded _ _) => .memoryLimitExceeded
  | .buffer (.outOfBounds _ _ _) => .invalidReference
  | .store _ => .invalidReference
  | .identifier _ => .runtimeError
  | .signal status => status
  | .invalidOpcode _ => .runtimeError
  | .internal _ => .runtimeError

/-- The fault of an instruction that finds no frame to run in. -/
def noActiveFrame : Fault := .internal "no active call frame"

end Fault

end LaneMachine
