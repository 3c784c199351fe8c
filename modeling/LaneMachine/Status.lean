set_option autoImplicit false

/-!
# Statuses

A status is what a return, a throw or a whole session reports to whoever waits for it.
It is data, not a failure of the machine: `noError` is one of its values.
-/

namespace LaneMachine

/-- How the last return or throw ended. -/
inductive Status where
  /-- success -/
  | noError
  /-- too few bytes on the operand stack for what had to be moved -/
  | invalidOperands
  /-- a lane was spawned below an independent call -/
  | invalidSpawnState
  /-- raised by the program itself -/
  | softwareError
  /-- an access outside a buffer or a chunk -/
  | invalidReference
  /-- a buffer would have grown past its ceiling -/
  | memoryLimitExceeded
  /-- the lane or the queue of lanes is full -/
  | maxCallStackDepthExceeded
  /-- reserved for arithmetic overflow -/
  | overflow
  /-- reserved for arithmetic underflow -/
  | underflow
  /-- reserved for lossy conversions -/
  | precisionLoss
  /-- a context was entered that is already locked -/
  | reentrancy
  /-- any other failure -/
  | runtimeError
  deriving DecidableEq, Repr, Inhabited

namespace Status

/-- Every status, in the order of their codes. -/
def all : List Status :=
  [.noError, .invalidOperands, .invalidSpawnState, .softwareError, .invalidReference,
   .memoryLimitExceeded, .maxCallStackDepthExceeded, .overflow, .underflow, .precisionLoss,
   .reentrancy, .runtimeError]

/-- The number that stands for a status. -/
def code : Status → Nat
  | .noError => 0
  | .invalidOperands => 1
  | .invalidSpawnState => 2
  | .softwareError => 3
  | .invalidReference => 4
  | .memoryLimitExceeded => 5
  | .maxCallStackDepthExceeded => 6
  | .overflow => 7
  | .underflow => 8
  | .precisionLoss => 9
  | .reentrancy => 10
  | .runtimeError => 11

/-- The status that a number stands for. -/
def ofCode? (code : Nat) : Option Status :=
  all[code]?

/-- The written name of a status. -/
def name : Status → String
  | .noError => "NoError"
  | .invalidOperands => "InvalidOperands"
  | .invalidSpawnState => "InvalidSpawnState"
  | .softwareError => "SoftwareError"
  | .invalidReference => "InvalidReference"
  | .memoryLimitExceeded => "MemoryLimitExceeded"
  | .maxCallStackDepthExceeded => "MaxCallStackDepthExceeded"
  | .overflow => "OverFlow"
  | .underflow => "UnderFlow"
  | .precisionLoss => "PrecisionLoss"
  | .reentrancy => "Reentrancy"
  | .runtimeError => "RuntimeError"

/-- The status that a written name stands for. -/
def ofName? (name : String) : Option Status :=
  all.find? fun status => status.name == name

/-- Every status except success is an error. -/
def isError (status : Status) : Bool :=
  status != .noError

@[simp]
theorem ofCode?_code (status : Status) : ofCode? status.code = some status := by
  cases status <;> rfl

@[simp]
theorem ofName?_name (status : Status) : ofName? status.name = some status := by
  cases status <;> decide

end Status

end LaneMachine
