import LaneMachine.Event
import LaneMachine.Frame
import LaneMachine.Heap.Basic
import LaneMachine.Limits
set_option autoImplicit false

/-!
# The machine

A machine runs one lane at a time and keeps the lanes spawned so far in a queue.  It
reads code from a store of methods and works on a heap that its host chose.

`Exec` is the type of programs on a machine.  A program that fails still leaves a
machine behind, because an instruction may have read code, popped operands or grown a
buffer before it failed; what the machine then does with those changes is decided in
`LaneMachine.Machine.Step`.
-/

namespace LaneMachine

/-- The state of a session. -/
structure Machine (H : Type) where
  /-- what the session may use -/
  limits : Limits
  /-- the running lane; empty once the session is complete -/
  lane : Lane
  /-- the first frames of the lanes still to run, next one first -/
  waiting : List Frame
  /-- how the last return or throw ended; every call clears it -/
  status : Status
  /-- contexts whose entrance lock is held -/
  locks : List Identifier
  /-- the local frame that the next call or spawn will hand over -/
  arguments : Buffer
  /-- what the bottom frames of the finished lanes returned -/
  output : Bytes
  /-- the code of all methods, by application and method -/
  methods : Store
  /-- the heap -/
  heap : H
  /-- events, latest first -/
  trace : List Event
  deriving DecidableEq, Repr, Inhabited

/-- A program on a machine. -/
abbrev Exec (H α : Type) : Type := EStateM Fault (Machine H) α

namespace Machine

variable {H α : Type}

/-- Whether no frame is left to run. -/
def isComplete (m : Machine H) : Bool :=
  m.lane.isEmpty

/-- Number of frames in the running lane. -/
def depth (m : Machine H) : Nat :=
  m.lane.length

/-- Whether some frame holds the entrance lock of `context`. -/
def isLocked (m : Machine H) (context : Identifier) : Bool :=
  m.locks.contains context

/-- The machine with one more event on its trace. -/
def emit (m : Machine H) (event : Event) : Machine H :=
  { m with trace := event :: m.trace }

/-- The events so far, in the order in which they happened, and the machine without them. -/
def takeEvents (m : Machine H) : List Event × Machine H :=
  (m.trace.reverse, { m with trace := [] })

/-! ## Fresh buffers

A frame starts with a fresh operand stack, and a call with fresh arguments.  Their first sizes are
the same throughout a session, so that it is enough to check them once, when it is set up.
-/

/-- The operand stack that a new frame starts with. -/
def freshStack (limits : Limits) : Buffer :=
  .withCapacity limits.initialOperandStack.toNat limits.maxOperandStack.toNat

/-- The arguments as they are before any of them is passed. -/
def freshArguments (limits : Limits) : Buffer :=
  .zeroed limits.initialLocalFrame.toNat limits.maxLocalFrame.toNat

/-- Whether fresh buffers of these limits may be asked for. -/
def allocatesFresh (limits : Limits) : Bool :=
  Buffer.allocatable limits.initialOperandStack.toNat limits.maxOperandStack.toNat &&
    Buffer.allocatable limits.initialLocalFrame.toNat limits.maxLocalFrame.toNat

theorem allocatesFresh_of_le {limits : Limits}
    (hstack : limits.initialOperandStack.toNat ≤ allocationLimit)
    (hlocals : limits.initialLocalFrame.toNat ≤ allocationLimit) : allocatesFresh limits = true := by
  have hstack := decide_eq_true (Nat.le_trans (Nat.min_le_left _ limits.maxOperandStack.toNat) hstack)
  have hlocals := decide_eq_true (Nat.le_trans (Nat.min_le_left _ limits.maxLocalFrame.toNat) hlocals)
  rw [allocatesFresh, Buffer.allocatable, Buffer.allocatable, hstack, hlocals, Bool.and_self]

/-! ## Parts of the machine -/

/-- Runs a program on the running frame. -/
def onTop (op : Frame.Op α) : Exec H α := fun m =>
  match m.lane with
  | [] => .error .noActiveFrame m
  | top :: rest =>
    match op top with
    | .ok a top => .ok a { m with lane := top :: rest }
    | .error e top => .error e { m with lane := top :: rest }

/-- Runs a program on the operand stack of the running frame. -/
def onStack (op : Buffer.Op α) : Exec H α :=
  onTop (Frame.onStack op)

/-- Runs a program on the arguments of the next call. -/
def onArguments (op : Buffer.Op α) : Exec H α := fun m =>
  match op m.arguments with
  | .ok a arguments => .ok a { m with arguments }
  | .error e arguments => .error (.buffer e) { m with arguments }

/-- Runs a program on the store of methods. -/
def onMethods (op : Store.Op α) : Exec H α := fun m =>
  match op m.methods with
  | .ok a methods => .ok a { m with methods }
  | .error e methods => .error (.store e) { m with methods }

/-- Turns both stores to the running frame and starts its arguments afresh.  Nothing happens once
the session is complete. -/
def repoint [Heap H] (m : Machine H) : Machine H :=
  match m.lane with
  | [] => m
  | top :: _ =>
    { m with
      arguments := freshArguments m.limits
      heap := Heap.selectRoot m.heap top.context
      methods := (m.methods.selectRoot top.app).selectChild top.method }

end Machine

end LaneMachine
