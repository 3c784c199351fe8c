import LaneMachine.Machine.Step
set_option autoImplicit false

/-!
# Sessions

A session runs the dispatcher of one application on arguments that the host chose.  Its
first frame works in that application's own context and is independent, so that the heap
is checkpointed before anything executes.

The set-up checks what it was given before it asks for memory.  Fresh buffers may be larger than
any allocation; then the host breaks off in the middle of the set-up, and there is no session and
no fault.
-/

namespace LaneMachine

/-- What a session produced. -/
structure Outcome where
  /-- what the bottom frames of the finished lanes returned, in lane order -/
  output : Bytes
  /-- how the last return or throw ended -/
  error : Status
  deriving DecidableEq, Repr, Inhabited

/-- How the set-up of a session ends. -/
inductive Setup (H : Type) where
  /-- the session is refused -/
  | refused (fault : Fault)
  /-- a fresh buffer is larger than any allocation, and the host breaks off -/
  | overflow
  /-- the session may run, from this machine on -/
  | ready (first : Machine H)
  deriving DecidableEq, Repr

namespace Machine

variable {H : Type}

/-- A machine that has not called anything yet. -/
def idle (limits : Limits) (arguments : Buffer) (methods : Store) (heap : H) : Machine H :=
  { limits, lane := [], waiting := [], status := .noError, locks := [], arguments, output := #[],
    methods, heap, trace := [] }

/-- Sets up a session that calls `app`, with arguments behind which there is room for `spare` bytes.
It is refused if the arguments do not fit a local frame or if no frame is allowed at all. -/
def start [Heap H] (limits : Limits) (app : Identifier) (arguments : Bytes) (spare : Nat)
    (methods : Store) (heap : H) : Setup H :=
  match Buffer.ofBytes arguments spare limits.maxLocalFrame.toNat with
  | .error e => .refused (.buffer e)
  | .ok arguments =>
    -- a call that is refused asks for no memory
    if limits.maxCallStackDepth ≠ 0 ∧ allocatesFresh limits = false then .overflow
    else
      match (do call app app .dispatcher; markIndependent : Exec H Unit)
          (idle limits arguments methods heap) with
      | .ok _ m => .ready m
      | .error fault _ => .refused fault

/-- What a session has produced so far. -/
def outcome (m : Machine H) : Outcome :=
  { output := m.output, error := m.status }

end Machine

end LaneMachine
