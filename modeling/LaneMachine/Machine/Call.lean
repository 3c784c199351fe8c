import LaneMachine.Machine.Basic
set_option autoImplicit false

/-!
# Calls and spawns

Both make a new frame out of the arguments passed so far.  A call puts it on the running
lane and turns the machine to it; a spawn queues it as the start of a new lane and leaves
the running frame where it is.  Either is refused before anything changes.
-/

namespace LaneMachine

namespace Machine

variable {H : Type}

/-- The frame that a call or a spawn makes now. -/
def newFrame (m : Machine H) (context app method : Identifier) : Frame :=
  { pc := 0, context, app, method, independent := false, lock := none,
    stack := freshStack m.limits, locals := m.arguments }

/-- The machine once the call is made. -/
def called [Heap H] (m : Machine H) (context app method : Identifier) : Machine H :=
  let frame := m.newFrame context app method
  let event := Event.call context app method (m.depth + 1)
  { repoint { m with lane := frame :: m.lane, trace := event :: m.trace } with status := .noError }

/-- Calls a method in a context, unless the lane is full. -/
def call [Heap H] (context app method : Identifier) : Exec H Unit := fun m =>
  if m.limits.maxCallStackDepth.toNat ≤ m.depth then
    .error (.signal .maxCallStackDepthExceeded) m
  else .ok () (m.called context app method)

/-- The machine once the lane is queued. -/
def spawned (m : Machine H) (app : Identifier) : Machine H :=
  let frame := m.newFrame app app .dispatcher
  let event := Event.spawned app (m.waiting.length + 2)
  { m with
    waiting := m.waiting ++ [frame]
    arguments := freshArguments m.limits
    trace := event :: m.trace }

/-- Queues the dispatcher of an application as a new lane, unless an independent call is active or
the queue is full. -/
def spawn (app : Identifier) : Exec H Unit := fun m =>
  if m.lane.insideIndependent then .error (.signal .invalidSpawnState) m
  else if m.limits.maxLanes.toNat ≤ m.waiting.length + 1 then
    .error (.signal .maxCallStackDepthExceeded) m
  else .ok () (m.spawned app)

/-- Makes the running frame a boundary for throws and checkpoints the heap. -/
def markIndependent [Heap H] : Exec H Unit := fun m =>
  match m.lane with
  | [] => .error .noActiveFrame m
  | top :: rest =>
    .ok () { m with lane := { top with independent := true } :: rest, heap := Heap.save m.heap }

end Machine

end LaneMachine
