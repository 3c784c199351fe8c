import LaneMachine.Fault
import LaneMachine.Opcode
set_option autoImplicit false

/-!
# Events

What a session reports while it runs: each instruction executed, each call and return,
each lane started, each checkpoint resolved, each fault.  Events are data; `level`,
`message` and `fields` give their wording.
-/

namespace LaneMachine

/-- Something that happened during a session. -/
inductive Event where
  /-- an instruction is about to run; `pc` is the offset of its opcode -/
  | execute (opcode : Opcode) (pc depth : Nat)
  /-- a frame was called; `depth` counts it -/
  | call (context app method : Identifier) (depth : Nat)
  /-- a lane was queued; `lanes` counts it and the running one -/
  | spawned (app : Identifier) (lanes : Nat)
  /-- the last frame is gone -/
  | complete (status : Status) (droppedLanes : Nat)
  /-- the next lane starts; `remaining` are still queued -/
  | laneStarted (app : Identifier) (remaining : Nat)
  /-- a caller goes on with `bytes` more bytes on its stack -/
  | returned (status : Status) (bytes depth : Nat)
  /-- the heap went back to its latest checkpoint -/
  | restored
  /-- the heap dropped its latest checkpoint -/
  | discarded
  /-- an instruction failed and its status is thrown -/
  | failed (fault : Fault)
  deriving DecidableEq, Repr, Inhabited

namespace Event

/-- How much an event matters. -/
inductive Level where
  /-- every instruction -/
  | trace
  /-- every change of frame, lane or checkpoint -/
  | debug
  /-- every fault -/
  | warn
  deriving DecidableEq, Repr, Inhabited

/-- The written name of a level. -/
def Level.name : Level → String
  | .trace => "TRACE"
  | .debug => "DEBUG"
  | .warn => "WARN"

/-- The level of an event. -/
def level : Event → Level
  | .execute _ _ _ => .trace
  | .failed _ => .warn
  | _ => .debug

/-- The fixed part of an event's wording. -/
def message : Event → String
  | .execute _ _ _ => "execute"
  | .call _ _ _ _ => "call"
  | .spawned _ _ => "spawned dispatcher"
  | .complete _ _ => "engine complete"
  | .laneStarted _ _ => "lane finished, starting next lane"
  | .returned _ _ _ => "returned to caller"
  | .restored => "heap checkpoint restored"
  | .discarded => "heap checkpoint discarded"
  | .failed _ => "instruction failed, throwing"

/-- The named details of an event: numbers in decimal, identifiers in hexadecimal. -/
def fields : Event → List (String × String)
  | .execute opcode pc depth =>
    [("opcode", opcode.mnemonic), ("pc", toString pc), ("depth", toString depth)]
  | .call context app method depth =>
    [("context", context.hex), ("app", app.hex), ("method", method.hex),
     ("depth", toString depth)]
  | .spawned app lanes => [("app", app.hex), ("lanes", toString lanes)]
  | .complete status droppedLanes =>
    [("status", status.name), ("dropped_lanes", toString droppedLanes)]
  | .laneStarted app remaining => [("app", app.hex), ("remaining", toString remaining)]
  | .returned status bytes depth =>
    [("status", status.name), ("bytes", toString bytes), ("depth", toString depth)]
  | .restored => []
  | .discarded => []
  | .failed fault => [("fault", fault.message), ("code", fault.status.name)]

end Event

end LaneMachine
