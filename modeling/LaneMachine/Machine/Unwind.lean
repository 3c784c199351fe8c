import LaneMachine.Machine.Basic
set_option autoImplicit false

/-!
# Returns and throws

A return drops the running frame; a throw drops every frame down to the innermost
boundary.  Both hand bytes from the top of the running frame's stack to whoever waits
below, and both resolve the heap's checkpoint: an error takes it back, a normal end of an
independent frame or of the whole session drops it.

Everything that can go wrong is checked first (`deliveryFault?`), so that a refused
unwind changes nothing; what follows (`unwound`) is total.
-/

namespace LaneMachine

namespace Machine

variable {H : Type}

/-- Why `count` bytes cannot go from the first of the dropped frames to the first of the kept ones,
if they cannot. -/
def deliveryFault? (dropped kept : Lane) (count : Nat) : Option Fault :=
  match dropped with
  | [] => some .noActiveFrame
  | source :: _ =>
    if source.stack.size < count then some (.signal .invalidOperands)
    else
      match kept with
      | [] => none
      | caller :: _ =>
        if caller.stack.canGrowBy count then none
        else some (.buffer (.limitExceeded (caller.stack.size + count) caller.stack.ceiling))

/-- The last `count` bytes on the stack of the first dropped frame. -/
def payload (dropped : Lane) (count : Nat) : Bytes :=
  match dropped with
  | [] => #[]
  | source :: _ => Bytes.suffix source.stack.contents count

/-- The locks that stay when frames are dropped. -/
def locksWithout (locks : List Identifier) (dropped : Lane) : List Identifier :=
  locks.filter fun context => !dropped.any fun frame => frame.lock == some context

/-- The machine with only the kept frames, the payload handed down to them or to the output, and the
locks of the dropped frames released. -/
def delivered (m : Machine H) (dropped kept : Lane) (count : Nat) : Machine H :=
  let locks := locksWithout m.locks dropped
  let bytes := payload dropped count
  match kept with
  | [] => { m with lane := [], locks, output := m.output ++ bytes }
  | caller :: rest =>
    { m with lane := { caller with stack := caller.stack.append bytes } :: rest, locks }

/-- Goes on after frames were dropped: in the caller, in the next lane, or not at all.  An error that
reaches the end of a lane drops all lanes that wait. -/
def settled (m : Machine H) (count : Nat) (status : Status) : Machine H :=
  match m.lane with
  | _ :: _ => m.emit (.returned status count m.depth)
  | [] =>
    match status.isError, m.waiting with
    | false, next :: waiting =>
      { m with lane := [next], waiting }.emit (.laneStarted next.app waiting.length)
    | _, _ => { m with waiting := [] }.emit (.complete status m.waiting.length)

/-- Resolves the heap's latest checkpoint: an error takes the heap back to it, a normal end that
closes it drops it. -/
def resolved [Heap H] (m : Machine H) (status : Status) (closes : Bool) : Machine H :=
  if status.isError then { m.emit .restored with heap := Heap.restore m.heap }
  else if closes then { m.emit .discarded with heap := Heap.discard m.heap }
  else m

/-- The machine once the dropped frames are gone. -/
def unwound [Heap H] (m : Machine H) (dropped kept : Lane) (count : Nat) (status : Status) :
    Machine H :=
  let independent := dropped.getLast?.any Frame.independent
  let m := (m.delivered dropped kept count).settled count status
  let m := m.resolved status (independent || m.isComplete)
  repoint { m with status }

/-- Drops frames from the running lane, which consists of `dropped` and `kept`. -/
def unwind [Heap H] (dropped kept : Lane) (count : Nat) (status : Status) : Exec H Unit := fun m =>
  match deliveryFault? dropped kept count with
  | some fault => .error fault m
  | none => .ok () (m.unwound dropped kept count status)

/-- Returns the top `count` bytes of the running frame to its caller. -/
def returnBytes [Heap H] (count : Nat) (status : Status) : Exec H Unit := fun m =>
  match m.lane with
  | [] => .error .noActiveFrame m
  | top :: rest => unwind [top] rest count status m

/-- Throws the top `count` bytes of the running frame to the innermost boundary. -/
def throwBytes [Heap H] (count : Nat) (status : Status) : Exec H Unit := fun m =>
  unwind m.lane.split.1 m.lane.split.2 count status m

/-- Stops everything and takes the heap back to its latest checkpoint. -/
def abort [Heap H] (m : Machine H) (status : Status) : Machine H :=
  { m with lane := [], waiting := [], locks := [], heap := Heap.restore m.heap, status }

/-- A refused unwind changes nothing. -/
theorem unwind_eq_error_iff [Heap H] (m m' : Machine H) (dropped kept : Lane) (count : Nat)
    (status : Status) (fault : Fault) :
    unwind dropped kept count status m = .error fault m' ↔
      deliveryFault? dropped kept count = some fault ∧ m' = m := by
  cases h : deliveryFault? dropped kept count with
  | none => simp [unwind, h]
  | some found => simp [unwind, h, eq_comm]

end Machine

end LaneMachine
