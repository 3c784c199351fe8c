import LaneMachine.Fault
set_option autoImplicit false

/-!
# Frames and lanes

A frame is one activation of a method: where it is in its code, whose state it works on,
its operand stack and its local frame.  A lane is a stack of frames, each called by the
one below it; the running frame comes first in the list.

A frame that was called independently is a boundary: a throw from above it stops there,
and the heap was checkpointed when it was entered.  The bottom frame of a lane is always
such a boundary for throws, whether it is marked or not; `Lane.split` is the one place
where that rule is stated.
-/

namespace LaneMachine

/-- One activation of a method. -/
structure Frame where
  /-- offset of the next byte of code -/
  pc : Nat
  /-- the heap context that the frame works on -/
  context : Identifier
  /-- the application that owns the method -/
  app : Identifier
  /-- the method -/
  method : Identifier
  /-- whether the frame was called independently -/
  independent : Bool
  /-- the context whose entrance lock the frame holds -/
  lock : Option Identifier
  /-- the operand stack -/
  stack : Buffer
  /-- the local frame, which starts as the arguments of the call -/
  locals : Buffer
  deriving DecidableEq, Repr, Inhabited

namespace Frame

/-- A program on a frame. -/
abbrev Op (α : Type) : Type := EStateM Fault Frame α

variable {α : Type}

/-- Runs a program on the operand stack. -/
def onStack (op : Buffer.Op α) : Op α := fun frame =>
  match op frame.stack with
  | .ok a stack => .ok a { frame with stack }
  | .error e stack => .error (.buffer e) { frame with stack }

/-- Runs a program on the local frame. -/
def onLocals (op : Buffer.Op α) : Op α := fun frame =>
  match op frame.locals with
  | .ok a locals => .ok a { frame with locals }
  | .error e locals => .error (.buffer e) { frame with locals }

/-- Moves past `count` bytes of code. -/
def skip (count : Nat) : Op Unit := fun frame =>
  .ok () { frame with pc := frame.pc + count }

/-- Moves by a signed distance; the target has to be a 64-bit offset. -/
def jump (distance : Int) : Op Unit := fun frame =>
  let target := (frame.pc : Int) + distance
  if 0 ≤ target ∧ target < UInt64.size then .ok () { frame with pc := target.toNat }
  else .error (.signal .invalidReference) frame

end Frame

/-- Frames of one lane, running frame first. -/
abbrev Lane : Type := List Frame

namespace Lane

/-- Splits a lane where a throw stops: the frames that the throw drops, and those that stay.  The
lowest frame dropped is the innermost independent one above the bottom frame, or else the bottom
frame. -/
def split : Lane → Lane × Lane
  | [] => ([], [])
  | [bottom] => ([bottom], [])
  | top :: below :: rest =>
    if top.independent then ([top], below :: rest)
    else
      let (dropped, kept) := split (below :: rest)
      (top :: dropped, kept)

/-- Whether an independent call is active in the lane, other than the lane's own start. -/
def insideIndependent (lane : Lane) : Bool :=
  !lane.split.2.isEmpty

/-- A split loses no frame and keeps their order. -/
theorem split_append (lane : Lane) : lane.split.1 ++ lane.split.2 = lane := by
  fun_induction split lane with
  | case1 => rfl
  | case2 bottom => rfl
  | case3 top below rest h => rfl
  | case4 top below rest h dropped kept hsplit ih =>
    rw [hsplit] at ih
    simpa using ih

/-- A throw drops the running frame, whatever else it drops. -/
theorem split_cons (top : Frame) (rest : Lane) :
    ∃ dropped, (Lane.split (top :: rest)).1 = top :: dropped := by
  cases rest with
  | nil => exact ⟨[], rfl⟩
  | cons below rest =>
    simp only [split]
    split
    · exact ⟨[], rfl⟩
    · exact ⟨_, rfl⟩

/-- If frames stay after a throw, the lowest frame dropped is independent. -/
theorem independent_getLast?_split (lane : Lane) (h : lane.split.2 ≠ []) :
    lane.split.1.getLast?.any Frame.independent = true := by
  fun_induction split lane with
  | case1 => simp at h
  | case2 bottom => simp at h
  | case3 top below rest hind => simpa using hind
  | case4 top below rest hind dropped kept hsplit ih =>
    rw [hsplit] at ih
    obtain ⟨more, hmore⟩ := split_cons below rest
    rw [hsplit] at hmore
    simp only at hmore ih h
    subst hmore
    simpa using ih h

end Lane

end LaneMachine
