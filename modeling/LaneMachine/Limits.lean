import LaneMachine.Identifier
set_option autoImplicit false

/-!
# Limits

The sizes and depths that a session may not exceed, and the sizes that its buffers
start with.  A limit may be any 64-bit number, zero included; an initial size above
its own ceiling is cut to the ceiling where it is used.
-/

namespace LaneMachine

/-- Sizes (in bytes) and depths of one session. -/
structure Limits where
  /-- capacity of a fresh operand stack -/
  initialOperandStack : UInt64 := 512
  /-- ceiling of every operand stack -/
  maxOperandStack : UInt64 := 131072
  /-- length of a fresh, zero-filled local frame -/
  initialLocalFrame : UInt64 := 4096
  /-- ceiling of every local frame, the session's arguments included -/
  maxLocalFrame : UInt64 := 262144
  /-- most frames in one lane -/
  maxCallStackDepth : UInt64 := 1024
  /-- most lanes, the running one included -/
  maxLanes : UInt64 := 1024
  deriving DecidableEq, Repr, Inhabited

namespace Limits

/-- One of the six limits. -/
inductive Field where
  /-- capacity of a fresh operand stack -/
  | initialOperandStack
  /-- ceiling of every operand stack -/
  | maxOperandStack
  /-- length of a fresh local frame -/
  | initialLocalFrame
  /-- ceiling of every local frame -/
  | maxLocalFrame
  /-- most frames in one lane -/
  | maxCallStackDepth
  /-- most lanes -/
  | maxLanes
  deriving DecidableEq, Repr, Inhabited

namespace Field

/-- Every limit, in the order in which limits are written. -/
def all : List Field :=
  [.initialOperandStack, .maxOperandStack, .initialLocalFrame, .maxLocalFrame,
   .maxCallStackDepth, .maxLanes]

/-- The written name of a limit. -/
def name : Field → String
  | .initialOperandStack => "initial_operand_stack"
  | .maxOperandStack => "max_operand_stack"
  | .initialLocalFrame => "initial_local_frame"
  | .maxLocalFrame => "max_local_frame"
  | .maxCallStackDepth => "max_call_stack_depth"
  | .maxLanes => "max_lanes"

/-- The limit that a written name stands for. -/
def ofName? (name : String) : Option Field :=
  all.find? fun field => field.name == name

@[simp]
theorem ofName?_name (field : Field) : ofName? field.name = some field := by
  cases field <;> decide

theorem mem_all (field : Field) : field ∈ all := by
  cases field <;> decide

end Field

/-- The value of one limit. -/
def get (limits : Limits) : Field → UInt64
  | .initialOperandStack => limits.initialOperandStack
  | .maxOperandStack => limits.maxOperandStack
  | .initialLocalFrame => limits.initialLocalFrame
  | .maxLocalFrame => limits.maxLocalFrame
  | .maxCallStackDepth => limits.maxCallStackDepth
  | .maxLanes => limits.maxLanes

/-- The limits with one of them replaced. -/
def set (limits : Limits) (field : Field) (value : UInt64) : Limits :=
  match field with
  | .initialOperandStack => { limits with initialOperandStack := value }
  | .maxOperandStack => { limits with maxOperandStack := value }
  | .initialLocalFrame => { limits with initialLocalFrame := value }
  | .maxLocalFrame => { limits with maxLocalFrame := value }
  | .maxCallStackDepth => { limits with maxCallStackDepth := value }
  | .maxLanes => { limits with maxLanes := value }

/-- Setting a limit changes that limit and no other. -/
@[simp]
theorem get_set (limits : Limits) (field other : Field) (value : UInt64) :
    (limits.set field value).get other = if other = field then value else limits.get other := by
  cases field <;> cases other <;> rfl

/-- Limits are determined by their six values. -/
theorem ext_get {a b : Limits} (h : ∀ field, a.get field = b.get field) : a = b := by
  cases a
  cases b
  have h1 := h .initialOperandStack
  have h2 := h .maxOperandStack
  have h3 := h .initialLocalFrame
  have h4 := h .maxLocalFrame
  have h5 := h .maxCallStackDepth
  have h6 := h .maxLanes
  simp only [get] at h1 h2 h3 h4 h5 h6
  simp [h1, h2, h3, h4, h5, h6]

end Limits

end LaneMachine
