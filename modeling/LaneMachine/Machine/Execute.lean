import LaneMachine.Machine.Call
import LaneMachine.Machine.Unwind
set_option autoImplicit false

/-!
# Instructions

One program for each opcode.  When an instruction runs, the program counter is already
past its opcode byte; an instruction with an immediate reads it from there.
-/

namespace LaneMachine

namespace Buffer

/-- How many bytes a throw moves: as many as the 16-bit value on top says, and its own two. -/
def thrownSize : Op Nat := do
  let bytes ← top 2
  let size := (← get).size
  let span := natOfBytes bytes.toList + 2
  if size < span then throw (.outOfBounds 0 span size)
  return span

end Buffer

namespace Machine

variable {H : Type}

/-! ## Code -/

/-- Offset of the next byte of code. -/
def counter : Exec H Nat := fun m =>
  match m.lane with
  | [] => .error .noActiveFrame m
  | top :: _ => .ok top.pc m

/-- Reads a two-byte immediate and moves past it. -/
def immediateHalf : Exec H UInt16 := do
  let value ← onMethods (Store.loadHalf (← counter))
  onTop (Frame.skip 2)
  return value

/-- Reads an eight-byte immediate and moves past it. -/
def immediateWord : Exec H UInt64 := do
  let value ← onMethods (Store.loadWord (← counter))
  onTop (Frame.skip wordSize)
  return value

/-! ## Calls -/

/-- Pops an identifier off the operand stack. -/
def popIdentifier : Exec H Identifier := do
  return ⟨← onStack Buffer.pop⟩

/-- Pops an application and calls its dispatcher in the application's own context. -/
def invokeDispatcher [Heap H] : Exec H Unit := do
  let app ← popIdentifier
  call app app .dispatcher

/-- Pops an application and queues its dispatcher. -/
def spawnDispatcher : Exec H Unit := do
  let app ← popIdentifier
  spawn app

/-- Pops a method and calls it in the current application and context. -/
def invokeInternal [Heap H] : Exec H Unit := do
  let method ← popIdentifier
  let m ← get
  match m.lane with
  | [] => throw .noActiveFrame
  | top :: _ => call top.context top.app method

/-! ## Throws and locks -/

/-- Throws what the top of the stack says. -/
def throwTop [Heap H] : Exec H Unit := do
  let count ← onStack Buffer.thrownSize
  throwBytes count .softwareError

/-- Takes the entrance lock of the current context for as long as the running frame lives. -/
def enter : Exec H Unit := fun m =>
  match m.lane with
  | [] => .error .noActiveFrame m
  | top :: rest =>
    if m.isLocked top.context then .error (.signal .reentrancy) m
    else
      .ok () { m with
        lane := { top with lock := some top.context } :: rest
        locks := top.context :: m.locks }

/-! ## Words -/

/-- Pushes the immediate word. -/
def pushImmediate : Exec H Unit := do
  let word ← immediateWord
  onStack (Buffer.push word)

/-- Pops a word into the arguments of the next call. -/
def passArgument : Exec H Unit := do
  let offset ← immediateHalf
  let word ← onStack Buffer.peek
  onArguments do
    Buffer.ensure (offset.toNat + wordSize)
    Buffer.write offset.toNat word
  onStack Buffer.drop

/-- Pushes a word of the local frame. -/
def loadLocal : Exec H Unit := do
  let offset ← immediateHalf
  onTop do
    let word ← Frame.onLocals (Buffer.read offset.toNat)
    Frame.onStack (Buffer.push word)

/-- Pops a word into the local frame. -/
def storeLocal : Exec H Unit := do
  let offset ← immediateHalf
  onTop do
    let word ← Frame.onStack Buffer.peek
    Frame.onLocals do
      Buffer.ensure (offset.toNat + wordSize)
      Buffer.write offset.toNat word
    Frame.onStack Buffer.drop

/-- Jumps if the top two words are equal; both stay.  The distance counts from the end of the
immediate, which is read only if the jump is taken. -/
def jumpIfEqual : Exec H Unit := do
  let (first, second) ← onStack Buffer.peekTwo
  if first = second then
    let distance ← immediateHalf
    onTop (Frame.jump distance.toInt16.toInt)
  else
    onTop (Frame.skip 2)

/-! ## All opcodes -/

/-- Runs one instruction. -/
def execute [Heap H] : Opcode → Exec H Unit
  | .noOp => pure ()
  | .invokeDispatcher => invokeDispatcher
  | .indInvokeDispatcher => do invokeDispatcher; markIndependent
  | .spawnDispatcher => spawnDispatcher
  | .invokeInternal => invokeInternal
  | .indInvokeInternal => do invokeInternal; markIndependent
  | .ret0 => returnBytes 0 .noError
  | .ret64 => returnBytes wordSize .noError
  | .throw => throwTop
  | .enter => enter
  | .pushC64 => pushImmediate
  | .pop => do let _ ← onStack Buffer.pop
  | .iAdd => onStack (Buffer.combineTwo (· + ·))
  | .iSub => onStack (Buffer.combineTwo (· - ·))
  | .argC16 => passArgument
  | .lfLoadC16 => loadLocal
  | .lfStoreC16 => storeLocal
  | .jmpEqC16 => jumpIfEqual

end Machine

end LaneMachine
