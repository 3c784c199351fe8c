set_option autoImplicit false

/-!
# Opcodes

A method's code is a flat run of bytes: each instruction is an opcode byte followed by
its immediate, if it has one.  Eighteen of the 256 byte values are assigned.  Opcodes
that end in `16` carry a two-byte immediate, the one that ends in `64` an eight-byte
immediate, and all others carry none.
-/

namespace LaneMachine

/-- What an instruction does. -/
inductive Opcode where
  /-- nothing -/
  | noOp
  /-- pops an application and calls its dispatcher in that application's own context -/
  | invokeDispatcher
  /-- as `invokeDispatcher`, and the callee is independent -/
  | indInvokeDispatcher
  /-- pops an application and queues its dispatcher as a new lane -/
  | spawnDispatcher
  /-- pops a method and calls it in the current application and context -/
  | invokeInternal
  /-- as `invokeInternal`, and the callee is independent -/
  | indInvokeInternal
  /-- returns nothing -/
  | ret0
  /-- returns the top word -/
  | ret64
  /-- throws the top bytes, as many as the top two bytes say and those two themselves -/
  | throw
  /-- takes the entrance lock of the current context -/
  | enter
  /-- pushes the immediate word -/
  | pushC64
  /-- drops the top word -/
  | pop
  /-- replaces the top two words by their wrapping sum -/
  | iAdd
  /-- replaces the top two words by the second less the top, wrapping -/
  | iSub
  /-- pops a word into the arguments of the next call -/
  | argC16
  /-- pushes a word of the local frame -/
  | lfLoadC16
  /-- pops a word into the local frame -/
  | lfStoreC16
  /-- jumps by the signed immediate if the top two words are equal -/
  | jmpEqC16
  deriving DecidableEq, Repr, Inhabited

namespace Opcode

/-- Every opcode, in the order of their bytes. -/
def all : List Opcode :=
  [.noOp, .invokeDispatcher, .indInvokeDispatcher, .spawnDispatcher, .invokeInternal,
   .indInvokeInternal, .ret0, .ret64, .throw, .enter, .pushC64, .pop, .iAdd, .iSub, .argC16,
   .lfLoadC16, .lfStoreC16, .jmpEqC16]

/-- The byte that stands for an opcode in code. -/
def byte : Opcode → UInt8
  | .noOp => 0x00
  | .invokeDispatcher => 0x01
  | .indInvokeDispatcher => 0x02
  | .spawnDispatcher => 0x03
  | .invokeInternal => 0x04
  | .indInvokeInternal => 0x05
  | .ret0 => 0x08
  | .ret64 => 0x09
  | .throw => 0x0b
  | .enter => 0x0c
  | .pushC64 => 0x10
  | .pop => 0x11
  | .iAdd => 0x12
  | .iSub => 0x13
  | .argC16 => 0x14
  | .lfLoadC16 => 0x15
  | .lfStoreC16 => 0x16
  | .jmpEqC16 => 0x17

/-- The opcode that a byte stands for, if the byte is assigned. -/
def ofByte? (byte : UInt8) : Option Opcode :=
  all.find? fun opcode => opcode.byte == byte

/-- The assembly name of an opcode. -/
def mnemonic : Opcode → String
  | .noOp => "noOp"
  | .invokeDispatcher => "invokeDispatcher"
  | .indInvokeDispatcher => "indInvokeDispatcher"
  | .spawnDispatcher => "spawnDispatcher"
  | .invokeInternal => "invokeInternal"
  | .indInvokeInternal => "indInvokeInternal"
  | .ret0 => "ret0"
  | .ret64 => "ret64"
  | .throw => "throw"
  | .enter => "enter"
  | .pushC64 => "pushC64"
  | .pop => "pop"
  | .iAdd => "iAdd"
  | .iSub => "iSub"
  | .argC16 => "argC16"
  | .lfLoadC16 => "lfLoadC16"
  | .lfStoreC16 => "lfStoreC16"
  | .jmpEqC16 => "jmpEqC16"

/-- Every text that names an opcode: its mnemonic, and for `pushC64` also a long spelling. -/
def spellings : Opcode → List String
  | .pushC64 => ["pushC64", "pushConst64"]
  | opcode => [opcode.mnemonic]

/-- The opcode that a text names, letter case included. -/
def ofMnemonic? (text : String) : Option Opcode :=
  all.find? fun opcode => opcode.spellings.contains text

/-- Width in bytes of the immediate that follows an opcode. -/
def immediateSize : Opcode → Nat
  | .pushC64 => 8
  | .argC16 | .lfLoadC16 | .lfStoreC16 | .jmpEqC16 => 2
  | _ => 0

@[simp]
theorem ofByte?_byte (opcode : Opcode) : ofByte? opcode.byte = some opcode := by
  cases opcode <;> rfl

theorem byte_of_ofByte? {byte : UInt8} {opcode : Opcode} (h : ofByte? byte = some opcode) :
    opcode.byte = byte := by
  have := List.find?_some h
  simpa using this

/-- Either spelling of an opcode names that opcode and no other. -/
theorem ofMnemonic?_of_mem_spellings {opcode : Opcode} {text : String}
    (h : text ∈ opcode.spellings) : ofMnemonic? text = some opcode := by
  cases opcode <;> simp only [spellings, mnemonic, List.mem_cons, List.not_mem_nil, or_false] at h
  case pushC64 => rcases h with rfl | rfl <;> decide
  all_goals subst h; decide

theorem mem_spellings_of_ofMnemonic? {opcode : Opcode} {text : String}
    (h : ofMnemonic? text = some opcode) : text ∈ opcode.spellings := by
  have := List.find?_some h
  simpa using this

end Opcode

end LaneMachine
