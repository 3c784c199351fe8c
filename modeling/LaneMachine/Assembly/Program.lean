import LaneMachine.Assembly.Numeral
import LaneMachine.Bytes
import LaneMachine.Opcode
import LaneMachine.Text.Blank
set_option autoImplicit false

/-!
# Assembly programs

A program is a text of tokens separated by white space.  Each token stands for bytes of
its own: an integer for a word, a sized number for as many bytes as its width says, a
mnemonic for an opcode byte.  The assembler does not check that immediates follow the
opcodes that need them.
-/

namespace LaneMachine

namespace Assembly

/-- What a token of a program stands for. -/
inductive Token where
  /-- an integer, eight bytes -/
  | integer (value : Int)
  /-- a number of its own width -/
  | sized (width : Nat) (value : Int)
  /-- an opcode byte -/
  | opcode (op : Opcode)
  deriving DecidableEq, Repr, Inhabited

namespace Token

/-- Reads a token. -/
def ofText? (text : List Char) : Option Token :=
  match integer? text with
  | some value => some (.integer value)
  | none =>
    match sized? text with
    | some (width, value) => some (.sized width value)
    | none => (Opcode.ofMnemonic? (String.ofList text)).map .opcode

/-- The lowest `width` bytes of an integer in two's complement, eight at most. -/
def bytesOfInt (width : Nat) (value : Int) : List UInt8 :=
  (bytesOfWord (UInt64.ofInt value)).take width

/-- The bytes that a token stands for. -/
def bytes : Token → List UInt8
  | .integer value => bytesOfInt wordSize value
  | .sized width value => bytesOfInt width value
  | .opcode op => [op.byte]

end Token

/-- Why a program cannot be assembled. -/
inductive Error where
  /-- the token stands for nothing -/
  | unknownInstruction (token : String)
  deriving DecidableEq, Repr, Inhabited

/-- The wording of an assembly error. -/
def Error.message : Error → String
  | .unknownInstruction token => s!"unknown instruction: {token}"

/-- The bytes of a list of words, or the first of them that stands for nothing. -/
def assembleWords : List (List Char) → Except Error (List UInt8)
  | [] => .ok []
  | word :: rest =>
    match Token.ofText? word with
    | none => .error (.unknownInstruction (String.ofList word))
    | some token =>
      match assembleWords rest with
      | .error e => .error e
      | .ok bytes => .ok (token.bytes ++ bytes)

/-- The bytes of a program. -/
def assemble (program : String) : Except Error (List UInt8) :=
  assembleWords (Text.words program.toList)

end Assembly

end LaneMachine
