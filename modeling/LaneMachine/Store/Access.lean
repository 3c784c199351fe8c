import LaneMachine.Identifier
set_option autoImplicit false

/-!
# The access log of a store

Every selection, every successful read, every attempted write and every checkpoint
operation leaves an entry, so that a host can check the exact order in which a session
touched its memory.
-/

namespace LaneMachine

/-- One entry of an access log. -/
inductive Access where
  /-- a root was selected -/
  | root (id : Identifier)
  /-- a child was selected -/
  | child (id : Identifier)
  /-- one byte was read -/
  | loadedByte (offset : Nat) (value : UInt8)
  /-- a 16-bit value was read -/
  | loadedHalf (offset : Nat) (value : UInt16)
  /-- a word was read -/
  | loadedWord (offset : Nat) (value : UInt64)
  /-- bytes were to be written -/
  | stored (offset : Nat) (bytes : Bytes)
  /-- a checkpoint was taken -/
  | save
  /-- the latest checkpoint was dropped -/
  | discard
  /-- the latest checkpoint was reinstated -/
  | restore
  deriving DecidableEq, Repr, Inhabited

namespace Access

/-- The text of an entry.  Offsets are decimal; bytes and words show two digits for each byte in
memory order, single bytes and 16-bit values their shortest hexadecimal text. -/
def text : Access → String
  | .root id => s!"root<-{id.hex}"
  | .child id => s!"child<-{id.hex}"
  | .loadedByte offset value => s!"[{offset}]->{hexOfNat value.toNat}"
  | .loadedHalf offset value => s!"[{offset}]->{hexOfNat value.toNat}"
  | .loadedWord offset value => s!"[{offset}]->{hexOfBytes (bytesOfWord value).toArray}"
  | .stored offset bytes => s!"[{offset}]<-{hexOfBytes bytes}"
  | .save => "Save"
  | .discard => "Discard"
  | .restore => "Restore"

/-- The text of a log whose latest entry comes first: the entries in the order in which they were
made, three blanks between them. -/
def logText (log : List Access) : String :=
  String.intercalate "   " (log.reverse.map text)

end Access

end LaneMachine
