import LaneMachine.Json.Reader
import LaneMachine.Session
set_option autoImplicit false

/-!
# Limits, outcomes, identifiers and statuses as JSON

How the values that a host exchanges with a session are written as JSON and read back.

A record is written as an object with all its fields.  It may be read from an object with
its fields in any order, where unknown fields are ignored and a repeated field is refused,
or from an array of its fields in order.  Limits that are missing take their defaults; an
outcome has to be whole.

These are the codecs of this library.  A host may bring others, and nothing but their laws matters
then; `LaneMachine.Proofs.JsonCodecs` states them, and `LaneMachine.Proofs.Interchange` shows that
these codecs keep them.
-/

namespace LaneMachine

namespace Json

/-- A natural number below `size`. -/
def natural? (size : Nat) : Json → Option Nat
  | .natural n => if n < size then some n else none
  | _ => none

/-- A natural number that fits a word. -/
def word? (json : Json) : Option UInt64 :=
  (json.natural? UInt64.size).map UInt64.ofNat

/-- A natural number that fits a byte. -/
def byte? (json : Json) : Option UInt8 :=
  (json.natural? UInt8.size).map UInt8.ofNat

/-- An array of bytes. -/
def bytes? : Json → Option Bytes
  | .array elements => (elements.mapM byte?).map List.toArray
  | _ => none

/-- The members of an object whose names are all texts. -/
def members? : Json → Option (List (Option String × Json))
  | .object members => if members.all fun member => member.1.isSome then some members else none
  | _ => none

end Json

namespace Identifier

/-- An identifier is written as a number. -/
def toJson (id : Identifier) : Json :=
  .natural id.value.toNat

/-- Reads an identifier. -/
def ofJson? (json : Json) : Option Identifier :=
  json.word?.map fun value => ⟨value⟩

end Identifier

namespace Status

/-- A status is written as its name. -/
def toJson (status : Status) : Json :=
  .string (some status.name)

/-- Reads a status from its name, or from an object with that name and `null` as its only member. -/
def ofJson? : Json → Option Status
  | .string (some name) => ofName? name
  | .object [(some name, .null)] => ofName? name
  | _ => none

end Status

namespace Limits

/-- Limits are written as an object with all six of them. -/
def toJson (limits : Limits) : Json :=
  .object (Field.all.map fun field => (some field.name, .natural (limits.get field).toNat))

/-- Sets a limit from the values given for it: none leaves it, one sets it, more are refused. -/
def setFrom? (limits : Limits) (field : Field) : List Json → Option Limits
  | [] => some limits
  | [value] => value.word?.map (limits.set field)
  | _ => none

/-- Sets limits in order from the values of an array. -/
def setInOrder? (limits : Limits) : List Field → List Json → Option Limits
  | _, [] => some limits
  | [], _ :: _ => none
  | field :: fields, value :: values =>
    value.word?.bind fun value => setInOrder? (limits.set field value) fields values

/-- Reads limits. -/
def ofJson? : Json → Option Limits
  | .array values => setInOrder? {} Field.all values
  | json =>
    json.members?.bind fun members =>
      Field.all.foldlM (fun limits field => limits.setFrom? field (Json.named field.name members)) {}

end Limits

namespace Outcome

/-- An outcome is written as an object with its output as an array of bytes. -/
def toJson (outcome : Outcome) : Json :=
  .object
    [(some "output", .array (outcome.output.toList.map fun b => .natural b.toNat)),
     (some "error", outcome.error.toJson)]

/-- Reads an outcome from the values given for its output and for its error, one for each. -/
def ofValues? : List Json → List Json → Option Outcome
  | [output], [error] => do
    let output ← output.bytes?
    let error ← Status.ofJson? error
    return { output, error }
  | _, _ => none

/-- Reads an outcome. -/
def ofJson? : Json → Option Outcome
  | .array [output, error] => ofValues? [output] [error]
  | json =>
    json.members?.bind fun members =>
      ofValues? (Json.named "output" members) (Json.named "error" members)

end Outcome

end LaneMachine
