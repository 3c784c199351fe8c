import LaneMachine.Bytes
set_option autoImplicit false

/-!
# JSON values

The values of a JSON text, as far as this library needs to tell them apart, and their
compact text.  Natural numbers are numbers written with digits only; all other numbers are
kept as they were written.  An object keeps its members in order, repeated names included.
-/

namespace LaneMachine

/-- A JSON value. -/
inductive Json where
  /-- `null` -/
  | null
  /-- `true` or `false` -/
  | bool (value : Bool)
  /-- a number written with digits only -/
  | natural (value : Nat)
  /-- any other number, as written -/
  | decimal (text : String)
  /-- a string; `none` if an escape in it is half of a surrogate pair, so that it spells no text -/
  | string (text : Option String)
  /-- an array -/
  | array (elements : List Json)
  /-- an object; a name is `none` as a string is -/
  | object (members : List (Option String × Json))
  deriving Repr, Inhabited

namespace Json

/-- A character inside a quoted string. -/
def quotedChar (c : Char) : List Char :=
  if c = '"' then ['\\', '"']
  else if c = '\\' then ['\\', '\\']
  else if c.toNat = 0x08 then ['\\', 'b']
  else if c.toNat = 0x0c then ['\\', 'f']
  else if c = '\n' then ['\\', 'n']
  else if c = '\r' then ['\\', 'r']
  else if c = '\t' then ['\\', 't']
  else if c.toNat < 0x20 then
    ['\\', 'u', '0', '0', hexDigit (c.toNat / 16), hexDigit c.toNat]
  else [c]

/-- A quoted string.  One that spells no text is written as half of a surrogate pair. -/
def quoted : Option String → List Char
  | none => "\"\\ud800\"".toList
  | some text => '"' :: text.toList.flatMap quotedChar ++ ['"']

mutual

/-- The compact text of a value. -/
def chars : Json → List Char
  | .null => "null".toList
  | .bool true => "true".toList
  | .bool false => "false".toList
  | .natural n => Nat.toDigits 10 n
  | .decimal text => text.toList
  | .string text => quoted text
  | .array elements => '[' :: elementChars elements ++ [']']
  | .object members => '\x7b' :: memberChars members ++ ['\x7d']

/-- The elements of an array, commas between them. -/
def elementChars : List Json → List Char
  | [] => []
  | [element] => chars element
  | element :: rest => chars element ++ ',' :: elementChars rest

/-- The members of an object, commas between them. -/
def memberChars : List (Option String × Json) → List Char
  | [] => []
  | [(name, value)] => quoted name ++ ':' :: chars value
  | (name, value) :: rest => quoted name ++ ':' :: chars value ++ ',' :: memberChars rest

end

/-- The compact text of a value. -/
def text (value : Json) : String :=
  String.ofList value.chars

/-- The values of all members with a name. -/
def named (name : String) (members : List (Option String × Json)) : List Json :=
  (members.filter fun member => member.1 == some name).map Prod.snd

end Json

end LaneMachine
