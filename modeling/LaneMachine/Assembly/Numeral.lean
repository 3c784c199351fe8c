set_option autoImplicit false

/-!
# Numerals of the assembly language

Two kinds of token stand for numbers.  An *integer* is written in decimal or, after `0x`,
`0o` or `0b`, in base 16, 8 or 2, with an optional minus sign in front.  A *sized* number
is a width, the letter `d` and a decimal value.  A plus sign may stand right before the
digits in either kind.
-/

namespace LaneMachine

namespace Assembly

/-- The value of a digit in a base of at most 36; letter case does not matter. -/
def digitValue? (base : Nat) (c : Char) : Option Nat :=
  let n := c.toNat
  let value? :=
    if 48 ≤ n && n ≤ 57 then some (n - 48)
    else if 97 ≤ n && n ≤ 122 then some (n - 87)
    else if 65 ≤ n && n ≤ 90 then some (n - 55)
    else none
  value?.filter (· < base)

/-- The number that digits spell after `value` has been read. -/
def digitsFrom? (base value : Nat) : List Char → Option Nat
  | [] => some value
  | c :: text =>
    match digitValue? base c with
    | none => none
    | some digit => digitsFrom? base (value * base + digit) text

/-- The number that a non-empty run of digits spells. -/
def digits? (base : Nat) (text : List Char) : Option Nat :=
  if text.isEmpty then none else digitsFrom? base 0 text

/-- A run of digits with an optional plus sign. -/
def unsigned? (base : Nat) : List Char → Option Nat
  | '+' :: text => digits? base text
  | text => digits? base text

/-- A decimal number with an optional sign, in the range of a signed word. -/
def signed? (text : List Char) : Option Int :=
  let value? : Option Int :=
    match text with
    | '-' :: text => (digits? 10 text).map fun n => -(n : Int)
    | text => (unsigned? 10 text).map fun n => (n : Int)
  value?.filter fun value => Int64.minValue.toInt ≤ value && value ≤ Int64.maxValue.toInt

/-- The base that a numeral announces, and what follows the announcement. -/
def radix : List Char → Nat × List Char
  | '0' :: 'x' :: text => (16, text)
  | '0' :: 'X' :: text => (16, text)
  | '0' :: 'o' :: text => (8, text)
  | '0' :: 'O' :: text => (8, text)
  | '0' :: 'b' :: text => (2, text)
  | '0' :: 'B' :: text => (2, text)
  | text => (10, text)

/-- A numeral without a minus sign, in the range of a word. -/
def magnitude? (text : List Char) : Option Nat :=
  (unsigned? (radix text).1 (radix text).2).filter (· < UInt64.size)

/-- The value of an integer token. -/
def integer? : List Char → Option Int
  | '-' :: text => (magnitude? text).map fun n => -(n : Int)
  | text => (magnitude? text).map fun n => (n : Int)

/-- The width and the value of a sized token.  The first `d` divides the two. -/
def sized? (text : List Char) : Option (Nat × Int) :=
  match text.dropWhile (· != 'd') with
  | [] => none
  | _ :: value =>
    match unsigned? 10 (text.takeWhile (· != 'd')) with
    | none => none
    | some width =>
      if 1 ≤ width && width ≤ 8 then (signed? value).map fun value => (width, value) else none

end Assembly

end LaneMachine
