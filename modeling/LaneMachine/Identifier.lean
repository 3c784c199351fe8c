import LaneMachine.Bytes
set_option autoImplicit false

/-!
# Identifiers

Applications, methods and heap contexts share one 64-bit namespace.  On the operand
stack an identifier is a plain word.  On the wire it is written with its length in
front: a byte `L`, at most eight, then `L` significant bytes.  Those bytes become the
*most* significant bytes of the word, so that a short identifier and a long one that
starts with zero bytes name the same thing.
-/

namespace LaneMachine

/-- The name of an application, a method or a heap context. -/
structure Identifier where
  /-- The identifier as a word. -/
  value : UInt64
  deriving DecidableEq, Repr, Inhabited

namespace Identifier

/-- Most significant bytes that a written identifier may declare. -/
def maxLength : Nat := 8

/-- The method that an application runs when it is called from outside. -/
def dispatcher : Identifier := ⟨0⟩

/-- Why bytes do not spell an identifier. -/
inductive DecodeError where
  /-- there is no length byte -/
  | empty
  /-- the length byte declares more than eight significant bytes -/
  | tooLong (declared : Nat)
  deriving DecidableEq, Repr, Inhabited

/-- The wording of a decoding error. -/
def DecodeError.message : DecodeError → String
  | .empty => "identifier encoding is empty"
  | .tooLong declared =>
    s!"identifier declares {declared} significant bytes, at most 8 are allowed"

/-- Reads a written identifier.  Significant bytes that are missing at the end read as zero,
and bytes past the declared length are ignored. -/
def decode : List UInt8 → Except DecodeError Identifier
  | [] => .error .empty
  | length :: payload =>
    if maxLength < length.toNat then .error (.tooLong length.toNat)
    else
      let significant := natOfBytes (payload.take length.toNat)
      .ok ⟨UInt64.ofNat (significant <<< (8 * (maxLength - length.toNat)))⟩

/-- The shortest hexadecimal text of an identifier, as it is shown in logs and events. -/
def hex (id : Identifier) : String :=
  hexOfNat id.value.toNat

/-- All sixteen hexadecimal digits of an identifier. -/
def paddedHex (id : Identifier) : String :=
  paddedHexOfNat 16 id.value.toNat

/-- The shortest hexadecimal text, marked as hexadecimal. -/
def markedHex (id : Identifier) : String :=
  "0x" ++ id.hex

theorem decode_eq_empty_iff (bs : List UInt8) : decode bs = .error .empty ↔ bs = [] := by
  cases bs with
  | nil => simp [decode]
  | cons length payload =>
    simp only [decode, reduceCtorEq, iff_false]
    split <;> simp

/-- The written form with all eight bytes reads back as the word it was made from. -/
theorem decode_bytesOfWord (word : UInt64) : decode (8 :: bytesOfWord word) = .ok ⟨word⟩ := by
  have hlen : (8 : UInt8).toNat = 8 := rfl
  have htake : (bytesOfWord word).take 8 = bytesOfWord word :=
    List.take_of_length_le (by simp)
  have hword := wordOfBytes_bytesOfWord word
  simp only [wordOfBytes] at hword
  simp [decode, hlen, maxLength, htake, hword]

end Identifier

end LaneMachine
