set_option autoImplicit false

/-!
# Bytes, little-endian numbers and hexadecimal text

Everything the machine stores is a run of bytes: code, operands, local frames, heap
chunks.  This module fixes how such a run is read as a number, how a number is
written back, how one run replaces part of another, and how bytes and numbers are
shown in hexadecimal.

Main statements: `natOfBytes` and `bytesOfNat` are inverse up to the width written
(`natOfBytes_bytesOfNat`, `bytesOfNat_natOfBytes`), and overwriting inside a run is
splicing (`Bytes.overwrite_toList`).
-/

namespace LaneMachine

/-- A run of bytes, first byte first. -/
abbrev Bytes : Type := Array UInt8

/-- Width in bytes of a machine word. -/
def wordSize : Nat := 8

/-! ## Little-endian numbers -/

/-- The number that `bs` spells, least significant byte first. -/
def natOfBytes : List UInt8 → Nat
  | [] => 0
  | b :: bs => b.toNat + 256 * natOfBytes bs

/-- The lowest `width` bytes of `n`, least significant byte first. -/
def bytesOfNat : (width n : Nat) → List UInt8
  | 0, _ => []
  | width + 1, n => UInt8.ofNat n :: bytesOfNat width (n / 256)

@[simp]
theorem length_bytesOfNat (width n : Nat) : (bytesOfNat width n).length = width := by
  induction width generalizing n with
  | zero => rfl
  | succ width ih => simp [bytesOfNat, ih]

/-- How many numbers `width` bytes can spell. -/
def byteSpan : (width : Nat) → Nat
  | 0 => 1
  | width + 1 => 256 * byteSpan width

theorem byteSpan_eq_pow (width : Nat) : byteSpan width = Nat.pow 256 width := by
  induction width with
  | zero => rfl
  | succ width ih =>
    rw [byteSpan, ih, Nat.mul_comm]
    rfl

/-- Bytes written at a width spell the number modulo the span of that width. -/
theorem natOfBytes_bytesOfNat (width n : Nat) :
    natOfBytes (bytesOfNat width n) = n % byteSpan width := by
  induction width generalizing n with
  | zero => simp [bytesOfNat, natOfBytes, byteSpan, Nat.mod_one]
  | succ width ih =>
    have low : (UInt8.ofNat n).toNat = n % 256 := UInt8.toNat_ofNat'
    rw [bytesOfNat, natOfBytes, ih, low, byteSpan, Nat.mod_mul]

/-- A run of bytes spells a number in the span of its length. -/
theorem natOfBytes_lt (bs : List UInt8) : natOfBytes bs < byteSpan bs.length := by
  induction bs with
  | nil => simp [natOfBytes, byteSpan]
  | cons b bs ih =>
    have hb : b.toNat < 256 := b.toNat_lt
    simp only [natOfBytes, List.length_cons, byteSpan]
    omega

/-- Writing what a run spells, at the run's own length, gives the run back. -/
theorem bytesOfNat_natOfBytes (bs : List UInt8) :
    bytesOfNat bs.length (natOfBytes bs) = bs := by
  induction bs with
  | nil => rfl
  | cons b bs ih =>
    have hb : b.toNat < 256 := b.toNat_lt
    have hdiv : (b.toNat + 256 * natOfBytes bs) / 256 = natOfBytes bs := by omega
    have hlow : UInt8.ofNat (b.toNat + 256 * natOfBytes bs) = b := by
      apply UInt8.toNat_inj.mp
      rw [UInt8.toNat_ofNat']
      omega
    simp only [natOfBytes, List.length_cons, bytesOfNat, hdiv, hlow, ih]

/-- The eight bytes of a word, in memory order. -/
def bytesOfWord (word : UInt64) : List UInt8 :=
  bytesOfNat wordSize word.toNat

/-- The word that bytes in memory order spell; bytes past the eighth fall away. -/
def wordOfBytes (bs : List UInt8) : UInt64 :=
  UInt64.ofNat (natOfBytes bs)

@[simp]
theorem length_bytesOfWord (word : UInt64) : (bytesOfWord word).length = 8 :=
  length_bytesOfNat wordSize word.toNat

@[simp]
theorem wordOfBytes_bytesOfWord (word : UInt64) : wordOfBytes (bytesOfWord word) = word := by
  apply UInt64.toNat_inj.mp
  have hword : word.toNat < 18446744073709551616 := word.toNat_lt
  have hspan : byteSpan wordSize = 18446744073709551616 := rfl
  rw [wordOfBytes, bytesOfWord, natOfBytes_bytesOfNat, UInt64.toNat_ofNat', hspan]
  omega

/-- The 16-bit value that two bytes in memory order spell. -/
def halfOfBytes (bs : List UInt8) : UInt16 :=
  UInt16.ofNat (natOfBytes bs)

/-! ## Parts of a run -/

namespace Bytes

/-- The `count` bytes from `offset` on, if the run holds them all. -/
def slice? (bs : Bytes) (offset count : Nat) : Option Bytes :=
  if offset + count ≤ bs.size then some (bs.extract offset (offset + count)) else none

/-- The word at `offset`, if the run holds all eight of its bytes. -/
def word? (bs : Bytes) (offset : Nat) : Option UInt64 :=
  (slice? bs offset wordSize).map fun part => wordOfBytes part.toList

/-- The 16-bit value at `offset`, if the run holds both of its bytes. -/
def half? (bs : Bytes) (offset : Nat) : Option UInt16 :=
  (slice? bs offset 2).map fun part => halfOfBytes part.toList

theorem slice?_eq_none_iff (bs : Bytes) (offset count : Nat) :
    slice? bs offset count = none ↔ bs.size < offset + count := by
  unfold slice?
  split
  · simp only [reduceCtorEq, false_iff]
    omega
  · simp only [true_iff]
    omega

/-- Replaces the bytes from `offset` on by those of `patch`, in place.  Bytes of the patch
that would fall past the end of the run are dropped. -/
def overwrite (bs : Bytes) (offset : Nat) : (patch : List UInt8) → Bytes
  | [] => bs
  | b :: patch => overwrite (bs.setIfInBounds offset b) (offset + 1) patch

/-- Replaces the bytes from `offset` on by those of `patch`; the run grows where the patch
reaches past its end. -/
def splice (bs : Bytes) (offset : Nat) (patch : Bytes) : Bytes :=
  bs.extract 0 offset ++ patch ++ bs.extract (offset + patch.size) bs.size

@[simp]
theorem size_overwrite (bs : Bytes) (offset : Nat) (patch : List UInt8) :
    (overwrite bs offset patch).size = bs.size := by
  induction patch generalizing bs offset with
  | nil => rfl
  | cons b patch ih => rw [overwrite, ih, Array.size_setIfInBounds]

/-- A patch that lies inside the run replaces exactly the bytes under it. -/
theorem overwrite_toList (bs : Bytes) (offset : Nat) (patch : List UInt8)
    (h : offset + patch.length ≤ bs.size) :
    (overwrite bs offset patch).toList =
      bs.toList.take offset ++ patch ++ bs.toList.drop (offset + patch.length) := by
  induction patch generalizing bs offset with
  | nil => simp [overwrite]
  | cons b patch ih =>
    simp only [List.length_cons] at h
    have hlt : offset < bs.toList.length := by simp; omega
    rw [overwrite, ih _ _ (by simp; omega), Array.toList_setIfInBounds]
    rw [List.take_add_one, List.getElem?_set_self hlt, List.drop_set_of_lt (by omega),
      List.take_set_of_le (by omega)]
    simp only [List.length_cons, Option.toList_some, List.append_assoc, List.cons_append,
      List.nil_append]
    congr 4
    omega

/-- The last `count` bytes, or all of them if the run is shorter. -/
def suffix (bs : Bytes) (count : Nat) : Bytes :=
  bs.extract (bs.size - count) bs.size

@[simp]
theorem size_suffix (bs : Bytes) (count : Nat) : (suffix bs count).size = min count bs.size := by
  simp only [suffix, Array.size_extract]
  omega

theorem toList_suffix (bs : Bytes) (count : Nat) :
    (suffix bs count).toList = bs.toList.drop (bs.size - count) := by
  have hlength : (bs.toList.drop (bs.size - count)).length = bs.size - (bs.size - count) := by
    rw [List.length_drop, Array.length_toList]
  rw [suffix, Array.toList_extract, List.extract_eq_take_drop,
    List.take_of_length_le (Nat.le_of_eq hlength)]

/-- The run without its trailing zero bytes. -/
def trimZeros (bs : Bytes) : Bytes :=
  bs.popWhile (· == 0)

end Bytes

/-! ## Hexadecimal text -/

/-- The lowercase hexadecimal digit of a number below sixteen. -/
def hexDigit (n : Nat) : Char :=
  Nat.digitChar (n % 16)

/-- The shortest lowercase hexadecimal text of `n`. -/
def hexOfNat (n : Nat) : String :=
  String.ofList (Nat.toDigits 16 n)

/-- The lowercase hexadecimal text of `n`, zero-padded on the left to `width` digits. -/
def paddedHexOfNat (width n : Nat) : String :=
  let digits := Nat.toDigits 16 n
  String.ofList (List.replicate (width - digits.length) '0' ++ digits)

/-- Two hexadecimal digits for each byte, in order. -/
def hexOfBytes (bs : Bytes) : String :=
  bs.foldl (fun text b => (text.push (hexDigit (b.toNat / 16))).push (hexDigit b.toNat)) ""

end LaneMachine
