import LaneMachine.Bytes
set_option autoImplicit false

/-!
# Bounded byte buffers

Operand stacks and local frames are both buffers: bytes that grow on demand up to a
fixed ceiling.  A buffer also remembers how many bytes it can hold before it has to be
moved (its capacity); capacity never shows in the contents.

No allocation holds more than `allocationLimit` bytes.  A host that asks for more breaks off:
`Buffer.allocatable` says of the first size of a buffer whether it may be asked for, and
`LaneMachine.Buffer.Command` checks every allocation of a buffer that a host works on.  The
operations of this module are those of a machine that is running.  Its first sizes were checked
when it was set up, and its buffers grow by what an instruction appends, so that one would have
to hold half of `allocationLimit` before its growth could break off; they take every allocation
to be granted.

An operation is a program on a buffer, `Buffer.Op`: it ends with a value or an error,
and either way with the buffer that is left.  Every operation here either succeeds
completely or leaves the buffer as it was; the `_eq_error_iff` lemmas say when each one
fails, and with which error.
-/

namespace LaneMachine

/-- The most bytes that one allocation may hold: the largest signed word. -/
def allocationLimit : Nat := 0x7fffffffffffffff

/-- Bytes with a ceiling. -/
structure Buffer where
  /-- the bytes held, top of stack last -/
  contents : Bytes
  /-- how many bytes fit before the buffer has to be moved -/
  capacity : Nat
  /-- the most bytes that the buffer may ever hold -/
  ceiling : Nat
  deriving DecidableEq, Repr, Inhabited

namespace Buffer

/-- Why a buffer operation failed. -/
inductive Error where
  /-- the buffer would have grown past its ceiling -/
  | limitExceeded (requested ceiling : Nat)
  /-- `length` bytes at `offset` are not inside the `size` bytes held -/
  | outOfBounds (offset length size : Nat)
  deriving DecidableEq, Repr, Inhabited

/-- The wording of a buffer error. -/
def Error.message : Error → String
  | .limitExceeded requested ceiling =>
    s!"buffer limit exceeded: requested {requested} bytes, maximum is {ceiling}"
  | .outOfBounds offset length size =>
    s!"buffer access out of bounds: {length} bytes at offset {offset}, buffer holds {size}"

/-- A program on a buffer. -/
abbrev Op (α : Type) : Type := EStateM Error Buffer α

/-- Number of bytes held. -/
def size (buffer : Buffer) : Nat := buffer.contents.size

/-! ## Making buffers -/

/-- Whether a buffer may be made with a first size of `length`, cut to the ceiling. -/
def allocatable (length ceiling : Nat) : Bool :=
  min length ceiling ≤ allocationLimit

/-- An empty buffer with room for `capacity` bytes, cut to the ceiling. -/
def withCapacity (capacity ceiling : Nat) : Buffer :=
  { contents := #[], capacity := min capacity ceiling, ceiling }

/-- A buffer of `length` zero bytes, cut to the ceiling. -/
def zeroed (length ceiling : Nat) : Buffer :=
  { contents := Array.replicate (min length ceiling) 0, capacity := min length ceiling, ceiling }

/-- A buffer of exactly the given bytes, in the memory that they came in: with room for `spare` more,
whatever the ceiling. -/
def ofBytes (bytes : Bytes) (spare ceiling : Nat) : Except Error Buffer :=
  if ceiling < bytes.size then .error (.limitExceeded bytes.size ceiling)
  else .ok { contents := bytes, capacity := bytes.size + spare, ceiling }

/-! ## Growing and shrinking -/

/-- The capacity once `length` bytes are needed: unchanged if they fit, else twice the length,
cut to the ceiling. -/
def capacityFor (capacity ceiling length : Nat) : Nat :=
  if capacity < length then min ceiling (2 * length) else capacity

/-- The buffer with `bytes` appended, whatever its ceiling. -/
def append : Buffer → Bytes → Buffer
  | ⟨contents, capacity, ceiling⟩, bytes =>
    let capacity := capacityFor capacity ceiling (contents.size + bytes.size)
    ⟨contents ++ bytes, capacity, ceiling⟩

@[simp]
theorem contents_append (buffer : Buffer) (bytes : Bytes) :
    (buffer.append bytes).contents = buffer.contents ++ bytes := rfl

@[simp]
theorem ceiling_append (buffer : Buffer) (bytes : Bytes) :
    (buffer.append bytes).ceiling = buffer.ceiling := rfl

@[simp]
theorem size_append (buffer : Buffer) (bytes : Bytes) :
    (buffer.append bytes).size = buffer.size + bytes.size := by
  simp [size]

/-- Whether `count` more bytes fit under the ceiling. -/
def canGrowBy (buffer : Buffer) (count : Nat) : Bool :=
  buffer.size + count ≤ buffer.ceiling

/-- Grows the buffer to at least `length` bytes; new bytes are zero. -/
def ensure (length : Nat) : Op Unit := fun buffer =>
  if length ≤ buffer.size then .ok () buffer
  else if buffer.ceiling < length then .error (.limitExceeded length buffer.ceiling) buffer
  else .ok () (buffer.append (Array.replicate (length - buffer.size) 0))

/-- Cuts the buffer to at most `length` bytes; its capacity stays. -/
def truncate (length : Nat) : Op Unit := fun buffer =>
  .ok () { buffer with contents := buffer.contents.shrink length }

/-! ## Reading and writing -/

/-- The last `count` bytes. -/
def top (count : Nat) : Op Bytes := fun buffer =>
  if buffer.size < count then .error (.outOfBounds 0 count buffer.size) buffer
  else .ok (Bytes.suffix buffer.contents count) buffer

/-- The word at `offset`. -/
def read (offset : Nat) : Op UInt64 := fun buffer =>
  match Bytes.word? buffer.contents offset with
  | none => .error (.outOfBounds offset wordSize buffer.size) buffer
  | some word => .ok word buffer

/-- Overwrites the word at `offset`. -/
def write (offset : Nat) (word : UInt64) : Op Unit := fun buffer =>
  if buffer.size < offset + wordSize then
    .error (.outOfBounds offset wordSize buffer.size) buffer
  else
    .ok () { buffer with contents := Bytes.overwrite buffer.contents offset (bytesOfWord word) }

theorem top_eq_error_iff (count : Nat) (buffer after : Buffer) (e : Error) :
    top count buffer = .error e after ↔
      buffer.size < count ∧ e = .outOfBounds 0 count buffer.size ∧ after = buffer := by
  unfold top
  by_cases h : buffer.size < count
  · simp [h, eq_comm]
  · simp [h]

theorem top_of_le {buffer : Buffer} {count : Nat} (h : count ≤ buffer.size) :
    top count buffer = .ok (Bytes.suffix buffer.contents count) buffer :=
  if_neg (Nat.not_lt.mpr h)

/-- Appends bytes. -/
def pushBytes (bytes : Bytes) : Op Unit := fun buffer =>
  if buffer.canGrowBy bytes.size then .ok () (buffer.append bytes)
  else .error (.limitExceeded (buffer.size + bytes.size) buffer.ceiling) buffer

theorem pushBytes_eq_error_iff (bytes : Bytes) (buffer after : Buffer) (e : Error) :
    pushBytes bytes buffer = .error e after ↔
      buffer.ceiling < buffer.size + bytes.size ∧
        e = .limitExceeded (buffer.size + bytes.size) buffer.ceiling ∧ after = buffer := by
  unfold pushBytes
  by_cases h : buffer.size + bytes.size ≤ buffer.ceiling
  · have hle : ¬ buffer.ceiling < buffer.size + bytes.size := by omega
    simp [canGrowBy, h, hle]
  · have hlt : buffer.ceiling < buffer.size + bytes.size := by omega
    simp [canGrowBy, h, hlt, eq_comm]

theorem pushBytes_of_le {buffer : Buffer} {bytes : Bytes}
    (h : buffer.size + bytes.size ≤ buffer.ceiling) :
    pushBytes bytes buffer = .ok () (buffer.append bytes) :=
  if_pos (decide_eq_true h)

/-- Appends one word. -/
def push (word : UInt64) : Op Unit :=
  pushBytes (bytesOfWord word).toArray

/-- The top word. -/
def peek : Op UInt64 := do
  let bytes ← top wordSize
  return wordOfBytes bytes.toList

/-- The top word and the one below it. -/
def peekTwo : Op (UInt64 × UInt64) := do
  let bytes ← top (2 * wordSize)
  return (wordOfBytes (bytes.toList.drop wordSize), wordOfBytes (bytes.toList.take wordSize))

/-- Drops the top word, or all bytes if there is no whole word. -/
def drop : Op Unit := fun buffer =>
  truncate (buffer.size - wordSize) buffer

/-- Removes and returns the top word. -/
def pop : Op UInt64 := do
  let word ← peek
  drop
  return word

theorem pop_of_lt {buffer : Buffer} (h : buffer.size < wordSize) :
    pop buffer = .error (.outOfBounds 0 wordSize buffer.size) buffer := by
  have htop := (top_eq_error_iff wordSize buffer buffer _).mpr ⟨h, rfl, rfl⟩
  simp only [pop, peek, bind, EStateM.bind, htop]

theorem pop_of_le {buffer : Buffer} (h : wordSize ≤ buffer.size) :
    pop buffer = .ok (wordOfBytes (Bytes.suffix buffer.contents wordSize).toList)
      { buffer with contents := buffer.contents.shrink (buffer.size - wordSize) } := by
  simp only [pop, peek, bind, EStateM.bind, top_of_le h, pure, EStateM.pure, drop, truncate]

/-- Replaces the top two words by `combine second top`. -/
def combineTwo (combine : UInt64 → UInt64 → UInt64) : Op Unit := do
  let (first, second) ← peekTwo
  let length := (← get).size
  write (length - 2 * wordSize) (combine second first)
  drop

end Buffer

end LaneMachine
