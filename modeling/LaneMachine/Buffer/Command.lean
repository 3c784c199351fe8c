import LaneMachine.Buffer
set_option autoImplicit false

/-!
# What a host can ask of a buffer

A host makes a buffer and gives it commands.  Here each command is taken with everything that may
break the host off: sizes are machine words and a sum of two may be too large for one, parts of a
buffer are cut out by position, a copy needs a place of its own length, and no allocation holds more
than `allocationLimit` bytes.  `Origin.make?` and `Command.run?` are `none` where one of these fails.
-/

namespace LaneMachine

namespace Buffer

/-! ## Commands and replies -/

/-- What can be asked of a buffer. -/
inductive Command where
  /-- hold at least `length` bytes -/
  | ensure (length : UInt64)
  /-- hold at most `length` bytes -/
  | truncate (length : UInt64)
  /-- give the last `count` bytes -/
  | top (count : UInt64)
  /-- give the word at `offset` -/
  | read (offset : UInt64)
  /-- overwrite the word at `offset` -/
  | write (offset word : UInt64)
  /-- append a word -/
  | push (word : UInt64)
  /-- append bytes -/
  | pushBytes (bytes : Bytes)
  /-- remove and give the last word -/
  | pop
  /-- say whether `count` more bytes fit -/
  | canGrowBy (count : UInt64)
  deriving DecidableEq, Repr

/-- What a command is answered with. -/
inductive Reply where
  | done
  | bytes (bytes : List UInt8)
  | word (word : UInt64)
  | flag (holds : Bool)
  | refused (error : Error)
  deriving DecidableEq, Repr

/-- Whether the command failed. -/
def Reply.isRefused : Reply → Bool
  | .refused _ => true
  | _ => false

/-- How a buffer is made.  Bytes that are handed over stay in the memory that they came in, which has
room for `spare` more. -/
inductive Origin where
  | withCapacity (capacity ceiling : UInt64)
  | zeroed (length ceiling : UInt64)
  | ofBytes (bytes : Bytes) (spare : Nat) (held : bytes.size + spare ≤ allocationLimit)
      (ceiling : UInt64)
  deriving DecidableEq, Repr

/-! ## What may break off -/

/-- An allocation of `size` bytes. -/
def allocate? (size : Nat) : Option Nat :=
  if size ≤ allocationLimit then some size else none

/-- The sum of two sizes, if a machine word holds it. -/
def sum? (a b : Nat) : Option Nat :=
  if a + b < UInt64.size then some (a + b) else none

/-- The bytes from `start` up to `stop`, if those are places in order. -/
def cut? (bytes : Bytes) (start stop : Nat) : Option Bytes :=
  if start ≤ stop ∧ stop ≤ bytes.size then some (bytes.extract start stop) else none

/-- Copies `source` to the bytes from `start` up to `stop`, which have to be as many. -/
def copy? (bytes : Bytes) (start stop : Nat) (source : List UInt8) : Option Bytes :=
  if start ≤ stop ∧ stop ≤ bytes.size ∧ stop - start = source.length then
    some (Bytes.overwrite bytes start source)
  else none

/-! ## Buffers of a host -/

/-- The buffer that is made. -/
def Origin.make? : Origin → Option (Except Error Buffer)
  | .withCapacity capacity ceiling =>
    if allocatable capacity.toNat ceiling.toNat then
      some (.ok (Buffer.withCapacity capacity.toNat ceiling.toNat))
    else none
  | .zeroed length ceiling =>
    if allocatable length.toNat ceiling.toNat then
      some (.ok (Buffer.zeroed length.toNat ceiling.toNat))
    else none
  | .ofBytes bytes spare _ ceiling => some (Buffer.ofBytes bytes spare ceiling.toNat)

/-- The capacity for `length` bytes.  Where they do not fit, memory for twice as many is asked for,
cut to the ceiling; twice a length stops at the largest machine word. -/
def capacityFor? (length : Nat) (buffer : Buffer) : Option Nat :=
  if buffer.capacity < length then
    allocate? (min buffer.ceiling (min (2 * length) (UInt64.size - 1)))
  else some buffer.capacity

/-- Grows the buffer. -/
def grow? (length : Nat) (buffer : Buffer) : Option (Reply × Buffer) :=
  if length ≤ buffer.size then some (.done, buffer)
  else if buffer.ceiling < length then
    some (.refused (.limitExceeded length buffer.ceiling), buffer)
  else
    (capacityFor? length buffer).map fun capacity =>
      let zeros := Array.replicate (length - buffer.size) 0
      (.done, { buffer with contents := buffer.contents ++ zeros, capacity })

/-- Appends bytes: grows by as many zeros, and copies the bytes over them. -/
def pushBytes? (bytes : Bytes) (buffer : Buffer) : Option (Reply × Buffer) := do
  let length ← sum? buffer.size bytes.size
  match ← grow? length buffer with
  | (.done, grown) =>
    let contents ← copy? grown.contents buffer.size grown.size bytes.toList
    return (.done, { grown with contents })
  | refused => return refused

/-- The word at an offset.  An offset too large to add to is outside like any other. -/
def read? (offset : Nat) (buffer : Buffer) : Reply :=
  match (sum? offset wordSize).bind (cut? buffer.contents offset) with
  | none => .refused (.outOfBounds offset wordSize buffer.size)
  | some part => .word (wordOfBytes part.toList)

/-- The reply of a buffer, and the buffer that is left; `none` if the command breaks off. -/
def Command.run? (command : Command) (buffer : Buffer) : Option (Reply × Buffer) :=
  match command with
  | .ensure length => grow? length.toNat buffer
  | .truncate length => some (.done, { buffer with contents := buffer.contents.shrink length.toNat })
  | .top count =>
    if buffer.size < count.toNat then
      some (.refused (.outOfBounds 0 count.toNat buffer.size), buffer)
    else
      (cut? buffer.contents (buffer.size - count.toNat) buffer.size).map fun part =>
        (.bytes part.toList, buffer)
  | .read offset => some (read? offset.toNat buffer, buffer)
  | .write offset word =>
    match (sum? offset.toNat wordSize).filter (· ≤ buffer.size) with
    | none => some (.refused (.outOfBounds offset.toNat wordSize buffer.size), buffer)
    | some stop =>
      (copy? buffer.contents offset.toNat stop (bytesOfWord word)).map fun contents =>
        (.done, { buffer with contents })
  | .push word => pushBytes? (bytesOfWord word).toArray buffer
  | .pushBytes bytes => pushBytes? bytes buffer
  | .pop =>
    if buffer.size < wordSize then some (.refused (.outOfBounds 0 wordSize buffer.size), buffer)
    else
      let start := buffer.size - wordSize
      match read? start buffer with
      | .word word => some (.word word, { buffer with contents := buffer.contents.shrink start })
      | refused => some (refused, buffer)
  | .canGrowBy count =>
    some (.flag ((sum? buffer.size count.toNat).any (· ≤ buffer.ceiling)), buffer)

end Buffer

end LaneMachine
