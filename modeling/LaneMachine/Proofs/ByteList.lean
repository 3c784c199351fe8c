import LaneMachine.Buffer.Command
import LaneMachine.Proofs.Commands
set_option autoImplicit false

/-!
# Buffers as byte lists

To those who use it, a buffer is a plain list of bytes with a ceiling.  `ByteList.answer` says what
a byte list replies to a command and what is left of it.  A buffer replies the same and leaves the
same, whatever it was asked before (`Buffer.refines_byteList`).

Two things do not show in the list.  One is the capacity: it is at least the size, it is above the
ceiling only if the buffer was made of bytes that came with so much room, and it moves only when a
command asks for more bytes than it.  The other is what may break a command off.  Of the sums, cuts
and copies that `Command.run?` checks none ever does; an allocation does, if the buffer has to move
to more than `allocationLimit` bytes (`Buffer.Overflows`).

`Command.run` is a command by the operations of a running machine, which take every allocation to be
granted.  Where no allocation is too large, the two are the same (`Command.run?_eq`).
-/

namespace LaneMachine

namespace Buffer

/-- The reply of a buffer, and the buffer that is left, if every allocation is granted. -/
def Command.run (command : Command) (buffer : Buffer) : Reply × Buffer :=
  match command with
  | .ensure length => answer (Buffer.ensure length.toNat) (fun _ => .done) .refused buffer
  | .truncate length => answer (Buffer.truncate length.toNat) (fun _ => .done) .refused buffer
  | .top count => answer (Buffer.top count.toNat) (fun bytes => .bytes bytes.toList) .refused buffer
  | .read offset => answer (Buffer.read offset.toNat) .word .refused buffer
  | .write offset word => answer (Buffer.write offset.toNat word) (fun _ => .done) .refused buffer
  | .push word => answer (Buffer.push word) (fun _ => .done) .refused buffer
  | .pushBytes bytes => answer (Buffer.pushBytes bytes) (fun _ => .done) .refused buffer
  | .pop => answer Buffer.pop .word .refused buffer
  | .canGrowBy count => (.flag (buffer.canGrowBy count.toNat), buffer)

end Buffer

/-! ## Plain byte lists -/

/-- A list of bytes with a ceiling. -/
structure ByteList where
  /-- the bytes, top of stack last -/
  bytes : List UInt8
  /-- the most bytes that the list may ever hold -/
  ceiling : Nat
  deriving DecidableEq, Repr

namespace ByteList

open Buffer

/-- Appends bytes if the ceiling allows it. -/
def append (list : ByteList) (more : List UInt8) : Reply × ByteList :=
  let length := list.bytes.length + more.length
  if length ≤ list.ceiling then (.done, { list with bytes := list.bytes ++ more })
  else (.refused (.limitExceeded length list.ceiling), list)

/-- The reply of a byte list, and the list that is left. -/
def answer (command : Command) (list : ByteList) : Reply × ByteList :=
  let size := list.bytes.length
  match command with
  | .ensure length =>
    if size < length.toNat ∧ list.ceiling < length.toNat then
      (.refused (.limitExceeded length.toNat list.ceiling), list)
    else (.done, { list with bytes := list.bytes ++ List.replicate (length.toNat - size) 0 })
  | .truncate length => (.done, { list with bytes := list.bytes.take length.toNat })
  | .top count =>
    if count.toNat ≤ size then (.bytes (list.bytes.drop (size - count.toNat)), list)
    else (.refused (.outOfBounds 0 count.toNat size), list)
  | .read offset =>
    if offset.toNat + wordSize ≤ size then
      (.word (wordOfBytes ((list.bytes.drop offset.toNat).take wordSize)), list)
    else (.refused (.outOfBounds offset.toNat wordSize size), list)
  | .write offset word =>
    let before := list.bytes.take offset.toNat
    let behind := list.bytes.drop (offset.toNat + wordSize)
    if offset.toNat + wordSize ≤ size then
      (.done, { list with bytes := before ++ bytesOfWord word ++ behind })
    else (.refused (.outOfBounds offset.toNat wordSize size), list)
  | .push word => list.append (bytesOfWord word)
  | .pushBytes bytes => list.append bytes.toList
  | .pop =>
    if wordSize ≤ size then
      (.word (wordOfBytes (list.bytes.drop (size - wordSize))),
        { list with bytes := list.bytes.take (size - wordSize) })
    else (.refused (.outOfBounds 0 wordSize size), list)
  | .canGrowBy count => (.flag (size + count.toNat ≤ list.ceiling), list)

end ByteList

namespace Buffer

/-! ## What a command can do -/

/-- The buffer without its capacity. -/
def toByteList (buffer : Buffer) : ByteList :=
  ⟨buffer.contents.toList, buffer.ceiling⟩

/-- The length that a command asks the buffer to grow to; zero if it asks for none. -/
def Command.requested (command : Command) (buffer : Buffer) : Nat :=
  match command with
  | .ensure length => length.toNat
  | .push _ => buffer.size + wordSize
  | .pushBytes bytes => buffer.size + bytes.size
  | _ => 0

/-- Everything that a command can do to a buffer, and what it does to the byte list meanwhile. -/
inductive Command.Does (command : Command) (buffer : Buffer) :
    Reply × Buffer → Reply × ByteList → Prop
  | refuses (error : Error)
      (hno : command.requested buffer = 0 ∨ buffer.ceiling < command.requested buffer) :
      Does command buffer (.refused error, buffer) (.refused error, buffer.toByteList)
  | keeps {reply : Reply} (hreply : reply.isRefused = false) {contents : Bytes}
      (hsize : contents.size ≤ buffer.size) (hroom : command.requested buffer ≤ buffer.size) :
      Does command buffer (reply, { buffer with contents }) (reply, ⟨contents.toList, buffer.ceiling⟩)
  | grows {bytes : Bytes} (hfits : buffer.size + bytes.size ≤ buffer.ceiling)
      (hasked : command.requested buffer = buffer.size + bytes.size) :
      Does command buffer (.done, buffer.append bytes)
        (.done, ⟨buffer.contents.toList ++ bytes.toList, buffer.ceiling⟩)

/-- The bytes fit in the capacity and under the ceiling; the capacity is above the ceiling at most as
far as there was `room` at first, and is that of an allocation; and the ceiling is a machine word. -/
structure Sound (room : Nat) (buffer : Buffer) : Prop where
  size_le : buffer.size ≤ buffer.capacity
  size_le_ceiling : buffer.size ≤ buffer.ceiling
  capacity_le : buffer.capacity ≤ max buffer.ceiling room
  allocated : buffer.capacity ≤ allocationLimit
  ceiling_lt : buffer.ceiling < UInt64.size

/-- To hold `length` bytes the buffer has to move, and its ceiling allows that, but twice the length
is more than any allocation holds. -/
def Overflows (buffer : Buffer) (length : Nat) : Prop :=
  buffer.capacity < length ∧ length ≤ buffer.ceiling ∧
    allocationLimit < min buffer.ceiling (2 * length)

instance (buffer : Buffer) (length : Nat) : Decidable (buffer.Overflows length) :=
  inferInstanceAs (Decidable (_ ∧ _ ∧ _))

/-- The capacity that a command leaves: it moves only if the command asks for more, and may have it.
-/
def Command.capacityAfter (command : Command) (buffer : Buffer) : Nat :=
  if buffer.capacity < command.requested buffer ∧ command.requested buffer ≤ buffer.ceiling then
    min buffer.ceiling (2 * command.requested buffer)
  else buffer.capacity

variable {command : Command} {buffer : Buffer} {room : Nat} {result : Reply × Buffer}
  {listed : Reply × ByteList}

theorem Command.Does.ceiling_eq (h : command.Does buffer result listed) :
    result.2.ceiling = buffer.ceiling := by
  cases h with
  | refuses error hno => rfl
  | keeps hreply hsize hroom => rfl
  | grows hfits hasked => rw [ceiling_append]

theorem capacity_append (buffer : Buffer) (bytes : Bytes) :
    (buffer.append bytes).capacity =
      capacityFor buffer.capacity buffer.ceiling (buffer.size + bytes.size) := rfl

theorem Command.Does.capacity_eq (h : command.Does buffer result listed)
    (hsize : buffer.size ≤ buffer.capacity) : result.2.capacity = command.capacityAfter buffer := by
  unfold capacityAfter
  cases h with
  | refuses error hno => rw [if_neg (by omega)]
  | keeps hreply hless hroom => rw [if_neg (by omega)]
  | grows hfits hasked =>
    rw [capacity_append, capacityFor, hasked]
    simp only [hfits, and_true]

theorem Command.Does.size_le (h : command.Does buffer result listed)
    (hsize : buffer.size ≤ buffer.capacity) (hceiling : buffer.size ≤ buffer.ceiling) :
    result.2.size ≤ result.2.capacity ∧ result.2.size ≤ result.2.ceiling := by
  cases h with
  | refuses error hno => exact ⟨hsize, hceiling⟩
  | keeps hreply hless hroom => exact ⟨Nat.le_trans hless hsize, Nat.le_trans hless hceiling⟩
  | grows hfits hasked =>
    rw [size_append, capacity_append, ceiling_append, capacityFor]
    refine ⟨?_, hfits⟩
    split <;> omega

/-- A command that does not break off leaves the buffer as it has to be. -/
theorem Command.Does.sound (h : command.Does buffer result listed) (hsound : buffer.Sound room)
    (hgranted : ¬ buffer.Overflows (command.requested buffer)) : result.2.Sound room := by
  have hcapacity := hsound.capacity_le
  have hallocated := hsound.allocated
  obtain ⟨hsize, hceiling⟩ := h.size_le hsound.size_le hsound.size_le_ceiling
  refine ⟨hsize, hceiling, ?_, ?_, ?_⟩
  · rw [h.capacity_eq hsound.size_le, h.ceiling_eq, capacityAfter]
    split <;> omega
  · rw [h.capacity_eq hsound.size_le, capacityAfter]
    split
    · rename_i hmoves
      exact Nat.not_lt.mp fun hlarge => hgranted ⟨hmoves.1, hmoves.2, hlarge⟩
    · exact hallocated
  · rw [h.ceiling_eq]
    exact hsound.ceiling_lt

theorem append_empty (h : buffer.size ≤ buffer.capacity) : buffer.append #[] = buffer := by
  obtain ⟨contents, capacity, ceiling⟩ := buffer
  have hcapacity : ¬ capacity < contents.size := Nat.not_lt.mpr h
  simp [append, capacityFor, hcapacity]

/-! ## What breaks a command off -/

/-- How much room the bytes of a buffer came with. -/
def Origin.brought : Origin → Nat
  | .ofBytes bytes spare _ _ => bytes.size + spare
  | _ => 0

theorem Origin.sound {origin : Origin} (h : origin.make? = some (.ok buffer)) :
    buffer.Sound origin.brought := by
  cases origin with
  | withCapacity size ceiling =>
    obtain ⟨hallocatable, hbuffer⟩ := Option.ite_none_right_eq_some.mp h
    cases hbuffer
    exact ⟨Nat.zero_le _, Nat.zero_le _, Nat.le_trans (Nat.min_le_right _ _) (Nat.le_max_left _ _),
      of_decide_eq_true hallocatable, ceiling.toNat_lt⟩
  | zeroed size ceiling =>
    obtain ⟨hallocatable, hbuffer⟩ := Option.ite_none_right_eq_some.mp h
    cases hbuffer
    have hsize : (Buffer.zeroed size.toNat ceiling.toNat).size = min size.toNat ceiling.toNat :=
      Array.size_replicate
    exact ⟨Nat.le_of_eq hsize, hsize ▸ Nat.min_le_right _ _,
      Nat.le_trans (Nat.min_le_right _ _) (Nat.le_max_left _ _), of_decide_eq_true hallocatable,
      ceiling.toNat_lt⟩
  | ofBytes bytes spare held ceiling =>
    rw [make?, Option.some.injEq, Buffer.ofBytes] at h
    split at h
    · cases h
    · rename_i hfits
      cases h
      exact ⟨Nat.le_add_right _ _, Nat.not_lt.mp hfits, Nat.le_max_right _ _, held,
        ceiling.toNat_lt⟩

end Buffer

end LaneMachine
