import LaneMachine.Store.Access
import LaneMachine.Table
set_option autoImplicit false

/-!
# Stores

A store holds chunks of bytes addressed by a root and a child identifier: the code of a
method under its application, or a piece of state under its context.  Reads and writes
go to the chunk that was selected last.  Selecting never fails; a missing chunk shows on
the first read.

A store also keeps a stack of checkpoints.  A checkpoint is the whole table of chunks;
the selection and the access log are not part of it.

As with buffers, an operation that can fail is a program on the store, `Store.Op`: the
store it leaves behind is part of its result, because a refused write is logged too.
-/

namespace LaneMachine

/-- Chunks of bytes, by root and then by child. -/
abbrev Chunks : Type := Table (Table Bytes)

namespace Chunks

/-- The chunk at a root and child. -/
def get? (chunks : Chunks) (root child : Identifier) : Option Bytes :=
  (Table.get? chunks root).bind fun children => children.get? child

/-- The chunks with `bytes` at a root and child. -/
def insert (chunks : Chunks) (root child : Identifier) (bytes : Bytes) : Chunks :=
  Table.insert chunks root (((Table.get? chunks root).getD .empty).insert child bytes)

/-- The chunks without the one at a root and child; a root without children is dropped. -/
def erase (chunks : Chunks) (root child : Identifier) : Chunks :=
  match Table.get? chunks root with
  | none => chunks
  | some children =>
    let remaining := children.erase child
    if remaining.isEmpty then Table.erase chunks root else Table.insert chunks root remaining

@[simp]
theorem get?_empty (root child : Identifier) : get? Table.empty root child = none := rfl

/-- Inserting changes one chunk. -/
@[simp]
theorem get?_insert (chunks : Chunks) (root child r c : Identifier) (bytes : Bytes) :
    get? (insert chunks root child bytes) r c =
      if r = root ∧ c = child then some bytes else get? chunks r c := by
  unfold get? insert
  rw [Table.get?_insert]
  by_cases hr : r = root
  · subst hr
    cases h : Table.get? chunks r <;> by_cases hc : c = child <;> simp [hc]
  · simp [hr]

/-- Erasing removes one chunk. -/
@[simp]
theorem get?_erase (chunks : Chunks) (root child r c : Identifier) :
    get? (erase chunks root child) r c =
      if r = root ∧ c = child then none else get? chunks r c := by
  unfold get? erase
  cases h : Table.get? chunks root with
  | none =>
    by_cases hr : r = root
    · subst hr
      simp [h]
    · simp [hr]
  | some children =>
    by_cases he : (children.erase child).isEmpty = true
    · simp only [he, if_true]
      by_cases hr : r = root
      · subst hr
        have hnone := (Table.isEmpty_iff _).mp he c
        rw [Table.get?_erase] at hnone
        by_cases hc : c = child
        · simp [hc]
        · simp [hc] at hnone
          simp [hc, h, hnone]
      · simp [hr]
    · simp only [he]
      by_cases hr : r = root
      · subst hr
        by_cases hc : c = child <;> simp [hc, h]
      · simp [hr]

end Chunks

/-- Chunks, the selection, the checkpoints taken so far and the access log. -/
structure Store where
  /-- the chunks as they are now -/
  chunks : Chunks
  /-- checkpoints, latest first -/
  checkpoints : List Chunks
  /-- the root selected last -/
  root : Option Identifier
  /-- the child selected since then -/
  child : Option Identifier
  /-- accesses, latest first -/
  log : List Access
  deriving DecidableEq, Repr

namespace Store

/-- Why a read or a write failed. -/
inductive Error where
  /-- no root and child are selected, or there is no chunk under them -/
  | nothingLoaded
  /-- `length` bytes at `offset` are not inside the `size` bytes of the chunk -/
  | outOfBounds (offset length size : Nat)
  /-- the destination's `size` bytes cannot take `length` bytes at `offset` -/
  | destinationTooSmall (offset length size : Nat)
  deriving DecidableEq, Repr, Inhabited

/-- The wording of a store error. -/
def Error.message : Error → String
  | .nothingLoaded => "no byte range is loaded"
  | .outOfBounds offset length size =>
    s!"memory access out of bounds: {length} bytes at offset {offset}, range holds {size}"
  | .destinationTooSmall offset length size =>
    s!"destination too small: {length} bytes at offset {offset}, destination holds {size}"

/-- A program on a store. -/
abbrev Op (α : Type) : Type := EStateM Error Store α

/-- The store without chunks, with nothing selected and nothing logged. -/
def empty : Store :=
  { chunks := .empty, checkpoints := [], root := none, child := none, log := [] }

instance : Inhabited Store := ⟨empty⟩

/-! ## Chunks, seen from the host

None of these is logged. -/

/-- The chunk at a root and child. -/
def chunk? (store : Store) (root child : Identifier) : Option Bytes :=
  store.chunks.get? root child

/-- The store with `bytes` as the chunk at a root and child. -/
def insertChunk (store : Store) (root child : Identifier) (bytes : Bytes) : Store :=
  { store with chunks := store.chunks.insert root child bytes }

/-- The store without the chunk at a root and child. -/
def eraseChunk (store : Store) (root child : Identifier) : Store :=
  { store with chunks := store.chunks.erase root child }

/-- The store with an empty access log. -/
def clearLog (store : Store) : Store :=
  { store with log := [] }

/-- The text of the access log. -/
def logText (store : Store) : String :=
  Access.logText store.log

/-- Number of checkpoints taken and not yet resolved. -/
def depth (store : Store) : Nat :=
  store.checkpoints.length

/-! ## Selection -/

/-- The store with one more access on its log. -/
def record (store : Store) (access : Access) : Store :=
  { store with log := access :: store.log }

/-- Selects a root; no child is selected until `selectChild`. -/
def selectRoot (store : Store) (id : Identifier) : Store :=
  { store with root := some id, child := none }.record (.root id)

/-- Selects a child of the selected root. -/
def selectChild (store : Store) (id : Identifier) : Store :=
  { store with child := some id }.record (.child id)

/-- The selected chunk. -/
def selected? (store : Store) : Option Bytes :=
  match store.root, store.child with
  | some root, some child => store.chunk? root child
  | _, _ => none

/-- Selecting a root deselects the child, so that nothing can be read. -/
@[simp]
theorem selected?_selectRoot (store : Store) (id : Identifier) :
    (store.selectRoot id).selected? = none := rfl

/-- Selecting a root and then a child of it selects their chunk. -/
@[simp]
theorem selected?_selectChild_selectRoot (store : Store) (root child : Identifier) :
    ((store.selectRoot root).selectChild child).selected? = store.chunk? root child := rfl

/-! ## Reading -/

/-- The `count` bytes at `offset` of the selected chunk.  Not logged. -/
def fetch (store : Store) (offset count : Nat) : Except Error Bytes :=
  match store.selected? with
  | none => .error .nothingLoaded
  | some bytes =>
    match bytes.slice? offset count with
    | none => .error (.outOfBounds offset count bytes.size)
    | some part => .ok part

theorem fetch_eq_ok_iff (store : Store) (offset count : Nat) (part : Bytes) :
    store.fetch offset count = .ok part ↔
      ∃ bytes, store.selected? = some bytes ∧ Bytes.slice? bytes offset count = some part := by
  unfold fetch
  cases store.selected? with
  | none => simp
  | some bytes =>
    cases h : Bytes.slice? bytes offset count with
    | none => simp [h]
    | some found => simp [h]

/-- Reads one byte. -/
def loadByte (offset : Nat) : Op UInt8 := fun store =>
  match store.fetch offset 1 with
  | .error e => .error e store
  | .ok part =>
    let value := part.getD 0 0
    .ok value (store.record (.loadedByte offset value))

/-- Reads a 16-bit value. -/
def loadHalf (offset : Nat) : Op UInt16 := fun store =>
  match store.fetch offset 2 with
  | .error e => .error e store
  | .ok part =>
    let value := halfOfBytes part.toList
    .ok value (store.record (.loadedHalf offset value))

/-- Reads a word. -/
def loadWord (offset : Nat) : Op UInt64 := fun store =>
  match store.fetch offset wordSize with
  | .error e => .error e store
  | .ok part =>
    let value := wordOfBytes part.toList
    .ok value (store.record (.loadedWord offset value))

/-- Reads a word into a destination: its bytes at `position` are replaced.  A destination without room
for the word fails the read, which is then not logged. -/
def loadWordInto (offset : Nat) (destination : Bytes) (position : Nat) : Op Bytes := fun store =>
  match store.fetch offset wordSize with
  | .error e => .error e store
  | .ok part =>
    if destination.size < position + wordSize then
      .error (.destinationTooSmall position wordSize destination.size) store
    else
      .ok (Bytes.overwrite destination position part.toList)
        (store.record (.loadedWord offset (wordOfBytes part.toList)))

/-! ## Writing -/

/-- Writes bytes into the selected chunk, which grows where they reach past its end.  The attempt
is logged before anything can fail. -/
def storeBytes (offset : Nat) (bytes : Bytes) : Op Unit := fun before =>
  let store := before.record (.stored offset bytes)
  match store.root, store.child with
  | some root, some child =>
    match store.chunk? root child with
    | none => .error .nothingLoaded store
    | some chunk =>
      if chunk.size < offset then
        .error (.outOfBounds offset bytes.size chunk.size) store
      else
        .ok () (store.insertChunk root child (Bytes.splice chunk offset bytes))
  | _, _ => .error .nothingLoaded store

/-- Writes a word into the selected chunk. -/
def storeWord (offset : Nat) (word : UInt64) : Op Unit :=
  storeBytes offset (bytesOfWord word).toArray

/-! ## Checkpoints -/

/-- Takes a checkpoint of the chunks. -/
def save (store : Store) : Store :=
  { store with checkpoints := store.chunks :: store.checkpoints }.record .save

/-- Drops the latest checkpoint and keeps every change since; nothing if there is none. -/
def discard (store : Store) : Store :=
  { store with checkpoints := store.checkpoints.tail }.record .discard

/-- Drops the latest checkpoint and undoes every change since; nothing if there is none. -/
def restore (store : Store) : Store :=
  match store.checkpoints with
  | [] => store.record .restore
  | chunks :: checkpoints => { store with chunks, checkpoints }.record .restore

end Store

end LaneMachine
