import LaneMachine.Heap.Basic
set_option autoImplicit false

/-!
# A heap that counts visits

A store that keeps, under each context, how often the machine has turned to it.  The
count is a chunk like any other, so a checkpoint captures it and a rollback takes it
back.  Selections that the host makes on the store itself are not counted.
-/

namespace LaneMachine

/-- A store whose contexts count the visits of the machine. -/
structure VisitedStore where
  /-- the store with its counts -/
  store : Store
  deriving DecidableEq, Repr, Inhabited

namespace VisitedStore

/-- The child under which a context keeps its count. -/
def countChild : Identifier := ⟨0xc0⟩

/-- The count that a chunk spells: a whole word does, anything else counts as zero. -/
def countOf : Option Bytes → UInt64
  | none => 0
  | some bytes => if bytes.size = wordSize then wordOfBytes bytes.toList else 0

/-- Number of visits to a context so far. -/
def visits (heap : VisitedStore) (context : Identifier) : UInt64 :=
  countOf (heap.store.chunk? context countChild)

/-- Turns to a context and counts the visit. -/
def selectRoot (heap : VisitedStore) (context : Identifier) : VisitedStore :=
  let count := heap.visits context + 1
  ⟨(heap.store.selectRoot context).insertChunk context countChild (bytesOfWord count).toArray⟩

instance : Heap VisitedStore where
  selectRoot := selectRoot
  save heap := ⟨heap.store.save⟩
  discard heap := ⟨heap.store.discard⟩
  restore heap := ⟨heap.store.restore⟩

instance : LawfulHeap VisitedStore where
  Contents := Chunks
  contents heap := heap.store.chunks
  checkpoints heap := heap.store.checkpoints
  checkpoints_selectRoot _ _ := rfl
  contents_save _ := rfl
  checkpoints_save _ := rfl
  contents_discard _ := rfl
  checkpoints_discard _ := rfl
  contents_restore heap := LawfulHeap.contents_restore heap.store
  checkpoints_restore heap := LawfulHeap.checkpoints_restore heap.store

end VisitedStore

end LaneMachine
