import LaneMachine.Store.Basic
set_option autoImplicit false

/-!
# Heaps

The machine sees its heap through four operations only: it selects the context of the
running frame, and it takes, drops and reinstates checkpoints.  What a heap keeps under
a context is the host's business.

`LawfulHeap` is the promise that a host makes about its heap: behind the operations
stand contents and a stack of checkpoints of those contents, and the operations move
them as their names say.  A store keeps that promise.
-/

namespace LaneMachine

/-- What the machine may do to a heap. -/
class Heap (H : Type) where
  /-- turns to the state of a context -/
  selectRoot : H → Identifier → H
  /-- takes a checkpoint -/
  save : H → H
  /-- drops the latest checkpoint and keeps what changed since -/
  discard : H → H
  /-- drops the latest checkpoint and undoes what changed since -/
  restore : H → H

/-- A heap whose operations act on contents and a stack of checkpoints, latest first. -/
class LawfulHeap (H : Type) [Heap H] where
  /-- what a checkpoint captures -/
  Contents : Type
  /-- the contents as they are now -/
  contents : H → Contents
  /-- the checkpoints taken and not yet resolved -/
  checkpoints : H → List Contents
  /-- selecting leaves the checkpoints alone -/
  checkpoints_selectRoot (heap : H) (id : Identifier) :
    checkpoints (Heap.selectRoot heap id) = checkpoints heap
  /-- saving keeps the contents -/
  contents_save (heap : H) : contents (Heap.save heap) = contents heap
  /-- saving pushes the contents -/
  checkpoints_save (heap : H) : checkpoints (Heap.save heap) = contents heap :: checkpoints heap
  /-- discarding keeps the contents -/
  contents_discard (heap : H) : contents (Heap.discard heap) = contents heap
  /-- discarding pops -/
  checkpoints_discard (heap : H) : checkpoints (Heap.discard heap) = (checkpoints heap).tail
  /-- restoring reinstates the latest checkpoint, if there is one -/
  contents_restore (heap : H) :
    contents (Heap.restore heap) = (checkpoints heap).headD (contents heap)
  /-- restoring pops -/
  checkpoints_restore (heap : H) : checkpoints (Heap.restore heap) = (checkpoints heap).tail

instance : Heap Store where
  selectRoot := Store.selectRoot
  save := Store.save
  discard := Store.discard
  restore := Store.restore

instance : LawfulHeap Store where
  Contents := Chunks
  contents := Store.chunks
  checkpoints := Store.checkpoints
  checkpoints_selectRoot _ _ := rfl
  contents_save _ := rfl
  checkpoints_save _ := rfl
  contents_discard _ := rfl
  checkpoints_discard _ := rfl
  contents_restore store := by
    simp only [Heap.restore, Store.restore]
    split <;> simp_all [Store.record]
  checkpoints_restore store := by
    simp only [Heap.restore, Store.restore]
    split <;> simp_all [Store.record]

end LaneMachine
