import LaneMachine.Proofs.Commands
import LaneMachine.Proofs.Likeness
set_option autoImplicit false

/-!
# Checkpoints nest

A checkpoint that is taken before some commands and resolved after them is a bracket around them.
If the brackets inside are closed as well (`Store.Nested`), restoring gives back the chunks from
before the bracket, and discarding makes the bracket invisible: the commands reply and change the
chunks as if it were not there (`Store.nested_checkpoints`).

The argument compares two stores that run the same commands.  They hold the same chunks and have the
same one selected, and their checkpoints are the same down to the brackets that were open before the
commands, below which they may hold anything (`Store.Above`).  No command of a nested sequence
reaches below.
-/

namespace LaneMachine

namespace Store

/-! ## Commands and replies -/

/-- What can be asked of a store. -/
inductive Command where
  | selectRoot (id : Identifier)
  | selectChild (id : Identifier)
  /-- read a word into a destination -/
  | loadWord (offset : Nat) (destination : Bytes) (position : Nat)
  | loadByte (offset : Nat)
  | loadHalf (offset : Nat)
  | storeWord (offset : Nat) (word : UInt64)
  | storeBytes (offset : Nat) (bytes : Bytes)
  | insertChunk (root child : Identifier) (bytes : Bytes)
  /-- remove a chunk and give it -/
  | eraseChunk (root child : Identifier)
  | clearLog
  | save
  | discard
  | restore
  deriving DecidableEq, Repr

/-- What a command is answered with. -/
inductive Reply where
  | done
  | byte (value : UInt8)
  | half (value : UInt16)
  /-- the destination, with the word in it -/
  | destination (bytes : Bytes)
  /-- the chunk that was removed, if there was one -/
  | erased (chunk : Option Bytes)
  | refused (error : Error)
  deriving DecidableEq, Repr

/-- The reply of a store, and the store that is left. -/
def Command.run (command : Command) (store : Store) : Reply × Store :=
  match command with
  | .selectRoot id => (.done, store.selectRoot id)
  | .selectChild id => (.done, store.selectChild id)
  | .loadWord offset destination position =>
    answer (Store.loadWordInto offset destination position) .destination .refused store
  | .loadByte offset => answer (Store.loadByte offset) .byte .refused store
  | .loadHalf offset => answer (Store.loadHalf offset) .half .refused store
  | .storeWord offset word => answer (Store.storeWord offset word) (fun _ => .done) .refused store
  | .storeBytes offset bytes => answer (Store.storeBytes offset bytes) (fun _ => .done) .refused store
  | .insertChunk root child bytes => (.done, store.insertChunk root child bytes)
  | .eraseChunk root child => (.erased (store.chunk? root child), store.eraseChunk root child)
  | .clearLog => (.done, store.clearLog)
  | .save => (.done, store.save)
  | .discard => (.done, store.discard)
  | .restore => (.done, store.restore)

/-! ## Brackets -/

/-- How many brackets are open after the command, if so many are open before it; `none` if the command
closes a bracket and none is open. -/
def Command.opened (count : Nat) : Command → Option Nat
  | .save => some (count + 1)
  | .discard | .restore => if count = 0 then none else some (count - 1)
  | _ => some count

/-- Every bracket that is opened is closed, and none is closed that was not opened. -/
def Nested (commands : List Command) : Prop :=
  commands.foldlM Command.opened 0 = some 0

instance (commands : List Command) : Decidable (Nested commands) :=
  inferInstanceAs (Decidable (_ = _))

/-! ## Above an open bracket -/

/-- The stores hold the same chunks and have the same one selected.  Above `low` and `low'` they hold
the same checkpoints, one for each of `count` brackets. -/
structure Above (low low' : List Chunks) (count : Nat) (a b : Store) : Prop where
  chunks : a.chunks = b.chunks
  root : a.root = b.root
  child : a.child = b.child
  checkpoints : ∃ inner : List Chunks, inner.length = count ∧
    a.checkpoints = inner ++ low ∧ b.checkpoints = inner ++ low'

variable {low low' : List Chunks} {count : Nat} {a b : Store}

theorem Above.chunk?_eq (h : Above low low' count a b) (root child : Identifier) :
    a.chunk? root child = b.chunk? root child := by
  rw [chunk?, chunk?, h.chunks]

theorem Above.checkpoints_zero (h : Above low low' 0 a b) :
    a.checkpoints = low ∧ b.checkpoints = low' := by
  obtain ⟨inner, hcount, ha, hb⟩ := h.checkpoints
  rw [List.length_eq_zero_iff.mp hcount] at ha hb
  exact ⟨ha, hb⟩

/-! ## Commands inside a bracket -/

theorem Above.record (h : Above low low' count a b) (access : Access) :
    Above low low' count (a.record access) (b.record access) :=
  ⟨h.chunks, h.root, h.child, h.checkpoints⟩

theorem lookalikes_above : Lookalikes (Above low low' count) where
  alike h := ⟨h.chunk?_eq, h.root, h.child⟩
  record access h := h.record access

theorem mirrors_loadWordInto (offset : Nat) (destination : Bytes) (position : Nat) :
    Mirrors (Above low low' count) (loadWordInto offset destination position)
      (loadWordInto offset destination position) := by
  intro a b h
  unfold loadWordInto
  rw [(lookalikes_above.alike h).fetch_eq]
  split
  · exact .error _ h
  · split
    · exact .error _ h
    · exact .ok _ (h.record _)

theorem Above.insertChunk (h : Above low low' count a b) (root child : Identifier) (bytes : Bytes) :
    Above low low' count (a.insertChunk root child bytes) (b.insertChunk root child bytes) :=
  ⟨congrArg (Chunks.insert · root child bytes) h.chunks, h.root, h.child, h.checkpoints⟩

theorem mirrors_storeBytes (offset : Nat) (bytes : Bytes) :
    Mirrors (Above low low' count) (storeBytes offset bytes) (storeBytes offset bytes) := by
  intro a b h
  have hlogged := h.record (.stored offset bytes)
  simp only [storeBytes, hlogged.root, hlogged.child, hlogged.chunk?_eq]
  cases (b.record (.stored offset bytes)).root with
  | none => exact .error _ hlogged
  | some root =>
    cases (b.record (.stored offset bytes)).child with
    | none => exact .error _ hlogged
    | some child =>
      dsimp only
      cases (b.record (.stored offset bytes)).chunk? root child with
      | none => exact .error _ hlogged
      | some chunk =>
        dsimp only
        split
        · exact .error _ hlogged
        · exact .ok _ (hlogged.insertChunk root child _)

theorem Above.save (h : Above low low' count a b) : Above low low' (count + 1) a.save b.save := by
  obtain ⟨hchunks, hroot, hchild, inner, hcount, ha, hb⟩ := h
  refine ⟨hchunks, hroot, hchild, a.chunks :: inner, ?_, ?_, ?_⟩
  · rw [List.length_cons, hcount]
  · exact congrArg (a.chunks :: ·) ha
  · rw [hchunks]
    exact congrArg (b.chunks :: ·) hb

theorem Above.discard (h : Above low low' (count + 1) a b) :
    Above low low' count a.discard b.discard := by
  obtain ⟨hchunks, hroot, hchild, inner, hcount, ha, hb⟩ := h
  obtain ⟨saved, inner, rfl⟩ := List.exists_cons_of_length_eq_add_one hcount
  refine ⟨hchunks, hroot, hchild, inner, Nat.succ.inj hcount, ?_, ?_⟩
  · exact congrArg List.tail ha
  · exact congrArg List.tail hb

theorem restore_of_cons {store : Store} {chunks : Chunks} {checkpoints : List Chunks}
    (h : store.checkpoints = chunks :: checkpoints) :
    store.restore = { store with chunks, checkpoints }.record .restore := by
  rw [restore, h]

theorem Above.restore (h : Above low low' (count + 1) a b) :
    Above low low' count a.restore b.restore := by
  obtain ⟨-, hroot, hchild, inner, hcount, ha, hb⟩ := h
  obtain ⟨saved, inner, rfl⟩ := List.exists_cons_of_length_eq_add_one hcount
  rw [restore_of_cons ha, restore_of_cons hb]
  exact ⟨rfl, hroot, hchild, inner, Nat.succ.inj hcount, rfl, rfl⟩

/-! ## Runs of commands -/

/-- The same reply from stores that are again as `Above` says. -/
def Replies (low low' : List Chunks) (count : Nat) (left right : Reply × Store) : Prop :=
  left.1 = right.1 ∧ Above low low' count left.2 right.2

theorem Above.answer {α : Type} {op : Op α} (h : Above low low' count a b)
    (hop : Mirrors (Above low low' count) op op) (reply : α → Reply) :
    Replies low low' count (LaneMachine.answer op reply .refused a)
      (LaneMachine.answer op reply .refused b) := by
  have hend := hop a b h
  unfold LaneMachine.answer
  generalize op a = left at hend
  generalize op b = right at hend
  cases hend with
  | ok value hafter => exact ⟨rfl, hafter⟩
  | error e hafter => exact ⟨rfl, hafter⟩

/-- One command of a nested sequence: the two stores reply the same, and what is below stays. -/
theorem Above.run (h : Above low low' count a b) {command : Command} {count' : Nat}
    (hopened : command.opened count = some count') :
    Replies low low' count' (command.run a) (command.run b) := by
  cases command with
  | save =>
    cases hopened
    exact ⟨rfl, h.save⟩
  | discard =>
    cases count with
    | zero => cases hopened
    | succ count =>
      cases hopened
      exact ⟨rfl, h.discard⟩
  | restore =>
    cases count with
    | zero => cases hopened
    | succ count =>
      cases hopened
      exact ⟨rfl, h.restore⟩
  | selectRoot id =>
    cases hopened
    exact ⟨rfl, h.chunks, rfl, rfl, h.checkpoints⟩
  | selectChild id =>
    cases hopened
    exact ⟨rfl, h.chunks, h.root, rfl, h.checkpoints⟩
  | loadWord offset destination position =>
    cases hopened
    exact h.answer (mirrors_loadWordInto offset destination position) _
  | loadByte offset =>
    cases hopened
    exact h.answer (mirrors_loadByte lookalikes_above offset) _
  | loadHalf offset =>
    cases hopened
    exact h.answer (mirrors_loadHalf lookalikes_above offset) _
  | storeWord offset word =>
    cases hopened
    exact h.answer (mirrors_storeBytes offset _) _
  | storeBytes offset bytes =>
    cases hopened
    exact h.answer (mirrors_storeBytes offset bytes) _
  | insertChunk root child bytes =>
    cases hopened
    exact ⟨rfl, h.insertChunk root child bytes⟩
  | eraseChunk root child =>
    cases hopened
    exact ⟨congrArg Reply.erased (h.chunk?_eq root child),
      congrArg (Chunks.erase · root child) h.chunks, h.root, h.child, h.checkpoints⟩
  | clearLog =>
    cases hopened
    exact ⟨rfl, h.chunks, h.root, h.child, h.checkpoints⟩

/-- A nested sequence, by one command after another. -/
theorem Above.nested (h : Above low low' 0 a b) {commands : List Command} (hnested : Nested commands) :
    (runAll Command.run commands a).1 = (runAll Command.run commands b).1 ∧
      Above low low' 0 (runAll Command.run commands a).2 (runAll Command.run commands b).2 :=
  runAll_related (fun habove hopened => habove.run hopened) h hnested

/-- A bracket around a nested sequence.  Restored, it gives back the chunks and the checkpoints from
before; discarded, it leaves the chunks and the replies that the sequence alone gives, and the
checkpoints from before.  Without a bracket to close, only the log shows that one was to be closed. -/
theorem nested_checkpoints (store : Store) :
    (∀ commands, Nested commands →
      let alone := runAll Command.run commands store
      let bracketed := runAll Command.run commands store.save
      (bracketed.2.restore.chunks = store.chunks ∧
        bracketed.2.restore.checkpoints = store.checkpoints) ∧
      (bracketed.1 = alone.1 ∧ bracketed.2.discard.chunks = alone.2.chunks ∧
        bracketed.2.discard.checkpoints = store.checkpoints)) ∧
    (store.checkpoints = [] →
      { store.discard with log := store.log } = store ∧
      { store.restore with log := store.log } = store) := by
  refine ⟨?_, ?_⟩
  · intro commands hnested
    have hopen : Above (store.chunks :: store.checkpoints) store.checkpoints 0 store.save store :=
      ⟨rfl, rfl, rfl, [], rfl, rfl, rfl⟩
    obtain ⟨hreplies, hlast⟩ := hopen.nested hnested
    have hcheckpoints := hlast.checkpoints_zero.1
    refine ⟨?_, hreplies, hlast.chunks, ?_⟩
    · rw [restore_of_cons hcheckpoints]
      exact ⟨rfl, rfl⟩
    · exact congrArg List.tail hcheckpoints
  · intro hnone
    refine ⟨?_, ?_⟩
    · simp only [discard, record, hnone, List.tail_nil]
      rw [← hnone]
    · simp only [restore, record, hnone]
      rw [← hnone]

/-- An inner bracket removes the only chunk, and its root with it, for good; the next one puts another
chunk in its place and takes that back. -/
def twoBrackets : List Command :=
  [.selectRoot ⟨1⟩, .selectChild ⟨2⟩, .save, .eraseChunk ⟨1⟩ ⟨2⟩, .discard,
    .save, .insertChunk ⟨1⟩ ⟨2⟩ #[7], .loadByte 0, .restore, .loadByte 0]

theorem nested_checkpoints_twoBrackets :
    let store := empty.insertChunk ⟨1⟩ ⟨2⟩ #[5]
    (runAll Command.run twoBrackets store.save).2.restore.chunk? ⟨1⟩ ⟨2⟩ = some #[5] ∧
    (runAll Command.run twoBrackets store.save).2.discard.chunk? ⟨1⟩ ⟨2⟩ = none ∧
    (runAll Command.run twoBrackets store.save).1 = [.done, .done, .done, .erased (some #[5]), .done,
      .done, .done, .byte 7, .done, .refused .nothingLoaded] ∧
    { store.restore with log := [] } = store := by
  intro store
  obtain ⟨hnested, hclosed⟩ := nested_checkpoints store
  obtain ⟨⟨hrestored, -⟩, hreplies, hdiscarded, -⟩ := hnested twoBrackets (by decide)
  refine ⟨?_, ?_, ?_, (hclosed rfl).2⟩
  · rw [chunk?, hrestored]
    decide +kernel
  · rw [chunk?, hdiscarded]
    decide +kernel
  · rw [hreplies]
    decide +kernel

end Store

end LaneMachine
