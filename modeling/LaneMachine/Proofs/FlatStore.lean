import Mathlib.Data.List.Induction
import Mathlib.Logic.Function.Basic
import LaneMachine.Proofs.Evolution
import LaneMachine.Proofs.Nesting
set_option autoImplicit false

/-!
# A store is a flat map

A store keeps its chunks in tables of tables, and its checkpoints as copies of them.  Seen from
outside it is one partial map from pairs of a root and a child to bytes, a stack of such maps, and
the key selected last (`Store.Flat`).  Every command is answered and changes the map as the flat
store says, from the empty store on (`Store.refines_flat`).

The selection is a key, not a chunk.  What a read or a write acts on is the value that the map has at
the key *now*, so that a chunk may be removed, put back or restored after it was selected.  The key
itself is a function of the commands so far (`Store.selectedKey?`).
-/

namespace LaneMachine

/-! ## Tables without empty tables -/

theorem Table.mem_put {α : Type} {key : Identifier} {value : α} {entries : List (Identifier × α)}
    {entry : Identifier × α} (h : entry ∈ put key value entries) :
    entry = (key, value) ∨ entry ∈ entries := by
  induction entries with
  | nil => exact .inl (List.mem_singleton.mp h)
  | cons first rest ih =>
    rw [put] at h
    split at h
    · obtain heq | hrest := List.mem_cons.mp h
      · exact .inl heq
      · exact .inr (List.mem_cons_of_mem first hrest)
    · obtain heq | hrest := List.mem_cons.mp h
      · exact .inr (List.mem_cons.mpr (.inl heq))
      · exact (ih hrest).imp_right (List.mem_cons_of_mem first)

namespace Chunks

/-- The chunks as a map from pairs of a root and a child. -/
def flatten (chunks : Chunks) (key : Identifier × Identifier) : Option Bytes :=
  chunks.get? key.1 key.2

theorem flatten_insert (chunks : Chunks) (root child : Identifier) (bytes : Bytes) :
    flatten (chunks.insert root child bytes) =
      Function.update (flatten chunks) (root, child) (some bytes) := by
  funext ⟨r, c⟩
  simp only [flatten, get?_insert, Function.update_apply, Prod.mk.injEq]

theorem flatten_erase (chunks : Chunks) (root child : Identifier) :
    flatten (chunks.erase root child) = Function.update (flatten chunks) (root, child) none := by
  funext ⟨r, c⟩
  simp only [flatten, get?_erase, Function.update_apply, Prod.mk.injEq]

/-- Every root in the table has a child. -/
def Trimmed (chunks : Chunks) : Prop :=
  ∀ entry ∈ chunks.entries, entry.2.isEmpty = false

theorem trimmed_empty : Trimmed Table.empty := by
  intro entry hentry
  cases hentry

variable {chunks : Chunks}

theorem Trimmed.put (h : chunks.Trimmed) (root : Identifier) {children : Table Bytes}
    (hchildren : children.isEmpty = false) : Trimmed (Table.insert chunks root children) := by
  intro entry hentry
  obtain rfl | hold := Table.mem_put hentry
  · exact hchildren
  · exact h entry hold

theorem Trimmed.insert (h : chunks.Trimmed) (root child : Identifier) (bytes : Bytes) :
    (chunks.insert root child bytes).Trimmed :=
  h.put root (Table.isEmpty_insert _ child bytes)

theorem Trimmed.erase (h : chunks.Trimmed) (root child : Identifier) :
    (chunks.erase root child).Trimmed := by
  unfold Chunks.erase
  split
  · exact h
  · dsimp only
    split
    · intro entry hentry
      exact h entry (List.mem_filter.mp hentry).1
    · apply h.put
      exact Bool.eq_false_iff.mpr ‹_›

end Chunks

namespace Store

/-! ## The flat store -/

/-- A partial map from pairs of a root and a child to bytes, with the maps that were saved, latest
first, and the selection. -/
structure Flat where
  chunks : Identifier × Identifier → Option Bytes
  saved : List (Identifier × Identifier → Option Bytes)
  root : Option Identifier
  child : Option Identifier

namespace Flat

/-- The flat store without chunks. -/
def empty : Flat :=
  { chunks := fun _ => none, saved := [], root := none, child := none }

/-- The selected key, once a root and then a child were selected. -/
def key? (flat : Flat) : Option (Identifier × Identifier) :=
  flat.root.bind fun root => flat.child.map fun child => (root, child)

/-- The value at the selected key. -/
def value? (flat : Flat) : Option Bytes :=
  flat.key?.bind flat.chunks

/-- The flat store with another value at one key. -/
def set (flat : Flat) (key : Identifier × Identifier) (value : Option Bytes) : Flat :=
  { flat with chunks := Function.update flat.chunks key value }

/-- What is answered to a read of `count` bytes at `offset`; `reply` is for the bytes read. -/
def read (flat : Flat) (offset count : Nat) (reply : List UInt8 → Reply) : Reply :=
  match flat.value? with
  | none => .refused .nothingLoaded
  | some value =>
    if offset + count ≤ value.size then reply ((value.toList.drop offset).take count)
    else .refused (.outOfBounds offset count value.size)

/-- The value with `bytes` in place of those from `offset` on. -/
def patched (value : Bytes) (offset : Nat) (bytes : Bytes) : Bytes :=
  (value.toList.take offset ++ bytes.toList ++ value.toList.drop (offset + bytes.size)).toArray

/-- Writes into the value at the selected key. -/
def write (flat : Flat) (offset : Nat) (bytes : Bytes) : Reply × Flat :=
  match flat.key?, flat.value? with
  | some key, some value =>
    if offset ≤ value.size then (.done, flat.set key (some (patched value offset bytes)))
    else (.refused (.outOfBounds offset bytes.size value.size), flat)
  | _, _ => (.refused .nothingLoaded, flat)

/-- The reply of a flat store, and the one that is left. -/
def run (command : Command) (flat : Flat) : Reply × Flat :=
  match command with
  | .selectRoot id => (.done, { flat with root := some id, child := none })
  | .selectChild id => (.done, { flat with child := some id })
  | .loadWord offset destination position =>
    (flat.read offset 8 fun part =>
      if position + 8 ≤ destination.size then .destination (patched destination position part.toArray)
      else .refused (.destinationTooSmall position 8 destination.size), flat)
  | .loadByte offset => (flat.read offset 1 fun part => .byte (part.headD 0), flat)
  | .loadHalf offset => (flat.read offset 2 fun part => .half (UInt16.ofNat (natOfBytes part)), flat)
  | .storeWord offset word => flat.write offset (bytesOfNat 8 word.toNat).toArray
  | .storeBytes offset bytes => flat.write offset bytes
  | .insertChunk root child bytes => (.done, flat.set (root, child) (some bytes))
  | .eraseChunk root child => (.erased (flat.chunks (root, child)), flat.set (root, child) none)
  | .clearLog => (.done, flat)
  | .save => (.done, { flat with saved := flat.chunks :: flat.saved })
  | .discard => (.done, { flat with saved := flat.saved.tail })
  | .restore =>
    match flat.saved with
    | [] => (.done, flat)
    | chunks :: saved => (.done, { flat with chunks, saved })

end Flat

/-- The store as a flat one.  The log does not show in it. -/
def flat (store : Store) : Flat :=
  { chunks := store.chunks.flatten
    saved := store.checkpoints.map Chunks.flatten
    root := store.root
    child := store.child }

/-! ## Reads and writes -/

theorem value?_flat (store : Store) : store.flat.value? = store.selected? := by
  unfold Flat.value? Flat.key? selected?
  show (store.root.bind fun root => store.child.map fun child => (root, child)).bind _ = _
  cases store.root with
  | none => rfl
  | some root =>
    cases store.child with
    | none => rfl
    | some child => rfl

theorem slice?_eq (value : Bytes) (offset count : Nat) :
    Bytes.slice? value offset count =
      if offset + count ≤ value.size then some ((value.toList.drop offset).take count).toArray
      else none := by
  unfold Bytes.slice?
  refine if_congr Iff.rfl ?_ rfl
  congr 1
  apply Array.toList_inj.mp
  rw [Array.toList_extract, List.extract_eq_take_drop, Nat.add_sub_cancel_left]

theorem patched_eq_splice (value : Bytes) (offset : Nat) (bytes : Bytes) :
    Flat.patched value offset bytes = Bytes.splice value offset bytes := by
  apply Array.toList_inj.mp
  simp only [Flat.patched, Bytes.splice, Array.toList_append, Array.toList_extract,
    List.extract_eq_take_drop, List.drop_zero, Nat.sub_zero]
  rw [List.take_of_length_le (l := value.toList.drop (offset + bytes.size))]
  exact Nat.le_of_eq (List.length_drop ..)

theorem size_of_fetch {store : Store} {offset count : Nat} {part : Bytes}
    (h : store.fetch offset count = .ok part) : part.size = count := by
  obtain ⟨value, -, hslice⟩ := (fetch_eq_ok_iff store offset count part).mp h
  rw [slice?_eq] at hslice
  split at hslice
  · cases hslice
    rw [List.size_toArray, List.length_take, List.length_drop, Array.length_toList]
    omega
  · cases hslice

/-- What a flat read answers, in terms of the bytes fetched. -/
theorem read_flat (store : Store) (offset count : Nat) (reply : List UInt8 → Reply) :
    store.flat.read offset count reply =
      match store.fetch offset count with
      | .error e => .refused e
      | .ok part => reply part.toList := by
  unfold Flat.read fetch
  rw [value?_flat]
  cases store.selected? with
  | none => rfl
  | some value =>
    dsimp only
    rw [slice?_eq]
    by_cases h : offset + count ≤ value.size
    · rw [if_pos h, if_pos h]
    · rw [if_neg h, if_neg h]

/-- A reply and the store that is left, seen flat. -/
def seen (result : Reply × Store) : Reply × Flat :=
  (result.1, result.2.flat)

/-- A program that fetches bytes and goes on with them is answered as the flat read. -/
theorem seen_fetch {α : Type} {op : Op α} (next : Bytes → Op α) {store : Store}
    {offset count : Nat} {reply : α → Reply} {told : List UInt8 → Reply}
    (hop : op store = match store.fetch offset count with
      | .error e => .error e store
      | .ok part => next part store)
    (hnext : ∀ part : Bytes, part.size = count →
      seen (answer (next part) reply .refused store) = (told part.toList, store.flat)) :
    seen (answer op reply .refused store) = (store.flat.read offset count told, store.flat) := by
  rw [read_flat]
  cases hfetch : store.fetch offset count with
  | error e =>
    rw [hfetch] at hop
    rw [answer_of_error hop]
    rfl
  | ok part =>
    rw [hfetch] at hop
    have hsame : answer op reply .refused store = answer (next part) reply .refused store := by
      rw [answer, answer, hop]
    rw [hsame]
    exact hnext part (size_of_fetch hfetch)

theorem seen_loadByte (store : Store) (offset : Nat) :
    seen ((Command.loadByte offset).run store) = Flat.run (.loadByte offset) store.flat := by
  apply seen_fetch (fun part store =>
    .ok (part.getD 0 0) (store.record (.loadedByte offset (part.getD 0 0)))) rfl
  rintro ⟨part⟩ -
  cases part with
  | nil => rfl
  | cons byte rest => rfl

theorem seen_loadHalf (store : Store) (offset : Nat) :
    seen ((Command.loadHalf offset).run store) = Flat.run (.loadHalf offset) store.flat := by
  apply seen_fetch (fun part store =>
    .ok (halfOfBytes part.toList) (store.record (.loadedHalf offset (halfOfBytes part.toList)))) rfl
  intro part _
  rfl

theorem overwrite_eq_patched {destination part : Bytes} {position : Nat}
    (h : position + part.size ≤ destination.size) :
    Bytes.overwrite destination position part.toList = Flat.patched destination position part := by
  apply Array.toList_inj.mp
  exact Bytes.overwrite_toList destination position part.toList h

theorem seen_loadWord (store : Store) (offset : Nat) (destination : Bytes) (position : Nat) :
    seen ((Command.loadWord offset destination position).run store) =
      Flat.run (.loadWord offset destination position) store.flat := by
  apply seen_fetch (fun part store =>
    if destination.size < position + wordSize then
      .error (.destinationTooSmall position wordSize destination.size) store
    else
      .ok (Bytes.overwrite destination position part.toList)
        (store.record (.loadedWord offset (wordOfBytes part.toList)))) rfl
  intro part hpart
  unfold answer
  dsimp only
  by_cases hroom : position + 8 ≤ destination.size
  · have hfits : ¬ destination.size < position + wordSize := Nat.not_lt.mpr hroom
    rw [if_pos hroom, if_neg hfits, overwrite_eq_patched (hpart ▸ hroom)]
    rfl
  · have hshort : destination.size < position + wordSize := Nat.not_le.mp hroom
    rw [if_neg hroom, if_pos hshort]
    rfl

theorem flat_insertChunk (store : Store) (root child : Identifier) (bytes : Bytes) :
    (store.insertChunk root child bytes).flat = store.flat.set (root, child) (some bytes) := by
  simp only [flat, Flat.set, insertChunk, Chunks.flatten_insert]

theorem flat_eraseChunk (store : Store) (root child : Identifier) :
    (store.eraseChunk root child).flat = store.flat.set (root, child) none := by
  simp only [flat, Flat.set, eraseChunk, Chunks.flatten_erase]

theorem storeBytes_of_unselected {store : Store} (offset : Nat) (bytes : Bytes)
    (h : store.selected? = none) :
    storeBytes offset bytes store = .error .nothingLoaded (store.record (.stored offset bytes)) := by
  obtain ⟨chunks, checkpoints, root, child, log⟩ := store
  cases root with
  | none => rfl
  | some root =>
    cases child with
    | none => rfl
    | some child =>
      have hvalue : chunks.get? root child = none := h
      simp only [storeBytes, record, chunk?, hvalue]

theorem storeBytes_of_selected {store : Store} {root child : Identifier} {value : Bytes}
    (offset : Nat) (bytes : Bytes) (hroot : store.root = some root)
    (hchild : store.child = some child) (hvalue : store.chunk? root child = some value) :
    storeBytes offset bytes store =
      if offset ≤ value.size then
        .ok () ((store.record (.stored offset bytes)).insertChunk root child
          (Flat.patched value offset bytes))
      else .error (.outOfBounds offset bytes.size value.size) (store.record (.stored offset bytes)) := by
  have hlogged : (store.record (.stored offset bytes)).chunk? root child = some value := hvalue
  unfold storeBytes
  dsimp only
  rw [show (store.record (.stored offset bytes)).root = some root from hroot,
    show (store.record (.stored offset bytes)).child = some child from hchild]
  dsimp only
  rw [hlogged, patched_eq_splice]
  by_cases hinside : offset ≤ value.size
  · rw [if_pos hinside]
    exact if_neg (Nat.not_lt.mpr hinside)
  · rw [if_neg hinside]
    exact if_pos (Nat.not_le.mp hinside)

theorem exists_key_of_selected {store : Store} {value : Bytes} (h : store.selected? = some value) :
    ∃ root child, store.root = some root ∧ store.child = some child ∧
      store.chunk? root child = some value := by
  unfold selected? at h
  split at h
  · exact ⟨_, _, ‹_›, ‹_›, h⟩
  · cases h

theorem seen_storeBytes (store : Store) (offset : Nat) (bytes : Bytes) :
    seen ((Command.storeBytes offset bytes).run store) =
      Flat.run (.storeBytes offset bytes) store.flat := by
  show seen (answer (storeBytes offset bytes) _ _ store) = store.flat.write offset bytes
  unfold Flat.write
  rw [value?_flat]
  cases hvalue : store.selected? with
  | none =>
    rw [answer_of_error (storeBytes_of_unselected offset bytes hvalue)]
    cases store.flat.key? with
    | none => rfl
    | some key => rfl
  | some value =>
    obtain ⟨root, child, hroot, hchild, hchunk⟩ := exists_key_of_selected hvalue
    have hkey : store.flat.key? = some (root, child) := by
      simp only [Flat.key?, flat, hroot, hchild, Option.bind_some, Option.map_some]
    have hstore := storeBytes_of_selected offset bytes hroot hchild hchunk
    rw [hkey]
    dsimp only
    by_cases hinside : offset ≤ value.size
    · rw [if_pos hinside] at hstore ⊢
      rw [answer_of_ok hstore, seen, flat_insertChunk]
      rfl
    · rw [if_neg hinside] at hstore ⊢
      rw [answer_of_error hstore]
      rfl

/-! ## Runs of commands -/

/-- One command: the store answers and changes as the flat one. -/
theorem seen_run (command : Command) (store : Store) :
    seen (command.run store) = Flat.run command store.flat := by
  cases command with
  | selectRoot id => rfl
  | selectChild id => rfl
  | loadWord offset destination position => exact seen_loadWord store offset destination position
  | loadByte offset => exact seen_loadByte store offset
  | loadHalf offset => exact seen_loadHalf store offset
  | storeWord offset word => exact seen_storeBytes store offset (bytesOfWord word).toArray
  | storeBytes offset bytes => exact seen_storeBytes store offset bytes
  | insertChunk root child bytes =>
    exact congrArg (Prod.mk Reply.done) (flat_insertChunk store root child bytes)
  | eraseChunk root child =>
    exact congrArg (Prod.mk (Reply.erased (store.chunk? root child))) (flat_eraseChunk store root child)
  | clearLog => rfl
  | save => rfl
  | discard =>
    refine congrArg (fun saved => (Reply.done, { store.flat with saved })) ?_
    exact List.map_tail
  | restore =>
    obtain ⟨chunks, checkpoints, root, child, log⟩ := store
    cases checkpoints with
    | nil => rfl
    | cons saved rest => rfl

/-- No table of chunks, checkpoints included, has a root without a child. -/
def Trimmed (store : Store) : Prop :=
  ∀ chunks ∈ store.chunks :: store.checkpoints, chunks.Trimmed

theorem trimmed_iff {store : Store} :
    store.Trimmed ↔ store.chunks.Trimmed ∧ ∀ chunks ∈ store.checkpoints, chunks.Trimmed :=
  List.forall_mem_cons

theorem Trimmed.of_agrees {a b : Store} (h : a.Trimmed) (hagrees : a.Agrees b) : b.Trimmed := by
  unfold Trimmed
  rw [← hagrees.chunks, ← hagrees.checkpoints]
  exact h

theorem Trimmed.insertChunk {store : Store} (h : store.Trimmed) (root child : Identifier)
    (bytes : Bytes) : (store.insertChunk root child bytes).Trimmed := by
  obtain ⟨hchunks, hsaved⟩ := trimmed_iff.mp h
  exact trimmed_iff.mpr ⟨hchunks.insert root child bytes, hsaved⟩

theorem snd_answer {α : Type} (op : Op α) (reply : α → Reply) (store : Store) :
    (answer op reply .refused store).2 = finalState (op store) := by
  unfold answer
  cases op store with
  | ok value after => rfl
  | error e after => rfl

theorem Trimmed.answer {α : Type} {op : Op α} {store : Store} (h : store.Trimmed)
    (hop : Keeps Agrees op) (reply : α → Reply) :
    (LaneMachine.answer op reply .refused store).2.Trimmed := by
  rw [snd_answer]
  exact h.of_agrees (hop store)

theorem keeps_loadWordInto (offset : Nat) (destination : Bytes) (position : Nat) :
    Keeps Agrees (loadWordInto offset destination position) := by
  intro before
  unfold loadWordInto
  split
  · exact .refl before
  · split
    · exact .refl before
    · exact agrees_record before _

theorem Trimmed.storeBytes {store : Store} (h : store.Trimmed) (offset : Nat) (bytes : Bytes) :
    ((Command.storeBytes offset bytes).run store).2.Trimmed := by
  show (LaneMachine.answer (Store.storeBytes offset bytes) _ _ store).2.Trimmed
  rw [snd_answer]
  unfold Store.storeBytes
  dsimp only
  split
  · split
    · exact h
    · split
      · exact h
      · exact h.insertChunk _ _ _
  · exact h

theorem Trimmed.run {store : Store} (h : store.Trimmed) (command : Command) :
    (command.run store).2.Trimmed := by
  obtain ⟨hchunks, hsaved⟩ := trimmed_iff.mp h
  cases command with
  | selectRoot id => exact h
  | selectChild id => exact h
  | loadWord offset destination position =>
    exact h.answer (keeps_loadWordInto offset destination position) _
  | loadByte offset => exact h.answer (keeps_loadByte offset) _
  | loadHalf offset => exact h.answer (keeps_loadHalf offset) _
  | storeWord offset word => exact h.storeBytes offset _
  | storeBytes offset bytes => exact h.storeBytes offset bytes
  | insertChunk root child bytes => exact h.insertChunk root child bytes
  | eraseChunk root child => exact trimmed_iff.mpr ⟨hchunks.erase root child, hsaved⟩
  | clearLog => exact h
  | save => exact trimmed_iff.mpr ⟨hchunks, h⟩
  | discard =>
    refine trimmed_iff.mpr ⟨hchunks, fun saved hmem => ?_⟩
    exact hsaved saved (List.mem_of_mem_tail hmem)
  | restore =>
    obtain ⟨chunks, checkpoints, root, child, log⟩ := store
    cases checkpoints with
    | nil => exact h
    | cons saved rest => exact hsaved

/-! ## The selected key -/

/-- The root that a command selects. -/
def Command.root? : Command → Option Identifier
  | .selectRoot id => some id
  | _ => none

/-- The child that a command selects. -/
def Command.child? : Command → Option Identifier
  | .selectChild id => some id
  | _ => none

/-- Whether a command reads or writes what is selected. -/
def Command.accesses : Command → Bool
  | .loadWord .. | .loadByte _ | .loadHalf _ | .storeWord .. | .storeBytes .. => true
  | _ => false

/-- The root selected last. -/
def lastRoot? (commands : List Command) : Option Identifier :=
  commands.reverse.findSome? Command.root?

/-- The child selected last, if no root was selected after it. -/
def lastChild? (commands : List Command) : Option Identifier :=
  (commands.reverse.takeWhile fun command => command.root?.isNone).findSome? Command.child?

/-- The key that is selected after the commands: the root selected last, with the child selected last
since then. -/
def selectedKey? (commands : List Command) : Option (Identifier × Identifier) :=
  (lastRoot? commands).bind fun root => (lastChild? commands).map fun child => (root, child)

theorem lastRoot?_concat (commands : List Command) (command : Command) :
    lastRoot? (commands ++ [command]) = command.root?.or (lastRoot? commands) := by
  unfold lastRoot?
  rw [List.reverse_concat, List.findSome?_cons]
  cases command.root? with
  | none => rfl
  | some root => rfl

theorem lastChild?_concat (commands : List Command) (command : Command) :
    lastChild? (commands ++ [command]) =
      if command.root?.isNone then command.child?.or (lastChild? commands) else none := by
  unfold lastChild?
  rw [List.reverse_concat, List.takeWhile_cons]
  split
  · rw [List.findSome?_cons]
    cases command.child? with
    | none => rfl
    | some child => rfl
  · rfl

namespace Flat

theorem selection_write (flat : Flat) (offset : Nat) (bytes : Bytes) :
    (flat.write offset bytes).2.root = flat.root ∧ (flat.write offset bytes).2.child = flat.child := by
  unfold write
  split
  · split <;> exact ⟨rfl, rfl⟩
  · exact ⟨rfl, rfl⟩

/-- Only selecting changes the selection, and selecting a root takes the child away. -/
theorem selection_run (command : Command) (flat : Flat) :
    (run command flat).2.root = command.root?.or flat.root ∧
      (run command flat).2.child =
        if command.root?.isNone then command.child?.or flat.child else none := by
  cases command with
  | storeWord offset word => exact selection_write flat offset _
  | storeBytes offset bytes => exact selection_write flat offset bytes
  | restore =>
    obtain ⟨chunks, saved, root, child⟩ := flat
    cases saved with
    | nil => exact ⟨rfl, rfl⟩
    | cons latest saved => exact ⟨rfl, rfl⟩
  | _ => exact ⟨rfl, rfl⟩

theorem selection_runAll (commands : List Command) :
    (runAll run commands empty).2.root = lastRoot? commands ∧
      (runAll run commands empty).2.child = lastChild? commands := by
  -- the selection is read off the end of the commands, so the last one is taken off first
  induction commands using List.reverseRecOn with
  | nil => exact ⟨rfl, rfl⟩
  | append_singleton commands command ih =>
    obtain ⟨hroot, hchild⟩ := selection_run command (runAll run commands empty).2
    rw [snd_runAll_concat, lastRoot?_concat, lastChild?_concat, ← ih.1, ← ih.2]
    exact ⟨hroot, hchild⟩

theorem key?_runAll (commands : List Command) :
    (runAll run commands empty).2.key? = selectedKey? commands := by
  obtain ⟨hroot, hchild⟩ := selection_runAll commands
  rw [key?, selectedKey?, hroot, hchild]

/-! ## When reads and writes succeed -/

variable {flat : Flat} {offset count : Nat} {reply : List UInt8 → Reply}

theorem read_eq_nothingLoaded_iff (hreply : ∀ part, reply part ≠ .refused .nothingLoaded) :
    flat.read offset count reply = .refused .nothingLoaded ↔ flat.value? = none := by
  unfold read
  cases flat.value? with
  | none => simp only
  | some value =>
    simp only [reduceCtorEq, iff_false]
    split
    · exact hreply _
    · intro h
      cases h

theorem read_eq_iff {result : Reply} (hresult : ∀ e, result ≠ .refused e) :
    flat.read offset count reply = result ↔
      ∃ value, flat.value? = some value ∧ offset + count ≤ value.size ∧
        reply ((value.toList.drop offset).take count) = result := by
  unfold read
  cases flat.value? with
  | none =>
    simp only [reduceCtorEq, false_and, exists_false, iff_false]
    exact (hresult _).symm
  | some value =>
    simp only [Option.some.injEq, exists_eq_left']
    split
    · rename_i hinside
      simp only [hinside, true_and]
    · rename_i houtside
      simp only [houtside, false_and, iff_false]
      exact (hresult _).symm

theorem key?_of_value? {value : Bytes} (h : flat.value? = some value) :
    ∃ key, flat.key? = some key ∧ flat.chunks key = some value :=
  Option.bind_eq_some_iff.mp h

theorem write_of_key {key : Identifier × Identifier} {value : Bytes}
    (hkey : flat.key? = some key) (hvalue : flat.chunks key = some value) (offset : Nat)
    (bytes : Bytes) :
    flat.write offset bytes =
      if offset ≤ value.size then (.done, flat.set key (some (patched value offset bytes)))
      else (.refused (.outOfBounds offset bytes.size value.size), flat) := by
  have hfound : flat.value? = some value := Option.bind_eq_some_iff.mpr ⟨key, hkey, hvalue⟩
  rw [write, hkey, hfound]

theorem write_of_none {bytes : Bytes} (h : flat.value? = none) :
    flat.write offset bytes = (.refused .nothingLoaded, flat) := by
  rw [write, h]
  cases flat.key? with
  | none => rfl
  | some key => rfl

theorem write_eq_nothingLoaded_iff {bytes : Bytes} :
    (flat.write offset bytes).1 = .refused .nothingLoaded ↔ flat.value? = none := by
  cases hvalue : flat.value? with
  | none => simp only [write_of_none hvalue]
  | some value =>
    obtain ⟨key, hkey, hchunk⟩ := key?_of_value? hvalue
    rw [write_of_key hkey hchunk offset bytes]
    split <;> simp only [reduceCtorEq, Reply.refused.injEq]

theorem write_eq_done_iff {bytes : Bytes} :
    (flat.write offset bytes).1 = .done ↔
      ∃ value, flat.value? = some value ∧ offset ≤ value.size := by
  cases hvalue : flat.value? with
  | none => simp only [write_of_none hvalue, reduceCtorEq, false_and, exists_false]
  | some value =>
    obtain ⟨key, hkey, hchunk⟩ := key?_of_value? hvalue
    simp only [write_of_key hkey hchunk offset bytes, Option.some.injEq, exists_eq_left']
    split
    · simp only [true_iff]
      assumption
    · simp only [reduceCtorEq, false_iff]
      assumption

theorem nothingLoaded_iff {command : Command} (h : command.accesses = true) :
    (run command flat).1 = .refused .nothingLoaded ↔ flat.value? = none := by
  cases command with
  | loadWord offset destination position =>
    dsimp only [run]
    rw [read_eq_nothingLoaded_iff]
    intro part
    split <;> simp only [ne_eq, reduceCtorEq, Reply.refused.injEq, not_false_eq_true]
  | loadByte offset =>
    dsimp only [run]
    rw [read_eq_nothingLoaded_iff]
    intro part
    apply Reply.noConfusion
  | loadHalf offset =>
    dsimp only [run]
    rw [read_eq_nothingLoaded_iff]
    intro part
    apply Reply.noConfusion
  | storeWord offset word => exact write_eq_nothingLoaded_iff
  | storeBytes offset bytes => exact write_eq_nothingLoaded_iff
  | _ => cases h

theorem headD_part_iff {bytes : List UInt8} {byte : UInt8} :
    offset + 1 ≤ bytes.length ∧ ((bytes.drop offset).take 1).headD 0 = byte ↔
      bytes[offset]? = some byte := by
  have hfirst : bytes[offset]? = (bytes.drop offset)[0]? := by rw [List.getElem?_drop, Nat.add_zero]
  have hlength : (bytes.drop offset).length = bytes.length - offset := List.length_drop
  rw [hfirst]
  cases hrest : bytes.drop offset with
  | nil =>
    rw [hrest, List.length_nil] at hlength
    simp only [List.getElem?_nil, reduceCtorEq, iff_false]
    omega
  | cons first rest =>
    rw [hrest, List.length_cons] at hlength
    have hinside : offset + 1 ≤ bytes.length := by omega
    simp only [hinside, true_and, List.take_succ_cons, List.headD_cons, List.getElem?_cons_zero,
      Option.some.injEq]

theorem halfOfPart_iff {bytes : List UInt8} {half : UInt16} :
    offset + 2 ≤ bytes.length ∧ UInt16.ofNat (natOfBytes ((bytes.drop offset).take 2)) = half ↔
      ∃ low high, bytes[offset]? = some low ∧ bytes[offset + 1]? = some high ∧
        half.toNat = low.toNat + 256 * high.toNat := by
  have hfirst : bytes[offset]? = (bytes.drop offset)[0]? := by rw [List.getElem?_drop, Nat.add_zero]
  have hsecond : bytes[offset + 1]? = (bytes.drop offset)[1]? := by rw [List.getElem?_drop]
  have hlength : (bytes.drop offset).length = bytes.length - offset := List.length_drop
  rw [hfirst, hsecond]
  match hrest : bytes.drop offset with
  | [] =>
    rw [hrest, List.length_nil] at hlength
    simp only [List.getElem?_nil, reduceCtorEq, false_and, exists_false, iff_false]
    omega
  | [low] =>
    rw [hrest, List.length_singleton] at hlength
    simp only [List.getElem?_cons_succ, List.getElem?_nil, reduceCtorEq, false_and, and_false,
      exists_false, iff_false]
    omega
  | low :: high :: rest =>
    rw [hrest, List.length_cons, List.length_cons] at hlength
    have hinside : offset + 2 ≤ bytes.length := by omega
    have hlow : low.toNat < 256 := low.toNat_lt
    have hhigh : high.toNat < 256 := high.toNat_lt
    have hsmall : low.toNat + 256 * high.toNat < 2 ^ 16 := by omega
    simp only [hinside, true_and, List.take_succ_cons, List.take_zero, natOfBytes, Nat.mul_zero,
      Nat.add_zero, List.getElem?_cons_zero, List.getElem?_cons_succ, Option.some.injEq,
      exists_and_left, exists_eq_left', ← UInt16.toNat_inj, UInt16.toNat_ofNat',
      Nat.mod_eq_of_lt hsmall]
    exact eq_comm

theorem loadByte_iff {byte : UInt8} :
    (run (.loadByte offset) flat).1 = .byte byte ↔
      ∃ value, flat.value? = some value ∧ value[offset]? = some byte := by
  dsimp only [run]
  rw [read_eq_iff (by simp only [ne_eq, reduceCtorEq, not_false_eq_true, implies_true])]
  refine exists_congr fun value => and_congr_right fun _ => ?_
  rw [Reply.byte.injEq, ← Array.getElem?_toList]
  exact headD_part_iff

theorem loadHalf_iff {half : UInt16} :
    (run (.loadHalf offset) flat).1 = .half half ↔
      ∃ value, flat.value? = some value ∧ ∃ low high, value[offset]? = some low ∧
        value[offset + 1]? = some high ∧ half.toNat = low.toNat + 256 * high.toNat := by
  dsimp only [run]
  rw [read_eq_iff (by simp only [ne_eq, reduceCtorEq, not_false_eq_true, implies_true])]
  refine exists_congr fun value => and_congr_right fun _ => ?_
  rw [Reply.half.injEq, ← Array.getElem?_toList, ← Array.getElem?_toList]
  exact halfOfPart_iff

theorem loadWord_iff {destination filled : Bytes} {position : Nat} :
    (run (.loadWord offset destination position) flat).1 = .destination filled ↔
      ∃ value, flat.value? = some value ∧ offset + 8 ≤ value.size ∧
        position + 8 ≤ destination.size ∧
        filled = patched destination position ((value.toList.drop offset).take 8).toArray := by
  dsimp only [run]
  rw [read_eq_iff (by simp only [ne_eq, reduceCtorEq, not_false_eq_true, implies_true])]
  refine exists_congr fun value => and_congr_right fun _ => and_congr_right fun _ => ?_
  by_cases hroom : position + 8 ≤ destination.size
  · rw [if_pos hroom, Reply.destination.injEq, eq_comm, and_iff_right hroom]
  · rw [if_neg hroom]
    simp only [reduceCtorEq, hroom, false_and]

end Flat

/-- How a store answers reads and writes, if they act on what `chunks` has at the key. -/
structure Accesses (store : Store) (key? : Option (Identifier × Identifier))
    (chunks : Identifier × Identifier → Option Bytes) : Prop where
  nothingLoaded : ∀ command : Command, command.accesses = true →
    ((command.run store).1 = .refused .nothingLoaded ↔ key?.bind chunks = none)
  loadByte : ∀ offset byte, ((Command.loadByte offset).run store).1 = .byte byte ↔
    ∃ value, key?.bind chunks = some value ∧ value[offset]? = some byte
  loadHalf : ∀ offset half, ((Command.loadHalf offset).run store).1 = .half half ↔
    ∃ value, key?.bind chunks = some value ∧ ∃ low high, value[offset]? = some low ∧
      value[offset + 1]? = some high ∧ half.toNat = low.toNat + 256 * high.toNat
  loadWord : ∀ offset destination position filled,
    ((Command.loadWord offset destination position).run store).1 = .destination filled ↔
      ∃ value, key?.bind chunks = some value ∧ offset + 8 ≤ value.size ∧
        position + 8 ≤ destination.size ∧
        filled = Flat.patched destination position ((value.toList.drop offset).take 8).toArray
  storeBytes : ∀ offset bytes, ((Command.storeBytes offset bytes).run store).1 = .done ↔
    ∃ value, key?.bind chunks = some value ∧ offset ≤ value.size
  /-- a write that succeeds changes the one chunk -/
  stored : ∀ offset bytes key value, key? = some key → chunks key = some value →
    offset ≤ value.size → ((Command.storeBytes offset bytes).run store).2.chunks.flatten =
      Function.update chunks key (some (Flat.patched value offset bytes))

theorem accesses_flat (store : Store) : store.Accesses store.flat.key? store.flat.chunks := by
  have hreply (command : Command) : (command.run store).1 = (Flat.run command store.flat).1 :=
    congrArg Prod.fst (seen_run command store)
  constructor
  case nothingLoaded =>
    intro command haccesses
    rw [hreply]
    exact Flat.nothingLoaded_iff haccesses
  case loadByte =>
    intro offset byte
    rw [hreply]
    exact Flat.loadByte_iff
  case loadHalf =>
    intro offset half
    rw [hreply]
    exact Flat.loadHalf_iff
  case loadWord =>
    intro offset destination position filled
    rw [hreply]
    exact Flat.loadWord_iff
  case storeBytes =>
    intro offset bytes
    rw [hreply]
    exact Flat.write_eq_done_iff
  case stored =>
    -- unlike the replies, this is about the store that is left
    intro offset bytes key value hkey hvalue hinside
    have hwrite := Flat.write_of_key hkey hvalue offset bytes
    rw [if_pos hinside] at hwrite
    have hleft : ((Command.storeBytes offset bytes).run store).2.flat =
        (store.flat.write offset bytes).2 :=
      congrArg Prod.snd (seen_run (.storeBytes offset bytes) store)
    rw [hwrite] at hleft
    exact congrArg Flat.chunks hleft

/-- From the empty store on, a store is the flat one: it gives the same replies, has the same chunk at
every key and in every checkpoint, and never keeps a root without a child.  Reads and writes act on
the value that the map has at the key selected last. -/
theorem refines_flat (commands : List Command) :
    let stored := runAll Command.run commands empty
    let flat := runAll Flat.run commands Flat.empty
    stored.1 = flat.1 ∧
    (∀ root child, stored.2.chunk? root child = flat.2.chunks (root, child)) ∧
    stored.2.checkpoints.map Chunks.flatten = flat.2.saved ∧
    (∀ chunks ∈ stored.2.chunks :: stored.2.checkpoints, chunks.Trimmed) ∧
    stored.2.Accesses (selectedKey? commands) flat.2.chunks := by
  intro stored flat
  have hview : (stored.1, stored.2.flat) = flat := runAll_view Store.flat seen_run commands empty
  obtain ⟨hreplies, hflat⟩ := Prod.mk.inj hview
  refine ⟨hreplies, ?_, ?_, ?_, ?_⟩
  · intro root child
    exact congrArg (fun flat => flat.chunks (root, child)) hflat
  · exact congrArg Flat.saved hflat
  · have hempty : empty.Trimmed := trimmed_iff.mpr ⟨Chunks.trimmed_empty, List.forall_mem_nil _⟩
    exact runAll_keeps (P := Trimmed) (fun command _ h => h.run command) commands hempty
  · rw [← Flat.key?_runAll]
    show stored.2.Accesses flat.2.key? flat.2.chunks
    rw [← hflat]
    exact accesses_flat stored.2

/-- A chunk is selected, removed together with its root, put back after a checkpoint and written past
its end. -/
def reinserting : List Command :=
  [.insertChunk ⟨1⟩ ⟨2⟩ #[5, 6], .selectRoot ⟨1⟩, .selectChild ⟨2⟩, .eraseChunk ⟨1⟩ ⟨2⟩,
    .loadByte 0, .save, .insertChunk ⟨1⟩ ⟨2⟩ #[7], .storeBytes 1 #[8, 9], .loadHalf 1]

theorem refines_flat_reinserting :
    let stored := runAll Command.run reinserting empty
    stored.1 = [.done, .done, .done, .erased (some #[5, 6]), .refused .nothingLoaded, .done, .done,
      .done, .half 2312] ∧
    stored.2.chunk? ⟨1⟩ ⟨2⟩ = some #[7, 8, 9] ∧
    stored.2.chunks.Trimmed ∧
    ((Command.loadByte 2).run stored.2).1 = .byte 9 ∧
    ((Command.storeBytes 4 #[]).run stored.2).1 ≠ .done ∧
    ((Command.storeBytes 4 #[]).run stored.2).1 ≠ .refused .nothingLoaded := by
  intro stored
  obtain ⟨hreplies, hchunk, -, htrimmed, haccesses⟩ := refines_flat reinserting
  have hvalue : (runAll Flat.run reinserting Flat.empty).2.chunks (⟨1⟩, ⟨2⟩) = some #[7, 8, 9] := by
    decide +kernel
  have hselected : (selectedKey? reinserting).bind (runAll Flat.run reinserting Flat.empty).2.chunks =
      some #[7, 8, 9] := hvalue
  refine ⟨?_, ?_, ?_, ?_, ?_, ?_⟩
  · rw [hreplies]
    decide +kernel
  · rw [hchunk, hvalue]
  · exact htrimmed _ List.mem_cons_self
  · exact (haccesses.loadByte 2 9).mpr ⟨_, hselected, by decide⟩
  · intro hdone
    obtain ⟨value, hsome, hinside⟩ := (haccesses.storeBytes 4 #[]).mp hdone
    rw [hselected] at hsome
    cases hsome
    exact absurd hinside (by decide)
  · intro hnothing
    have hnone := (haccesses.nothingLoaded (.storeBytes 4 #[]) rfl).mp hnothing
    rw [hselected] at hnone
    cases hnone

end Store

end LaneMachine
