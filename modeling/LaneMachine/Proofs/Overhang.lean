import LaneMachine.Proofs.FlatStore
import LaneMachine.Proofs.Immediates
set_option autoImplicit false

/-!
# Words that overhang a chunk

A word can be read where its eight bytes lie in the selected chunk.  Writing one should be the
counterpart: taken in the same places, and a change of those eight bytes only (`Store.StoresAsLoads`).
But words are written as any other bytes are, and a write may begin anywhere up to the end of the
chunk, which grows if the write reaches past it.  So the two fall apart exactly where a word begins in
the chunk, or right behind it, and overhangs its end (`Store.storesAsLoads_iff`).
-/

namespace LaneMachine

namespace Store

/-! ## A patched run of bytes -/

section

variable {value bytes : Bytes} {offset : Nat}

theorem toList_patched (value : Bytes) (offset : Nat) (bytes : Bytes) :
    (Flat.patched value offset bytes).toList =
      value.toList.take offset ++ bytes.toList ++ value.toList.drop (offset + bytes.size) :=
  rfl

theorem length_take_of_le (h : offset ≤ value.size) : (value.toList.take offset).length = offset := by
  rw [List.length_take, Array.length_toList, Nat.min_eq_left h]

/-- A patch that begins in the run makes it reach at least to the end of the patch. -/
theorem size_patched (h : offset ≤ value.size) :
    (Flat.patched value offset bytes).size = max value.size (offset + bytes.size) := by
  rw [← Array.length_toList, toList_patched, List.length_append, List.length_append,
    length_take_of_le h, List.length_drop, Array.length_toList, Array.length_toList]
  omega

/-- Bytes before and behind the patch stay. -/
theorem getElem?_patched {i : Nat} (h : offset ≤ value.size)
    (hi : i < offset ∨ offset + bytes.size ≤ i) :
    (Flat.patched value offset bytes)[i]? = value[i]? := by
  have htake := length_take_of_le h
  rw [← Array.getElem?_toList, ← Array.getElem?_toList, toList_patched]
  rcases hi with hbefore | hbehind
  · rw [List.append_assoc, List.getElem?_append_left (by omega), List.getElem?_take_of_lt hbefore]
  · have hlength : (value.toList.take offset ++ bytes.toList).length = offset + bytes.size := by
      rw [List.length_append, htake, Array.length_toList]
    rw [List.getElem?_append_right (by omega), hlength, List.getElem?_drop,
      Nat.add_sub_cancel' hbehind]

theorem size_bytesOfWord (word : UInt64) : (bytesOfWord word).toArray.size = 8 :=
  length_bytesOfWord word

/-- A word that was patched in is there. -/
theorem word?_patched (h : offset ≤ value.size) (word : UInt64) :
    Bytes.word? (Flat.patched value offset (bytesOfWord word).toArray) offset = some word := by
  have hword := Bytes.word?_at_length (value.toList.take offset) word
    (value.toList.drop (offset + (bytesOfWord word).toArray.size))
  rw [length_take_of_le h, ← List.append_assoc] at hword
  exact hword

theorem exists_word? (h : offset + 8 ≤ value.size) : ∃ word, Bytes.word? value offset = some word := by
  have hinside : offset + wordSize ≤ value.size := h
  refine ⟨wordOfBytes (value.extract offset (offset + wordSize)).toList, ?_⟩
  rw [Bytes.word?, Bytes.slice?, if_pos hinside, Option.map_some]

end

/-! ## Reading words -/

variable {store : Store} {offset : Nat} {word : UInt64}

/-- A word that is there is read into any destination with room for it. -/
theorem loadWordInto_of_word? {chunk destination : Bytes} {position : Nat}
    (hchunk : store.selected? = some chunk) (hword : Bytes.word? chunk offset = some word)
    (hroom : position + 8 ≤ destination.size) :
    ∃ filled after, loadWordInto offset destination position store = .ok filled after ∧
      Bytes.word? filled position = some word := by
  obtain ⟨part, hpart, hspelled⟩ := Option.map_eq_some_iff.mp hword
  have hfetch : store.fetch offset wordSize = .ok part :=
    (fetch_eq_ok_iff store offset wordSize part).mpr ⟨chunk, hchunk, hpart⟩
  have hsize : part.size = 8 := size_of_fetch hfetch
  have hbytes : part = (bytesOfWord word).toArray := by
    apply Array.toList_inj.mp
    rw [← hspelled, bytesOfWord_wordOfBytes hsize]
  have hfits : ¬ destination.size < position + wordSize := Nat.not_lt.mpr hroom
  refine ⟨Bytes.overwrite destination position part.toList,
    store.record (.loadedWord offset (wordOfBytes part.toList)), ?_, ?_⟩
  · rw [loadWordInto, hfetch]
    exact if_neg hfits
  · rw [overwrite_eq_patched (hsize ▸ hroom), hbytes]
    exact word?_patched (Nat.le_of_add_right_le hroom) word

/-- A word can be read exactly where its bytes lie in the selected chunk. -/
theorem loads_iff {destination : Bytes} {position : Nat} (hroom : position + 8 ≤ destination.size) :
    (∃ filled after, loadWordInto offset destination position store = .ok filled after) ↔
      ∃ chunk, store.selected? = some chunk ∧ offset + 8 ≤ chunk.size := by
  constructor
  · rintro ⟨filled, after, hload⟩
    cases hfetch : store.fetch offset wordSize with
    | error e =>
      rw [loadWordInto, hfetch] at hload
      cases hload
    | ok part =>
      obtain ⟨chunk, hchunk, hpart⟩ := (fetch_eq_ok_iff store offset wordSize part).mp hfetch
      refine ⟨chunk, hchunk, Nat.not_lt.mp fun hshort => ?_⟩
      rw [(Bytes.slice?_eq_none_iff chunk offset wordSize).mpr hshort] at hpart
      cases hpart
  · rintro ⟨chunk, hchunk, hinside⟩
    obtain ⟨word, hword⟩ := exists_word? hinside
    obtain ⟨filled, after, hload, -⟩ := loadWordInto_of_word? hchunk hword hroom
    exact ⟨filled, after, hload⟩

/-! ## Writing words -/

/-- The store has `word` at `offset` of its selected chunk, where `before` had other bytes or the end of
the chunk, and is as `before` otherwise. -/
structure HasWord (before : Store) (offset : Nat) (word : UInt64) (store : Store) : Prop where
  selection : store.root = before.root ∧ store.child = before.child
  readBack : ∀ destination position, position + 8 ≤ destination.size → ∃ filled after,
    loadWordInto offset destination position store = .ok filled after ∧
      Bytes.word? filled position = some word
  otherBytes : ∀ i, i < offset ∨ offset + 8 ≤ i →
    store.selected?.bind (·[i]?) = before.selected?.bind (·[i]?)
  otherChunks : ∀ root child, before.root ≠ some root ∨ before.child ≠ some child →
    store.chunk? root child = before.chunk? root child

theorem chunk?_insertChunk (store : Store) (root child r c : Identifier) (bytes : Bytes) :
    (store.insertChunk root child bytes).chunk? r c =
      if r = root ∧ c = child then some bytes else store.chunk? r c :=
  Chunks.get?_insert store.chunks root child r c bytes

section

variable {root child : Identifier} {chunk : Bytes}

theorem selected?_insertChunk (hroot : store.root = some root) (hchild : store.child = some child)
    (bytes : Bytes) : (store.insertChunk root child bytes).selected? = some bytes := by
  have hkey : (store.insertChunk root child bytes).selected? =
      (store.insertChunk root child bytes).chunk? root child := by
    rw [selected?, show (store.insertChunk root child bytes).root = some root from hroot,
      show (store.insertChunk root child bytes).child = some child from hchild]
  rw [hkey, chunk?_insertChunk, if_pos ⟨rfl, rfl⟩]

theorem hasWord_insertChunk (hroot : store.root = some root) (hchild : store.child = some child)
    (hselected : store.selected? = some chunk) (hinside : offset ≤ chunk.size) (word : UInt64) :
    store.HasWord offset word
      (store.insertChunk root child (Flat.patched chunk offset (bytesOfWord word).toArray)) := by
  have hwritten := selected?_insertChunk hroot hchild
    (Flat.patched chunk offset (bytesOfWord word).toArray)
  refine ⟨⟨rfl, rfl⟩, ?_, ?_, ?_⟩
  · intro destination position hroom
    exact loadWordInto_of_word? hwritten (word?_patched hinside word) hroom
  · intro i hi
    rw [hwritten, hselected]
    refine getElem?_patched hinside ?_
    rwa [size_bytesOfWord]
  · intro r c hother
    rw [chunk?_insertChunk, if_neg]
    rintro ⟨rfl, rfl⟩
    exact hother.elim (absurd hroot) (absurd hchild)

end

/-- A word is taken where it begins in the selected chunk or right behind it, and makes the chunk reach
to its own end; else it is refused, and no chunk changes. -/
theorem storeWord_cases (store : Store) (offset : Nat) (word : UInt64) :
    (∃ chunk written after, store.selected? = some chunk ∧ offset ≤ chunk.size ∧
      storeWord offset word store = .ok () after ∧ after.selected? = some written ∧
      written.size = max chunk.size (offset + 8) ∧ store.HasWord offset word after) ∨
    (∃ e after, (∀ chunk, store.selected? = some chunk → chunk.size < offset) ∧
      storeWord offset word store = .error e after ∧ after.chunks = store.chunks) := by
  cases hselected : store.selected? with
  | none =>
    right
    refine ⟨_, _, ?_, storeBytes_of_unselected offset _ hselected, rfl⟩
    intro chunk hchunk
    cases hchunk
  | some chunk =>
    obtain ⟨root, child, hroot, hchild, hchunk⟩ := exists_key_of_selected hselected
    have hstore := storeBytes_of_selected offset (bytesOfWord word).toArray hroot hchild hchunk
    by_cases hinside : offset ≤ chunk.size
    · rw [if_pos hinside] at hstore
      left
      refine ⟨chunk, Flat.patched chunk offset (bytesOfWord word).toArray, _, rfl, hinside, hstore,
        selected?_insertChunk hroot hchild _, ?_, ?_⟩
      · rw [size_patched hinside, size_bytesOfWord]
      · -- the log that the write leaves is out of sight here
        have hrecorded : (store.record (.stored offset (bytesOfWord word).toArray)).root =
            some root := hroot
        have hlogged := hasWord_insertChunk hrecorded hchild hselected hinside word
        exact ⟨hlogged.selection, hlogged.readBack, hlogged.otherBytes, hlogged.otherChunks⟩
    · rw [if_neg hinside] at hstore
      right
      refine ⟨_, _, ?_, hstore, rfl⟩
      intro found hfound
      cases hfound
      exact Nat.not_le.mp hinside

/-! ## Where writing is the counterpart of reading -/

/-- Writing a word at `offset` is the counterpart of reading one there. -/
structure StoresAsLoads (store : Store) (offset : Nat) (word : UInt64) : Prop where
  taken_iff_read : ∀ destination position, position + 8 ≤ destination.size →
    ((∃ after, storeWord offset word store = .ok () after) ↔
      ∃ filled after, loadWordInto offset destination position store = .ok filled after)
  taken_iff_inside : (∃ after, storeWord offset word store = .ok () after) ↔
    ∃ chunk, store.selected? = some chunk ∧ offset + 8 ≤ chunk.size
  taken : ∀ after, storeWord offset word store = .ok () after →
    after.selected?.map Array.size = store.selected?.map Array.size ∧
      store.HasWord offset word after
  refused : ∀ e after, storeWord offset word store = .error e after → after.chunks = store.chunks

/-- A word that is taken and lies in the selected chunk. -/
theorem storesAsLoads_of_inside {chunk written : Bytes} {after : Store}
    (hchunk : store.selected? = some chunk) (hinside : offset + 8 ≤ chunk.size)
    (hstore : storeWord offset word store = .ok () after) (hwritten : after.selected? = some written)
    (hsize : written.size = max chunk.size (offset + 8)) (hword : store.HasWord offset word after) :
    store.StoresAsLoads offset word := by
  refine ⟨?_, ?_, ?_, ?_⟩
  · intro destination position hroom
    exact iff_of_true ⟨after, hstore⟩ ((loads_iff hroom).mpr ⟨chunk, hchunk, hinside⟩)
  · exact iff_of_true ⟨after, hstore⟩ ⟨chunk, hchunk, hinside⟩
  · intro found hfound
    rw [hstore] at hfound
    cases hfound
    refine ⟨?_, hword⟩
    rw [hwritten, hchunk, Option.map_some, Option.map_some, hsize, Nat.max_eq_left hinside]
  · intro e found hfound
    rw [hstore] at hfound
    cases hfound

/-- A word that is refused and begins behind the selected chunk, if there is one. -/
theorem storesAsLoads_of_behind {e : Error} {after : Store}
    (hbehind : ∀ chunk, store.selected? = some chunk → chunk.size < offset)
    (hstore : storeWord offset word store = .error e after) (hchunks : after.chunks = store.chunks) :
    store.StoresAsLoads offset word := by
  have houtside : ¬ ∃ chunk, store.selected? = some chunk ∧ offset + 8 ≤ chunk.size := by
    rintro ⟨chunk, hchunk, hinside⟩
    have hlt := hbehind chunk hchunk
    omega
  have hrefused : ¬ ∃ after, storeWord offset word store = .ok () after := by
    rw [hstore]
    rintro ⟨found, hfound⟩
    cases hfound
  refine ⟨?_, iff_of_false hrefused houtside, fun found hfound => ?_, ?_⟩
  · intro destination position hroom
    exact iff_of_false hrefused (mt (loads_iff hroom).mp houtside)
  · exact absurd ⟨found, hfound⟩ hrefused
  · intro e' found hfound
    rw [hstore] at hfound
    cases hfound
    exact hchunks

/-- Writing a word is the counterpart of reading one exactly where no word overhangs the selected
chunk: one that begins in it, or right behind it, ends in it. -/
theorem storesAsLoads_iff (store : Store) (offset : Nat) (word : UInt64) :
    store.StoresAsLoads offset word ↔
      ∀ chunk, store.selected? = some chunk → offset ≤ chunk.size → offset + 8 ≤ chunk.size := by
  constructor
  · intro hcounterpart chunk hchunk hbegins
    obtain ⟨-, -, after, -, -, hstore, -⟩ | ⟨-, -, hbehind, -⟩ := storeWord_cases store offset word
    · obtain ⟨found, hfound, hinside⟩ := hcounterpart.taken_iff_inside.mp ⟨after, hstore⟩
      rw [hchunk, Option.some.injEq] at hfound
      rwa [hfound]
    · exact absurd hbegins (Nat.not_le.mpr (hbehind chunk hchunk))
  · intro hends
    obtain ⟨chunk, written, after, hchunk, hbegins, hstore, hwritten, hsize, hword⟩ |
      ⟨e, after, hbehind, hstore, hchunks⟩ := storeWord_cases store offset word
    · exact storesAsLoads_of_inside hchunk (hends chunk hchunk hbegins) hstore hwritten hsize hword
    · exact storesAsLoads_of_behind hbehind hstore hchunks

/-- A store with a chunk of four bytes, which is selected. -/
def shortChunk : Store :=
  ((empty.insertChunk ⟨1⟩ ⟨2⟩ #[0xaa, 0xbb, 0xcc, 0xdd]).selectRoot ⟨1⟩).selectChild ⟨2⟩

/-- Four bytes take a word that could not be read there, and grow. -/
theorem not_storesAsLoads_shortChunk :
    ¬ shortChunk.StoresAsLoads 0 1 ∧
    ((Command.loadWord 0 #[0, 0, 0, 0, 0, 0, 0, 0] 0).run shortChunk).1 =
      .refused (.outOfBounds 0 8 4) ∧
    ((Command.storeWord 0 1).run shortChunk).1 = .done ∧
    ((Command.storeWord 0 1).run shortChunk).2.chunk? ⟨1⟩ ⟨2⟩ = some #[1, 0, 0, 0, 0, 0, 0, 0] := by
  refine ⟨?_, by decide +kernel, by decide +kernel, by decide +kernel⟩
  intro hcounterpart
  have htaken : ∃ after, storeWord 0 1 shortChunk = .ok () after := ⟨_, rfl⟩
  obtain ⟨chunk, hchunk, hinside⟩ := hcounterpart.taken_iff_inside.mp htaken
  have hshort : shortChunk.selected? = some #[0xaa, 0xbb, 0xcc, 0xdd] := by decide +kernel
  rw [hshort] at hchunk
  cases hchunk
  exact absurd hinside (by decide)

end Store

end LaneMachine
