import LaneMachine.Proofs.Selection
import LaneMachine.Proofs.Work
set_option autoImplicit false

/-!
# Steps through known code

Other modules look at a step that was taken and ask what it did.  Here the code and the operands are
known, and the step is worked out: what `Frame.Works` says of an instruction that completes is also
enough for it to complete (`Machine.step_of_works`).
-/

namespace LaneMachine

section

variable {ε σ α β : Type} {program : EStateM ε σ α} {next : α → EStateM ε σ β} {before middle : σ}

theorem bind_of_ok {a : α} (h : program before = .ok a middle) :
    (program >>= next) before = next a middle := by
  simp only [bind, EStateM.bind, h]

theorem bind_of_error {e : ε} (h : program before = .error e middle) :
    (program >>= next) before = .error e middle := by
  simp only [bind, EStateM.bind, h]

end

/-! ## Buffers -/

namespace Buffer

variable {buffer : Buffer}

theorem size_of_toList {bytes : List UInt8} (h : buffer.contents.toList = bytes) :
    buffer.size = bytes.length := by
  rw [size, ← Array.length_toList, h]

theorem push_of_room (word : UInt64) (h : buffer.size + wordSize ≤ buffer.ceiling) :
    push word buffer = .ok () (buffer.append (bytesOfWord word).toArray) := by
  have hlength : (bytesOfWord word).toArray.size = wordSize := length_bytesOfWord word
  apply pushBytes_of_le
  rw [hlength]
  exact h

theorem push_of_full (word : UInt64) (h : buffer.ceiling < buffer.size + wordSize) :
    push word buffer = .error (.limitExceeded (buffer.size + wordSize) buffer.ceiling) buffer := by
  have hlength : (bytesOfWord word).toArray.size = wordSize := length_bytesOfWord word
  refine (pushBytes_eq_error_iff _ buffer buffer _).mpr ?_
  rw [hlength]
  exact ⟨h, rfl, rfl⟩

theorem drop_of_append {below last : List UInt8} (h : buffer.contents.toList = below ++ last)
    (hlast : last.length = wordSize) :
    ∃ after, drop buffer = .ok () after ∧ after.contents.toList = below := by
  have hlength : buffer.size - wordSize = below.length := by
    rw [size_of_toList h, List.length_append, hlast, Nat.add_sub_cancel]
  refine ⟨{ buffer with contents := buffer.contents.shrink (buffer.size - wordSize) }, rfl, ?_⟩
  rw [Array.toList_shrink, h, hlength, List.take_left]

theorem write_of_append (word : UInt64) {below old last : List UInt8}
    (h : buffer.contents.toList = below ++ (old ++ last)) (hold : old.length = wordSize) :
    ∃ after, write below.length word buffer = .ok () after ∧
      after.contents.toList = below ++ bytesOfWord word ++ last := by
  have hword : (bytesOfWord word).length = wordSize := length_bytesOfWord word
  have hinside : below.length + wordSize ≤ buffer.size := by
    rw [size_of_toList h, List.length_append, List.length_append, hold]
    omega
  have hlist := Bytes.overwrite_toList buffer.contents below.length (bytesOfWord word) (by
    rw [hword]
    exact hinside)
  refine ⟨{ buffer with contents := Bytes.overwrite buffer.contents below.length (bytesOfWord word) },
    ?_, ?_⟩
  · rw [write, if_neg (Nat.not_lt.mpr hinside)]
  · rw [hlist, h, hword, List.take_left, ← List.drop_drop, List.drop_left, List.drop_left' hold]

theorem peekTwo_of_words {below : List UInt8} {x y : UInt64}
    (h : buffer.contents.toList = below ++ (bytesOfWord x ++ bytesOfWord y)) :
    peekTwo buffer = .ok (y, x) buffer := by
  have hx : (bytesOfWord x).length = wordSize := length_bytesOfWord x
  have hsize : buffer.size = below.length + 2 * wordSize := by
    rw [size_of_toList h, List.length_append, List.length_append, hx, length_bytesOfWord]
    rfl
  have hboth : 2 * wordSize ≤ buffer.size := hsize ▸ Nat.le_add_left _ _
  have hbytes : (Bytes.suffix buffer.contents (2 * wordSize)).toList =
      bytesOfWord x ++ bytesOfWord y := by
    rw [Bytes.toList_suffix, ← size, hsize, Nat.add_sub_cancel, h, List.drop_left]
  rw [peekTwo, bind_of_ok (top_of_le hboth), hbytes, List.drop_left' hx, List.take_left' hx,
    wordOfBytes_bytesOfWord, wordOfBytes_bytesOfWord]
  rfl

/-- The two words on top are replaced by one. -/
theorem combineTwo_of_words {below : List UInt8} {x y : UInt64}
    (h : buffer.contents.toList = below ++ (bytesOfWord x ++ bytesOfWord y))
    (combine : UInt64 → UInt64 → UInt64) :
    ∃ after, combineTwo combine buffer = .ok () after ∧
      after.contents.toList = below ++ bytesOfWord (combine x y) := by
  have hstart : buffer.size - 2 * wordSize = below.length := by
    rw [size_of_toList h, List.length_append, List.length_append, length_bytesOfWord,
      length_bytesOfWord]
    exact Nat.add_sub_cancel _ _
  obtain ⟨written, hwrite, hbytes⟩ := write_of_append (combine x y) h (length_bytesOfWord x)
  obtain ⟨after, hdrop, hlast⟩ := drop_of_append hbytes (length_bytesOfWord y)
  refine ⟨after, ?_, hlast⟩
  rw [← hstart] at hwrite
  rw [combineTwo, bind_of_ok (peekTwo_of_words h)]
  exact (bind_of_ok hwrite).trans hdrop

theorem pop_of_append {below : List UInt8} {word : UInt64}
    (h : buffer.contents.toList = below ++ bytesOfWord word) :
    ∃ after, pop buffer = .ok word after ∧ after.contents.toList = below := by
  have hsize : buffer.size = below.length + wordSize := by
    rw [size_of_toList h, List.length_append, length_bytesOfWord]
    rfl
  have hbytes : (Bytes.suffix buffer.contents wordSize).toList = bytesOfWord word := by
    rw [Bytes.toList_suffix, ← size, hsize, Nat.add_sub_cancel, h, List.drop_left]
  have hpeek : peek buffer = .ok word buffer := by
    rw [peek, bind_of_ok (top_of_le (hsize ▸ Nat.le_add_left _ _)), hbytes, wordOfBytes_bytesOfWord]
    rfl
  obtain ⟨after, hdrop, hlast⟩ := drop_of_append h (length_bytesOfWord word)
  exact ⟨after, pop_eq_ok_of_peek hpeek hdrop, hlast⟩

/-- A word that can be popped can be looked at first and dropped later. -/
theorem peek_drop_of_pop {after : Buffer} {word : UInt64} (h : pop buffer = .ok word after) :
    peek buffer = .ok word buffer ∧ drop buffer = .ok () after := by
  obtain ⟨found, middle, hpeek, hrest⟩ := exists_of_bind_eq_ok h
  obtain ⟨bytes, same, htop, hfound⟩ := exists_of_bind_eq_ok hpeek
  obtain ⟨rfl, -⟩ := top_eq_ok htop
  cases hfound
  obtain ⟨_, last, hdrop, hpure⟩ := exists_of_bind_eq_ok hrest
  cases hpure
  exact ⟨hpeek, hdrop⟩

end Buffer

/-! ## Stores and frames -/

theorem Bytes.getElem?_at_length (before : List UInt8) (byte : UInt8) (after : List UInt8) :
    (before ++ byte :: after).toArray[before.length]? = some byte := by
  simp

theorem Bytes.word?_at_length (before : List UInt8) (word : UInt64) (after : List UInt8) :
    Bytes.word? (before ++ (bytesOfWord word ++ after)).toArray before.length = some word := by
  have hlength : (bytesOfWord word).length = wordSize := length_bytesOfWord word
  have hinside : before.length + wordSize ≤
      (before ++ (bytesOfWord word ++ after)).toArray.size := by
    rw [List.size_toArray, List.length_append, List.length_append, hlength]
    omega
  rw [word?, slice?, if_pos hinside, Option.map_some, List.extract_toArray, List.toList_toArray,
    List.extract_eq_take_drop, Nat.add_sub_cancel_left, List.drop_left, List.take_left' hlength,
    wordOfBytes_bytesOfWord]

/-- An immediate word stands right behind its opcode. -/
theorem Bytes.word?_behind (before : List UInt8) (byte : UInt8) (word : UInt64) (after : List UInt8) :
    Bytes.word? (before ++ byte :: (bytesOfWord word ++ after)).toArray (before.length + 1) =
      some word := by
  have hword := Bytes.word?_at_length (before ++ [byte]) word after
  rw [List.append_assoc, List.length_append] at hword
  exact hword

namespace Buffer

variable {buffer : Buffer} {offset : Nat}

theorem read_of_word? {word : UInt64} (h : Bytes.word? buffer.contents offset = some word) :
    read offset buffer = .ok word buffer := by
  simp only [read, h]

end Buffer

namespace Store

theorem loadHalf_of_half? {store : Store} {offset : Nat} {value : UInt16}
    (h : store.selected?.bind (Bytes.half? · offset) = some value) :
    ∃ after, loadHalf offset store = .ok value after ∧ store.Agrees after := by
  obtain ⟨bytes, hselected, hhalf⟩ := Option.bind_eq_some_iff.mp h
  obtain ⟨part, hslice, rfl⟩ := Option.map_eq_some_iff.mp hhalf
  have hfetch := (fetch_eq_ok_iff store offset 2 part).mpr ⟨bytes, hselected, hslice⟩
  refine ⟨store.record (.loadedHalf offset (halfOfBytes part.toList)), ?_, agrees_record store _⟩
  simp only [loadHalf, hfetch]

theorem loadWord_of_word? {store : Store} {offset : Nat} {value : UInt64}
    (h : store.selected?.bind (Bytes.word? · offset) = some value) :
    ∃ after, loadWord offset store = .ok value after ∧ store.Agrees after := by
  obtain ⟨bytes, hselected, hword⟩ := Option.bind_eq_some_iff.mp h
  obtain ⟨part, hslice, rfl⟩ := Option.map_eq_some_iff.mp hword
  have hfetch := (fetch_eq_ok_iff store offset wordSize part).mpr ⟨bytes, hselected, hslice⟩
  refine ⟨store.record (.loadedWord offset (wordOfBytes part.toList)), ?_, agrees_record store _⟩
  simp only [loadWord, hfetch]

end Store

namespace Frame

variable {α : Type} (frame : Frame) {a : α}

theorem onStack_of_ok {op : Buffer.Op α} {stack : Buffer} (h : op frame.stack = .ok a stack) :
    onStack op frame = .ok a { frame with stack } := by
  simp only [onStack, h]

theorem onLocals_of_ok {op : Buffer.Op α} {locals : Buffer} (h : op frame.locals = .ok a locals) :
    onLocals op frame = .ok a { frame with locals } := by
  simp only [onLocals, h]

variable {frame} in
theorem jump_of_target {distance : Int} {target : Nat} (htarget : (target : Int) = frame.pc + distance)
    (hword : target < UInt64.size) : jump distance frame = .ok () { frame with pc := target } := by
  have hinside : 0 ≤ (target : Int) ∧ (target : Int) < UInt64.size :=
    ⟨Int.natCast_nonneg target, Int.ofNat_lt.mpr hword⟩
  simp only [jump, ← htarget, if_pos hinside, Int.toNat_natCast]

end Frame

namespace Machine

variable {H α : Type} {m : Machine H}

/-! ## Parts of an instruction -/

section

variable (top : Frame) {rest : Lane} (hlane : m.lane = top :: rest)

include hlane

theorem onTop_of_ok {op : Frame.Op α} {a : α} {frame : Frame} (h : op top = .ok a frame) :
    onTop op m = .ok a { m with lane := frame :: rest } := by
  simp only [onTop, hlane, h]

theorem onStack_of_ok {op : Buffer.Op α} {a : α} {stack : Buffer} (h : op top.stack = .ok a stack) :
    onStack op m = .ok a { m with lane := { top with stack } :: rest } :=
  onTop_of_ok top hlane (Frame.onStack_of_ok top h)

theorem onStack_of_error {op : Buffer.Op α} {error : Buffer.Error} {stack : Buffer}
    (h : op top.stack = .error error stack) :
    onStack op m = .error (.buffer error) { m with lane := { top with stack } :: rest } := by
  simp only [onStack, onTop, hlane, Frame.onStack, h]

/-- Looking at the stack leaves the machine as it is. -/
theorem onStack_of_look {op : Buffer.Op α} {a : α} (h : op top.stack = .ok a top.stack) :
    onStack op m = .ok a m := by
  rw [onStack_of_ok top hlane h]
  congr 1
  rw [← hlane]

theorem immediate_of_ok {load : Nat → Store.Op α} {width : Nat} {value : α} {methods : Store}
    (h : load top.pc m.methods = .ok value methods) :
    (do
      let value ← onMethods (load (← counter))
      onTop (Frame.skip width)
      return value : Exec H α) m =
      .ok value { m with lane := { top with pc := top.pc + width } :: rest, methods } := by
  simp only [bind, EStateM.bind, counter, hlane, onMethods, h, onTop, Frame.skip, pure, EStateM.pure]

theorem immediateHalf_of_half? {value : UInt16}
    (h : m.methods.selected?.bind (Bytes.half? · top.pc) = some value) :
    ∃ methods, m.methods.Agrees methods ∧ immediateHalf m =
      .ok value { m with lane := { top with pc := top.pc + 2 } :: rest, methods } := by
  obtain ⟨methods, hload, hmethods⟩ := Store.loadHalf_of_half? h
  exact ⟨methods, hmethods, immediate_of_ok top hlane hload⟩

theorem immediateWord_of_word? {value : UInt64}
    (h : m.methods.selected?.bind (Bytes.word? · top.pc) = some value) :
    ∃ methods, m.methods.Agrees methods ∧ immediateWord m =
      .ok value { m with lane := { top with pc := top.pc + wordSize } :: rest, methods } := by
  obtain ⟨methods, hload, hmethods⟩ := Store.loadWord_of_word? h
  exact ⟨methods, hmethods, immediate_of_ok top hlane hload⟩

end

theorem onArguments_of_ok (m : Machine H) {op : Buffer.Op α} {a : α} {arguments : Buffer}
    (h : op m.arguments = .ok a arguments) : onArguments op m = .ok a { m with arguments } := by
  simp only [onArguments, h]

/-! ## Instructions -/

variable [Heap H] {top : Frame} {rest : Lane}

/-- What `Works` says of an instruction is enough for it to complete. -/
theorem execute_of_works (hlane : m.lane = top :: rest) {opcode : Opcode} {frame : Frame}
    {arguments : Buffer}
    (h : top.Works m.methods.selected? m.arguments opcode frame arguments) :
    ∃ methods, m.methods.Agrees methods ∧
      execute opcode m = .ok () { m with lane := frame :: rest, arguments, methods } := by
  cases h with
  | noOp =>
    refine ⟨m.methods, .refl _, ?_⟩
    rw [← hlane]
    rfl
  | pushC64 hword hpush =>
    obtain ⟨methods, hmethods, hread⟩ := immediateWord_of_word? top hlane hword
    refine ⟨methods, hmethods, ?_⟩
    rw [execute, pushImmediate, bind_of_ok hread]
    exact onStack_of_ok { top with pc := top.pc + wordSize } rfl hpush
  | pop hpop =>
    refine ⟨m.methods, .refl _, ?_⟩
    rw [execute, bind_of_ok (onStack_of_ok top hlane hpop)]
    rfl
  | iAdd hadd => exact ⟨m.methods, .refl _, onStack_of_ok top hlane hadd⟩
  | iSub hsub => exact ⟨m.methods, .refl _, onStack_of_ok top hlane hsub⟩
  | argC16 hoffset hpop hplace =>
    obtain ⟨methods, hmethods, hread⟩ := immediateHalf_of_half? top hlane hoffset
    obtain ⟨hpeek, hdrop⟩ := Buffer.peek_drop_of_pop hpop
    refine ⟨methods, hmethods, ?_⟩
    rw [execute, passArgument, bind_of_ok hread,
      bind_of_ok (onStack_of_look { top with pc := top.pc + 2 } rfl hpeek)]
    refine (bind_of_ok (onArguments_of_ok { m with
      lane := { top with pc := top.pc + 2 } :: rest, methods } hplace)).trans ?_
    exact onStack_of_ok { top with pc := top.pc + 2 } rfl hdrop
  | lfLoadC16 hoffset hread hpush =>
    obtain ⟨methods, hmethods, hhalf⟩ := immediateHalf_of_half? top hlane hoffset
    refine ⟨methods, hmethods, ?_⟩
    rw [execute, loadLocal, bind_of_ok hhalf]
    apply onTop_of_ok { top with pc := top.pc + 2 } rfl
    refine (bind_of_ok (Frame.onLocals_of_ok { top with pc := top.pc + 2 } hread)).trans ?_
    exact Frame.onStack_of_ok { top with pc := top.pc + 2 } hpush
  | lfStoreC16 hoffset hpop hplace =>
    obtain ⟨methods, hmethods, hhalf⟩ := immediateHalf_of_half? top hlane hoffset
    obtain ⟨hpeek, hdrop⟩ := Buffer.peek_drop_of_pop hpop
    refine ⟨methods, hmethods, ?_⟩
    rw [execute, storeLocal, bind_of_ok hhalf]
    apply onTop_of_ok { top with pc := top.pc + 2 } rfl
    refine (bind_of_ok (Frame.onStack_of_ok { top with pc := top.pc + 2 } hpeek)).trans ?_
    refine (bind_of_ok (Frame.onLocals_of_ok { top with pc := top.pc + 2 } hplace)).trans ?_
    exact Frame.onStack_of_ok _ hdrop
  | jumps hpeek hoffset htarget hword =>
    obtain ⟨methods, hmethods, hhalf⟩ := immediateHalf_of_half? top hlane hoffset
    refine ⟨methods, hmethods, ?_⟩
    rw [execute, jumpIfEqual, bind_of_ok (onStack_of_look top hlane hpeek)]
    dsimp only
    rw [if_pos rfl, bind_of_ok hhalf]
    apply onTop_of_ok { top with pc := top.pc + 2 } rfl
    exact Frame.jump_of_target htarget hword
  | passes hpeek hne =>
    refine ⟨m.methods, .refl _, ?_⟩
    rw [execute, jumpIfEqual, bind_of_ok (onStack_of_look top hlane hpeek)]
    dsimp only
    rw [if_neg hne]
    exact onTop_of_ok top hlane rfl

omit [Heap H] in
/-- The opcode of the next step, read off the code that is selected. -/
theorem opcode?_of_byte (hlane : m.lane = top :: rest) {opcode : Opcode}
    (hbyte : m.methods.selected?.bind (·[top.pc]?) = some opcode.byte) :
    m.opcode? = some opcode := by
  rw [opcode?, byte?_eq hlane, hbyte, Option.bind_some, Opcode.ofByte?_byte]

theorem step_of_execute {worked after : Machine H} {opcode : Opcode}
    (hrun : instruction m = (do execute opcode; return false : Exec H Bool) worked)
    (hexecute : execute opcode worked = .ok () after) : m.step.2 = after := by
  have hok : instruction m = .ok false after := hrun.trans (bind_of_ok hexecute)
  simp only [step, hok]

/-- A step whose instruction has what it needs does what `Works` says, reports itself, and changes
nothing else. -/
theorem step_of_works (hlane : m.lane = top :: rest) {opcode : Opcode}
    (hopcode : m.opcode? = some opcode) {frame : Frame} {arguments : Buffer}
    (h : { top with pc := top.pc + 1 }.Works m.methods.selected? m.arguments opcode frame arguments) :
    ∃ methods, m.methods.Agrees methods ∧
      m.step.2 =
        { m with
          lane := frame :: rest
          arguments
          methods
          trace := .execute opcode top.pc m.depth :: m.trace } := by
  obtain ⟨top', rest', read, hlane', hread, hrun⟩ := exists_announced hopcode
  obtain ⟨rfl, rfl⟩ := List.cons.inj (hlane.symm.trans hlane')
  rw [← hread.selected?_eq] at h
  obtain ⟨methods, hmethods, hexecute⟩ :=
    execute_of_works (m := m.announced top rest opcode read) rfl h
  exact ⟨methods, hread.trans hmethods, step_of_execute hrun hexecute⟩

omit [Heap H] in
theorem pushImmediate_of_full (hlane : m.lane = top :: rest) {word : UInt64}
    (hword : m.methods.selected?.bind (Bytes.word? · top.pc) = some word)
    (hfull : top.stack.ceiling < top.stack.size + wordSize) :
    ∃ left, pushImmediate m =
      .error (.buffer (.limitExceeded (top.stack.size + wordSize) top.stack.ceiling)) left := by
  obtain ⟨methods, -, hread⟩ := immediateWord_of_word? top hlane hword
  refine ⟨{ m with lane := { top with pc := top.pc + wordSize } :: rest, methods }, ?_⟩
  rw [pushImmediate, bind_of_ok hread]
  exact onStack_of_error { top with pc := top.pc + wordSize } rfl (Buffer.push_of_full word hfull)

/-- A constant that does not fit on the stack. -/
theorem fault?_of_push_full (hlane : m.lane = top :: rest) (hopcode : m.opcode? = some .pushC64)
    {word : UInt64} (hword : m.methods.selected?.bind (Bytes.word? · (top.pc + 1)) = some word)
    (hfull : top.stack.ceiling < top.stack.size + wordSize) :
    m.fault? =
      some (.buffer (.limitExceeded (top.stack.size + wordSize) top.stack.ceiling)) := by
  obtain ⟨top', rest', worked, hworked, hrun⟩ := exists_decoded hopcode
  obtain ⟨rfl, rfl⟩ := List.cons.inj (hlane.symm.trans hworked.before)
  rw [← hworked.methods.selected?_eq] at hword
  obtain ⟨left, hpush⟩ := pushImmediate_of_full hworked.lane hword hfull
  exact (m.fault?_eq_some_iff _).mpr ⟨left, hrun.trans (bind_of_error hpush)⟩

/-- A return whose bytes can be handed over is an unwind of the running frame. -/
theorem step_of_ret (hlane : m.lane = top :: rest) {opcode : Opcode} {count : Nat}
    (hopcode : m.opcode? = some opcode) (hrole : opcode.role = .ret count)
    (hfits : deliveryFault? [{ top with pc := top.pc + 1 }] rest count = none) :
    ∃ worked, m.Decoded top rest worked ∧
      m.step.2 = worked.unwound [{ top with pc := top.pc + 1 }] rest count .noError := by
  obtain ⟨top', rest', worked, hworked, hrun⟩ := exists_decoded hopcode
  obtain ⟨rfl, rfl⟩ := List.cons.inj (hlane.symm.trans hworked.before)
  have hexecute : execute opcode worked =
      .ok () (worked.unwound [{ top with pc := top.pc + 1 }] rest count .noError) := by
    have hreturn : execute opcode worked = returnBytes count .noError worked := by
      cases opcode <;> cases hrole <;> rfl
    rw [hreturn, returnBytes_eq hworked.lane, unwind, hfits]
  exact ⟨worked, hworked, step_of_execute hrun hexecute⟩

/-- An internal call pops its method and stays in the application and the context. -/
theorem execute_invokeInternal (hlane : m.lane = top :: rest) {word : UInt64} {stack : Buffer}
    (hpop : Buffer.pop top.stack = .ok word stack) :
    execute .invokeInternal m =
      call top.context top.app ⟨word⟩ { m with lane := { top with stack } :: rest } := by
  have hmethod : popIdentifier m = .ok ⟨word⟩ { m with lane := { top with stack } :: rest } :=
    bind_of_ok (onStack_of_ok top hlane hpop)
  rw [execute, invokeInternal, bind_of_ok hmethod]
  rfl

/-- An internal call, while the lane is not full. -/
theorem step_of_invokeInternal (hlane : m.lane = top :: rest)
    (hopcode : m.opcode? = some .invokeInternal) {word : UInt64} {stack : Buffer}
    (hpop : Buffer.pop top.stack = .ok word stack)
    (hroom : m.depth < m.limits.maxCallStackDepth.toNat) :
    ∃ worked, m.Decoded top rest worked ∧
      m.step.2 = { worked with lane := { top with pc := top.pc + 1, stack } :: rest }.called
        top.context top.app ⟨word⟩ := by
  obtain ⟨top', rest', worked, hworked, hrun⟩ := exists_decoded hopcode
  obtain ⟨rfl, rfl⟩ := List.cons.inj (hlane.symm.trans hworked.before)
  refine ⟨worked, hworked, step_of_execute hrun ?_⟩
  rw [depth, hlane, ← hworked.limits] at hroom
  rw [execute_invokeInternal hworked.lane hpop]
  exact if_neg (Nat.not_le.mpr hroom)

end Machine

end LaneMachine
