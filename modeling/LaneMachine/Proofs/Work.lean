import LaneMachine.Proofs.Instruction
set_option autoImplicit false

/-!
# Instructions that stay in their frame

Half of the opcodes neither call nor return: they read an immediate, move words between the
operand stack, the local frame and the arguments of the next call, and move the counter.
`Works` says exactly what each of them does, in terms of the buffer programs it runs and of
the code that stands behind its opcode.

`exists_works` gives the machine after such a step as an equation: apart from the running
frame, the arguments, the access log and the report of the step, nothing has changed.
-/

namespace LaneMachine

/-! ## What reads and peeks leave alone -/

namespace Store

theorem Agrees.selected?_eq {a b : Store} (h : a.Agrees b) : b.selected? = a.selected? := by
  simp only [selected?, chunk?, h.chunks, h.root, h.child]

theorem loadHalf_eq_ok {store after : Store} {offset : Nat} {value : UInt16}
    (h : loadHalf offset store = .ok value after) :
    store.selected?.bind (Bytes.half? · offset) = some value := by
  unfold loadHalf at h
  split at h
  · cases h
  · rename_i part hfetch
    obtain ⟨bytes, hselected, hslice⟩ := (fetch_eq_ok_iff store offset 2 part).mp hfetch
    cases h
    rw [hselected, Option.bind_some, Bytes.half?, hslice, Option.map_some]

theorem loadWord_eq_ok {store after : Store} {offset : Nat} {value : UInt64}
    (h : loadWord offset store = .ok value after) :
    store.selected?.bind (Bytes.word? · offset) = some value := by
  unfold loadWord at h
  split at h
  · cases h
  · rename_i part hfetch
    obtain ⟨bytes, hselected, hslice⟩ := (fetch_eq_ok_iff store offset wordSize part).mp hfetch
    cases h
    rw [hselected, Option.bind_some, Bytes.word?, hslice, Option.map_some]

end Store

namespace Buffer

theorem top_eq_ok {buffer after : Buffer} {count : Nat} {bytes : Bytes}
    (h : top count buffer = .ok bytes after) :
    after = buffer ∧ bytes = Bytes.suffix buffer.contents count := by
  unfold top at h
  split at h
  · cases h
  · cases h
    exact ⟨rfl, rfl⟩

theorem peekTwo_eq_ok {buffer after : Buffer} {words : UInt64 × UInt64}
    (h : peekTwo buffer = .ok words after) : after = buffer := by
  obtain ⟨bytes, middle, htop, hwords⟩ := exists_of_bind_eq_ok h
  cases hwords
  exact (top_eq_ok htop).1

theorem read_eq_ok {buffer after : Buffer} {offset : Nat} {word : UInt64}
    (h : read offset buffer = .ok word after) : after = buffer := by
  unfold read at h
  split at h
  · cases h
  · cases h
    rfl

/-- A word that is looked at first and dropped later is popped. -/
theorem pop_eq_ok_of_peek {buffer same after : Buffer} {word : UInt64}
    (hpeek : peek buffer = .ok word same) (hdrop : drop same = .ok () after) :
    pop buffer = .ok word after := by
  simp only [pop, bind, EStateM.bind, hpeek, hdrop, pure, EStateM.pure]

/-- Overwrites the word at `offset`; the buffer grows to hold it, and new bytes are zero. -/
def place (offset : Nat) (word : UInt64) : Op Unit := do
  ensure (offset + wordSize)
  write offset word

end Buffer

namespace Frame

variable {α : Type} {frame after : Frame} {a : α}

theorem onStack_eq_ok {op : Buffer.Op α} (h : onStack op frame = .ok a after) :
    ∃ stack, op frame.stack = .ok a stack ∧ after = { frame with stack } := by
  unfold onStack at h
  split at h
  · rename_i value stack hop
    cases h
    exact ⟨stack, hop, rfl⟩
  · cases h

theorem onLocals_eq_ok {op : Buffer.Op α} (h : onLocals op frame = .ok a after) :
    ∃ locals, op frame.locals = .ok a locals ∧ after = { frame with locals } := by
  unfold onLocals at h
  split at h
  · rename_i value locals hop
    cases h
    exact ⟨locals, hop, rfl⟩
  · cases h

theorem jump_eq_ok {distance : Int} (h : jump distance frame = .ok () after) :
    ∃ target : Nat, (target : Int) = frame.pc + distance ∧ target < UInt64.size ∧
      after = { frame with pc := target } := by
  unfold jump at h
  dsimp only at h
  split at h
  · rename_i htarget
    cases h
    refine ⟨_, Int.toNat_of_nonneg htarget.1, ?_, rfl⟩
    omega
  · cases h

/-! ## What each instruction does -/

/-- What a completed instruction makes of its frame, whose counter is already past the opcode, and of
the arguments of the next call.  Immediates come from `code`. -/
inductive Works (code : Option Bytes) (frame : Frame) (arguments : Buffer) :
    Opcode → Frame → Buffer → Prop
  | noOp : Works code frame arguments .noOp frame arguments
  | pushC64 {word : UInt64} {stack : Buffer} (hword : code.bind (Bytes.word? · frame.pc) = some word)
      (hpush : Buffer.push word frame.stack = .ok () stack) :
      Works code frame arguments .pushC64 { frame with pc := frame.pc + wordSize, stack } arguments
  | pop {word : UInt64} {stack : Buffer} (hpop : Buffer.pop frame.stack = .ok word stack) :
      Works code frame arguments .pop { frame with stack } arguments
  | iAdd {stack : Buffer} (hadd : Buffer.combineTwo (· + ·) frame.stack = .ok () stack) :
      Works code frame arguments .iAdd { frame with stack } arguments
  | iSub {stack : Buffer} (hsub : Buffer.combineTwo (· - ·) frame.stack = .ok () stack) :
      Works code frame arguments .iSub { frame with stack } arguments
  | argC16 {offset : UInt16} {word : UInt64} {stack passed : Buffer}
      (hoffset : code.bind (Bytes.half? · frame.pc) = some offset)
      (hpop : Buffer.pop frame.stack = .ok word stack)
      (hplace : Buffer.place offset.toNat word arguments = .ok () passed) :
      Works code frame arguments .argC16 { frame with pc := frame.pc + 2, stack } passed
  | lfLoadC16 {offset : UInt16} {word : UInt64} {stack : Buffer}
      (hoffset : code.bind (Bytes.half? · frame.pc) = some offset)
      (hread : Buffer.read offset.toNat frame.locals = .ok word frame.locals)
      (hpush : Buffer.push word frame.stack = .ok () stack) :
      Works code frame arguments .lfLoadC16 { frame with pc := frame.pc + 2, stack } arguments
  | lfStoreC16 {offset : UInt16} {word : UInt64} {stack locals : Buffer}
      (hoffset : code.bind (Bytes.half? · frame.pc) = some offset)
      (hpop : Buffer.pop frame.stack = .ok word stack)
      (hplace : Buffer.place offset.toNat word frame.locals = .ok () locals) :
      Works code frame arguments .lfStoreC16 { frame with pc := frame.pc + 2, stack, locals } arguments
  | jumps {word : UInt64} {offset : UInt16} {target : Nat}
      (hpeek : Buffer.peekTwo frame.stack = .ok (word, word) frame.stack)
      (hoffset : code.bind (Bytes.half? · frame.pc) = some offset)
      (htarget : (target : Int) = frame.pc + 2 + offset.toInt16.toInt) (hword : target < UInt64.size) :
      Works code frame arguments .jmpEqC16 { frame with pc := target } arguments
  | passes {first second : UInt64}
      (hpeek : Buffer.peekTwo frame.stack = .ok (first, second) frame.stack) (hne : first ≠ second) :
      Works code frame arguments .jmpEqC16 { frame with pc := frame.pc + 2 } arguments

end Frame

namespace Machine

variable {H α : Type} {m after : Machine H} {top : Frame} {rest : Lane}

section

variable (hlane : m.lane = top :: rest)

include hlane

theorem onTop_eq_ok {op : Frame.Op α} {a : α} (h : onTop op m = .ok a after) :
    ∃ frame, op top = .ok a frame ∧ after = { m with lane := frame :: rest } := by
  simp only [onTop, hlane] at h
  split at h
  · rename_i value frame hop
    cases h
    exact ⟨frame, hop, rfl⟩
  · cases h

/-- An immediate is read where the counter stands, and the counter moves past it. -/
theorem immediate_eq_ok {load : Nat → Store.Op α} {width : Nat} {value : α}
    (h : (do
      let value ← onMethods (load (← counter))
      onTop (Frame.skip width)
      return value : Exec H α) m = .ok value after) :
    ∃ methods, load top.pc m.methods = .ok value methods ∧
      after = { m with lane := { top with pc := top.pc + width } :: rest, methods } := by
  simp only [bind, EStateM.bind, counter, hlane, onMethods] at h
  cases hread : load top.pc m.methods with
  | error e methods =>
    simp only [hread] at h
    cases h
  | ok found methods =>
    simp only [hread, onTop, Frame.skip, pure, EStateM.pure] at h
    cases h
    exact ⟨methods, rfl, rfl⟩

theorem immediateHalf_eq_ok {value : UInt16} (h : immediateHalf m = .ok value after) :
    ∃ methods, m.methods.selected?.bind (Bytes.half? · top.pc) = some value ∧
      m.methods.Agrees methods ∧
      after = { m with lane := { top with pc := top.pc + 2 } :: rest, methods } := by
  obtain ⟨methods, hload, rfl⟩ := immediate_eq_ok hlane h
  exact ⟨methods, Store.loadHalf_eq_ok hload, (Store.keeps_loadHalf top.pc).of_ok hload, rfl⟩

theorem immediateWord_eq_ok {value : UInt64} (h : immediateWord m = .ok value after) :
    ∃ methods, m.methods.selected?.bind (Bytes.word? · top.pc) = some value ∧
      m.methods.Agrees methods ∧
      after = { m with lane := { top with pc := top.pc + wordSize } :: rest, methods } := by
  obtain ⟨methods, hload, rfl⟩ := immediate_eq_ok hlane h
  exact ⟨methods, Store.loadWord_eq_ok hload, (Store.keeps_loadWord top.pc).of_ok hload, rfl⟩

end

theorem onArguments_eq_ok {op : Buffer.Op α} {a : α} (h : onArguments op m = .ok a after) :
    ∃ arguments, op m.arguments = .ok a arguments ∧ after = { m with arguments } := by
  unfold onArguments at h
  split at h
  · rename_i value arguments hop
    cases h
    exact ⟨arguments, hop, rfl⟩
  · cases h

/-- The machine `after` is `m` with the instruction's work done by its running frame, `top`. -/
def Worked (m : Machine H) (top : Frame) (rest : Lane) (opcode : Opcode) (after : Machine H) : Prop :=
  ∃ frame arguments methods, top.Works m.methods.selected? m.arguments opcode frame arguments ∧
    m.methods.Agrees methods ∧ after = { m with lane := frame :: rest, arguments, methods }

section

variable (hlane : m.lane = top :: rest)

include hlane

theorem worked_pushImmediate (h : pushImmediate m = .ok () after) : m.Worked top rest .pushC64 after := by
  obtain ⟨word, middle, hread, hpush⟩ := exists_of_bind_eq_ok h
  obtain ⟨methods, hword, hmethods, rfl⟩ := immediateWord_eq_ok hlane hread
  obtain ⟨stack, hstack, rfl⟩ := onStack_eq_ok rfl hpush
  exact ⟨_, _, methods, .pushC64 hword hstack, hmethods, rfl⟩

theorem worked_passArgument (h : passArgument m = .ok () after) : m.Worked top rest .argC16 after := by
  obtain ⟨offset, middle, hread, hrest⟩ := exists_of_bind_eq_ok h
  obtain ⟨methods, hoffset, hmethods, rfl⟩ := immediateHalf_eq_ok hlane hread
  obtain ⟨word, middle, hlook, hrest⟩ := exists_of_bind_eq_ok hrest
  obtain ⟨same, hpeek, rfl⟩ := onStack_eq_ok rfl hlook
  obtain ⟨_, middle, hpass, hrest⟩ := exists_of_bind_eq_ok hrest
  obtain ⟨passed, hplace, rfl⟩ := onArguments_eq_ok hpass
  obtain ⟨stack, hdrop, rfl⟩ := onStack_eq_ok rfl hrest
  have hpop := Buffer.pop_eq_ok_of_peek hpeek hdrop
  exact ⟨_, _, methods, .argC16 hoffset hpop hplace, hmethods, rfl⟩

theorem worked_loadLocal (h : loadLocal m = .ok () after) : m.Worked top rest .lfLoadC16 after := by
  obtain ⟨offset, middle, hread, hrest⟩ := exists_of_bind_eq_ok h
  obtain ⟨methods, hoffset, hmethods, rfl⟩ := immediateHalf_eq_ok hlane hread
  obtain ⟨frame, hframe, rfl⟩ := onTop_eq_ok rfl hrest
  obtain ⟨word, middle, hlook, hrest⟩ := exists_of_bind_eq_ok hframe
  obtain ⟨locals, hlocal, rfl⟩ := Frame.onLocals_eq_ok hlook
  obtain ⟨stack, hpush, rfl⟩ := Frame.onStack_eq_ok hrest
  obtain rfl := Buffer.read_eq_ok hlocal
  exact ⟨_, _, methods, .lfLoadC16 hoffset hlocal hpush, hmethods, rfl⟩

theorem worked_storeLocal (h : storeLocal m = .ok () after) : m.Worked top rest .lfStoreC16 after := by
  obtain ⟨offset, middle, hread, hrest⟩ := exists_of_bind_eq_ok h
  obtain ⟨methods, hoffset, hmethods, rfl⟩ := immediateHalf_eq_ok hlane hread
  obtain ⟨frame, hframe, rfl⟩ := onTop_eq_ok rfl hrest
  obtain ⟨word, middle, hlook, hrest⟩ := exists_of_bind_eq_ok hframe
  obtain ⟨same, hpeek, rfl⟩ := Frame.onStack_eq_ok hlook
  obtain ⟨_, middle, hstore, hrest⟩ := exists_of_bind_eq_ok hrest
  obtain ⟨locals, hplace, rfl⟩ := Frame.onLocals_eq_ok hstore
  obtain ⟨stack, hdrop, rfl⟩ := Frame.onStack_eq_ok hrest
  have hpop := Buffer.pop_eq_ok_of_peek hpeek hdrop
  exact ⟨_, _, methods, .lfStoreC16 hoffset hpop hplace, hmethods, rfl⟩

theorem worked_jumpIfEqual (h : jumpIfEqual m = .ok () after) : m.Worked top rest .jmpEqC16 after := by
  obtain ⟨⟨first, second⟩, middle, hlook, hrest⟩ := exists_of_bind_eq_ok h
  obtain ⟨same, hpeek, rfl⟩ := onStack_eq_ok hlane hlook
  obtain rfl := Buffer.peekTwo_eq_ok hpeek
  dsimp only at hrest
  split at hrest
  · rename_i hequal
    subst hequal
    obtain ⟨offset, middle, hread, hrest⟩ := exists_of_bind_eq_ok hrest
    obtain ⟨methods, hoffset, hmethods, rfl⟩ := immediateHalf_eq_ok rfl hread
    obtain ⟨frame, hjump, rfl⟩ := onTop_eq_ok rfl hrest
    obtain ⟨target, htarget, hword, rfl⟩ := Frame.jump_eq_ok hjump
    exact ⟨_, _, methods, .jumps hpeek hoffset htarget hword, hmethods, rfl⟩
  · rename_i hne
    obtain ⟨frame, hskip, rfl⟩ := onTop_eq_ok rfl hrest
    cases hskip
    exact ⟨_, _, m.methods, .passes hpeek hne, .refl _, rfl⟩

/-- Every instruction that stays in its frame and completes has worked as `Works` says. -/
theorem worked_of_execute [Heap H] {opcode : Opcode} (hrole : opcode.role = .work)
    (h : execute opcode m = .ok () after) : m.Worked top rest opcode after := by
  cases opcode with
  | noOp =>
    cases h
    exact ⟨top, m.arguments, m.methods, .noOp, .refl _, by rw [← hlane]⟩
  | pushC64 => exact worked_pushImmediate hlane h
  | pop =>
    obtain ⟨word, middle, hpop, hpure⟩ := exists_of_bind_eq_ok h
    cases hpure
    obtain ⟨stack, hstack, rfl⟩ := onStack_eq_ok hlane hpop
    exact ⟨_, _, m.methods, .pop hstack, .refl _, rfl⟩
  | iAdd =>
    obtain ⟨stack, hstack, rfl⟩ := onStack_eq_ok hlane h
    exact ⟨_, _, m.methods, .iAdd hstack, .refl _, rfl⟩
  | iSub =>
    obtain ⟨stack, hstack, rfl⟩ := onStack_eq_ok hlane h
    exact ⟨_, _, m.methods, .iSub hstack, .refl _, rfl⟩
  | argC16 => exact worked_passArgument hlane h
  | lfLoadC16 => exact worked_loadLocal hlane h
  | lfStoreC16 => exact worked_storeLocal hlane h
  | jmpEqC16 => exact worked_jumpIfEqual hlane h
  | _ => cases hrole

end

/-- A step that stays in its frame and completes changes what `Works` says, adds its report to the
trace, and changes nothing else. -/
theorem exists_works [Heap H] {opcode : Opcode} (hfault : m.fault? = none)
    (hopcode : m.opcode? = some opcode) (hrole : opcode.role = .work) :
    ∃ top rest frame arguments methods, m.lane = top :: rest ∧ m.methods.Agrees methods ∧
      { top with pc := top.pc + 1 }.Works m.methods.selected? m.arguments opcode frame arguments ∧
      m.step.2 =
        { m with
          lane := frame :: rest
          arguments
          methods
          trace := .execute opcode top.pc m.depth :: m.trace } := by
  obtain ⟨top, rest, read, hlane, hread, hexecute⟩ := exists_executed hfault hopcode
  obtain ⟨frame, arguments, methods, hworks, hmethods, hstep⟩ := worked_of_execute rfl hrole hexecute
  refine ⟨top, rest, frame, arguments, methods, hlane, hread.trans hmethods, ?_, hstep⟩
  rw [← hread.selected?_eq]
  exact hworks

end Machine

end LaneMachine
