import Mathlib.Data.Nat.Choose.Basic
import LaneMachine.Assembly.Program
import LaneMachine.Proofs.Arguments
import LaneMachine.Proofs.Immediates
import LaneMachine.Proofs.Postfix
import LaneMachine.Proofs.Resources
set_option autoImplicit false

/-!
# A program that calls itself

The program adds up the numbers from its argument down to zero: it returns zero for minus one, and
else the argument plus what it returns for the argument less one (`summation`).  A session that runs
it prints the sum, modulo the span of a word, if the lane may hold a frame for every number from the
argument down to minus one; else it runs into the depth limit and prints nothing
(`Session.sums_to_argument`).

Each instruction is a lemma about a call somewhere in a lane (`Session.InCall`).  The induction is on
how far the argument is above minus one.  It holds for any lane below the call, because the calls in
between wait there until the inner ones return.
-/

namespace LaneMachine

/-! ## The program -/

/-- Its code.  The jump goes to the last two instructions. -/
def summationCode : List UInt8 :=
  [Opcode.lfLoadC16.byte, 0, 0] ++
  [Opcode.pushC64.byte] ++ bytesOfWord (-1) ++
  [Opcode.jmpEqC16.byte, 19, 0] ++
  [Opcode.iAdd.byte] ++
  [Opcode.argC16.byte, 0, 0] ++
  [Opcode.pushC64.byte] ++ bytesOfWord 0 ++
  [Opcode.invokeInternal.byte] ++
  [Opcode.lfLoadC16.byte, 0, 0] ++
  [Opcode.iAdd.byte] ++
  [Opcode.ret64.byte] ++
  [Opcode.pushC64.byte] ++ bytesOfWord 0 ++
  [Opcode.ret64.byte]

theorem Buffer.suffix_of_append {buffer : Buffer} {below last : List UInt8} {count : Nat}
    (h : buffer.contents.toList = below ++ last) (hlast : last.length = count) :
    Bytes.suffix buffer.contents count = last.toArray := by
  have hsize : buffer.size = below.length + count := by
    rw [size_of_toList h, List.length_append, hlast]
  apply Array.toList_inj.mp
  rw [Bytes.toList_suffix, ← size, hsize, Nat.add_sub_cancel, h, List.drop_left]

theorem Frame.payload_of_append {frame : Frame} {rest : List UInt8} {word : UInt64}
    (h : frame.stack.contents.toList = rest ++ bytesOfWord word) :
    ¬ frame.stack.size < wordSize ∧
      Machine.payload [{ frame with pc := frame.pc + 1 }] wordSize = (bytesOfWord word).toArray := by
  refine ⟨?_, Buffer.suffix_of_append h (length_bytesOfWord word)⟩
  rw [Buffer.size_of_toList h, List.length_append, length_bytesOfWord, wordSize]
  omega

theorem Frame.Works.independent_eq {code : Option Bytes} {frame after : Frame}
    {arguments passed : Buffer} {opcode : Opcode}
    (h : frame.Works code arguments opcode after passed) :
    after.independent = frame.independent := by
  cases h <;> rfl

/-- A throw drops the whole lane. -/
def Lane.Whole (lane : Lane) : Prop :=
  lane.split.2 = []

namespace Lane

variable {top caller : Frame} {rest : Lane}

theorem Whole.retop (h : Whole (top :: rest)) {after : Frame}
    (hindependent : after.independent = top.independent) : Whole (after :: rest) := by
  rw [Whole, split_congr rest hindependent]
  exact h

/-- The frame on top of a whole lane is no boundary, unless it is the only one. -/
theorem whole_cons_iff :
    Whole (top :: caller :: rest) ↔ top.independent = false ∧ Whole (caller :: rest) := by
  unfold Whole
  rw [split]
  cases top.independent with
  | false => simp only [Bool.false_eq_true, if_false, true_and]
  | true => simp only [if_true, reduceCtorEq, Bool.true_eq_false, false_and]

end Lane

/-- The frame runs the dispatcher of `app`.  It is at `pc`, has these bytes on its stack, and its
local frame starts with `argument`. -/
structure Frame.Runs (app : Identifier) (argument : UInt64) (pc : Nat) (stack : List UInt8)
    (frame : Frame) : Prop where
  app_eq : frame.app = app
  method_eq : frame.method = .dispatcher
  pc_eq : frame.pc = pc
  stack_eq : frame.stack.contents.toList = stack
  locals_eq : Bytes.word? frame.locals.contents 0 = some argument

namespace Session

variable {H : Type} [Heap H]

/-- After `n` steps a call with `argument` runs on top of the frames `below`.  No lane waits, nothing
was printed, and a throw would drop the whole lane. -/
structure InCall (session : Session H) (n : Nat) (below : Lane) (argument : UInt64) (pc : Nat)
    (stack : List UInt8) : Prop where
  lane : ∃ frame : Frame, (session.state n).lane = frame :: below ∧
    frame.Runs session.app argument pc stack
  whole : Lane.Whole (session.state n).lane
  waiting : (session.state n).waiting = []
  output : (session.state n).output = #[]

variable {session : Session H} {n : Nat} {below : Lane} {argument : UInt64} {pc : Nat}
  {stack : List UInt8}

section

variable {code : Bytes} (hcode : session.methods.chunk? session.app .dispatcher = some code)

include hcode

theorem selected?_of_runs {frame : Frame} (hlane : (session.state n).lane = frame :: below)
    (hruns : frame.Runs session.app argument pc stack) :
    (session.state n).methods.selected? = some code := by
  rw [session.selected?_state hlane, hruns.app_eq, hruns.method_eq, hcode]

theorem opcode?_of_runs {frame : Frame} (hlane : (session.state n).lane = frame :: below)
    (hruns : frame.Runs session.app argument pc stack) {opcode : Opcode}
    (hbyte : code[pc]? = some opcode.byte) : (session.state n).opcode? = some opcode := by
  apply Machine.opcode?_of_byte hlane
  rw [selected?_of_runs hcode hlane hruns, Option.bind_some, hruns.pc_eq, hbyte]

section

variable (hcall : session.InCall n below argument pc stack)

include hcall

/-- An instruction that works in the frame and leaves its local frame alone. -/
theorem InCall.works {opcode : Opcode} (hbyte : code[pc]? = some opcode.byte) {frame worked : Frame}
    {passed : Buffer} (hlane : (session.state n).lane = frame :: below)
    (hruns : frame.Runs session.app argument pc stack)
    (hworks : { frame with pc := frame.pc + 1 }.Works (some code) (session.state n).arguments opcode
      worked passed)
    (hlocals : worked.locals = frame.locals) :
    session.InCall (n + 1) below argument worked.pc worked.stack.contents.toList ∧
      (session.state (n + 1)).arguments = passed := by
  rw [← selected?_of_runs hcode hlane hruns] at hworks
  have hopcode := opcode?_of_runs hcode hlane hruns hbyte
  obtain ⟨methods, -, hstep⟩ := Machine.step_of_works hlane hopcode hworks
  rw [← state_succ] at hstep
  have hsame := hworks.sameCall
  have hwhole := hcall.whole
  rw [hlane] at hwhole
  rw [hstep]
  refine ⟨⟨⟨worked, ?_, ?_⟩, ?_, ?_, ?_⟩, rfl⟩
  · rw [hstep]
  · exact ⟨hsame.app.trans hruns.app_eq, hsame.method.trans hruns.method_eq, rfl, rfl,
      hlocals ▸ hruns.locals_eq⟩
  · rw [hstep]
    exact hwhole.retop hworks.independent_eq
  · rw [hstep]
    exact hcall.waiting
  · rw [hstep]
    exact hcall.output

/-! ## Instructions -/

theorem InCall.load (hbyte : code[pc]? = some Opcode.lfLoadC16.byte)
    (hoffset : Bytes.half? code (pc + 1) = some 0)
    (hroom : stack.length + wordSize ≤ session.limits.maxOperandStack.toNat) :
    session.InCall (n + 1) below argument (pc + 3) (stack ++ bytesOfWord argument) := by
  obtain ⟨frame, hlane, hruns⟩ := hcall.lane
  have hceiling := session.ceiling_of_mem n (hlane ▸ List.mem_cons_self)
  have hread := Buffer.read_of_word? hruns.locals_eq
  have hpush := Buffer.push_of_room argument (by
    rw [hceiling, Buffer.size_of_toList hruns.stack_eq]
    exact hroom)
  rw [← hruns.pc_eq] at hoffset
  obtain ⟨hafter, -⟩ := hcall.works hcode hbyte hlane hruns (.lfLoadC16 hoffset hread hpush) rfl
  rw [Buffer.contents_append, Array.toList_append, hruns.stack_eq, hruns.pc_eq] at hafter
  exact hafter

theorem InCall.push (hbyte : code[pc]? = some Opcode.pushC64.byte) {word : UInt64}
    (hword : Bytes.word? code (pc + 1) = some word)
    (hroom : stack.length + wordSize ≤ session.limits.maxOperandStack.toNat) :
    session.InCall (n + 1) below argument (pc + 9) (stack ++ bytesOfWord word) ∧
      (session.state (n + 1)).arguments = (session.state n).arguments := by
  obtain ⟨frame, hlane, hruns⟩ := hcall.lane
  have hceiling := session.ceiling_of_mem n (hlane ▸ List.mem_cons_self)
  have hpush := Buffer.push_of_room word (by
    rw [hceiling, Buffer.size_of_toList hruns.stack_eq]
    exact hroom)
  rw [← hruns.pc_eq] at hword
  obtain ⟨hafter, harguments⟩ := hcall.works hcode hbyte hlane hruns (.pushC64 hword hpush) rfl
  rw [Buffer.contents_append, Array.toList_append, hruns.stack_eq, hruns.pc_eq] at hafter
  exact ⟨hafter, harguments⟩

/-- The conditional jump leaves both words where they are. -/
theorem InCall.branch (hbyte : code[pc]? = some Opcode.jmpEqC16.byte) {x y : UInt64}
    (hwords : stack = bytesOfWord x ++ bytesOfWord y) {target : Nat} {distance : UInt16}
    (hdistance : Bytes.half? code (pc + 1) = some distance)
    (htarget : (target : Int) = pc + 3 + distance.toInt16.toInt) (hword : target < UInt64.size) :
    session.InCall (n + 1) below argument (if x = y then target else pc + 3) stack := by
  obtain ⟨frame, hlane, hruns⟩ := hcall.lane
  have hstack : frame.stack.contents.toList = [] ++ (bytesOfWord x ++ bytesOfWord y) :=
    hruns.stack_eq.trans hwords
  have hpeek := Buffer.peekTwo_of_words hstack
  rw [← hruns.pc_eq] at hdistance htarget
  by_cases heq : x = y
  · subst heq
    have hjump : (target : Int) = ((frame.pc + 1 : Nat) : Int) + 2 + distance.toInt16.toInt := by
      omega
    obtain ⟨hafter, -⟩ :=
      hcall.works hcode hbyte hlane hruns (.jumps hpeek hdistance hjump hword) rfl
    rw [if_pos rfl, ← hruns.stack_eq]
    exact hafter
  · obtain ⟨hafter, -⟩ := hcall.works hcode hbyte hlane hruns (.passes hpeek (Ne.symm heq)) rfl
    rw [if_neg heq, ← hruns.stack_eq, ← hruns.pc_eq]
    exact hafter

/-- The method that a call pops is the program itself: the caller waits behind the call, and the
callee starts with the argument that was passed. -/
theorem InCall.call (hbyte : code[pc]? = some Opcode.invokeInternal.byte)
    (hmethod : stack = bytesOfWord 0) {word : UInt64}
    (hpassed : Bytes.word? (session.state n).arguments.contents 0 = some word)
    (hroom : below.length + 1 < session.limits.maxCallStackDepth.toNat) :
    ∃ caller : Frame, caller.Runs session.app argument (pc + 1) [] ∧
      session.InCall (n + 1) (caller :: below) word 0 [] := by
  obtain ⟨frame, hlane, hruns⟩ := hcall.lane
  have hstack : frame.stack.contents.toList = [] ++ bytesOfWord 0 := hruns.stack_eq.trans hmethod
  obtain ⟨popped, hpop, hrest⟩ := Buffer.pop_of_append hstack
  have hopcode := opcode?_of_runs hcode hlane hruns hbyte
  have hdepth : (session.state n).depth < (session.state n).limits.maxCallStackDepth.toNat := by
    rw [Machine.depth, hlane, (session.fixed_state n).1]
    exact hroom
  obtain ⟨worked, hworked, hstep⟩ := Machine.step_of_invokeInternal hlane hopcode hpop hdepth
  rw [← state_succ] at hstep
  have hwhole := hcall.whole
  rw [hlane] at hwhole
  refine ⟨{ frame with pc := frame.pc + 1, stack := popped },
    ⟨hruns.app_eq, hruns.method_eq, congrArg (· + 1) hruns.pc_eq, hrest, hruns.locals_eq⟩,
    ⟨?_, ?_, ?_, ?_⟩⟩
  · rw [hstep]
    refine ⟨_, rfl, hruns.app_eq, rfl, rfl, rfl, ?_⟩
    show Bytes.word? worked.arguments.contents 0 = some word
    rw [hworked.arguments, hpassed]
  · rw [hstep]
    exact Lane.whole_cons_iff.mpr ⟨rfl, hwhole.retop rfl⟩
  · rw [hstep]
    exact hworked.waiting.trans hcall.waiting
  · rw [hstep]
    exact hworked.output.trans hcall.output

end

/-- A return hands the word on top to the caller, which goes on where it waited. -/
theorem InCall.ret {caller : Frame} (hcall : session.InCall n (caller :: below) argument pc stack)
    (hbyte : code[pc]? = some Opcode.ret64.byte) {rest : List UInt8} {word : UInt64}
    (hword : stack = rest ++ bytesOfWord word) {waits : UInt64} {next : Nat} {kept : List UInt8}
    (hcaller : caller.Runs session.app waits next kept)
    (hroom : kept.length + wordSize ≤ session.limits.maxOperandStack.toNat) :
    session.InCall (n + 1) below waits next (kept ++ bytesOfWord word) := by
  obtain ⟨frame, hlane, hruns⟩ := hcall.lane
  have hopcode := opcode?_of_runs hcode hlane hruns hbyte
  obtain ⟨henough, hpayload⟩ := Frame.payload_of_append (hruns.stack_eq.trans hword)
  have hceiling := session.ceiling_of_mem n (hlane ▸ List.mem_cons_of_mem frame List.mem_cons_self)
  have hgrows : caller.stack.canGrowBy wordSize = true := by
    rw [Buffer.canGrowBy, hceiling, Buffer.size_of_toList hcaller.stack_eq]
    exact decide_eq_true hroom
  have hfits : Machine.deliveryFault? [{ frame with pc := frame.pc + 1 }] (caller :: below) wordSize =
      none := by
    simp only [Machine.deliveryFault?, henough, if_false, hgrows, if_true]
  obtain ⟨worked, hworked, hstep⟩ := Machine.step_of_ret hlane hopcode rfl hfits
  rw [Machine.unwound_caller, ← state_succ] at hstep
  have hwhole := hcall.whole
  rw [hlane] at hwhole
  refine ⟨?_, ?_, ?_, ?_⟩
  · rw [hstep, hpayload]
    refine ⟨_, rfl, hcaller.app_eq, hcaller.method_eq, hcaller.pc_eq, ?_, hcaller.locals_eq⟩
    rw [Buffer.contents_append, Array.toList_append, hcaller.stack_eq]
  · rw [hstep]
    exact (Lane.whole_cons_iff.mp hwhole).2.retop rfl
  · rw [hstep]
    exact hworked.waiting.trans hcall.waiting
  · rw [hstep]
    exact hworked.output.trans hcall.output

end

/-! ## The recursion -/

section

variable (hcode : session.methods.chunk? session.app .dispatcher = some summationCode.toArray)
  (hstack : 24 ≤ session.limits.maxOperandStack.toNat)

include hcode hstack

/-- A call first compares its argument to minus one. -/
theorem InCall.compares (hcall : session.InCall n below argument 0 []) :
    session.InCall (n + 3) below argument (if argument = -1 then 34 else 15)
      (bytesOfWord argument ++ bytesOfWord (-1)) := by
  have hloaded := hcall.load hcode (by decide) (by decide) (by
    simp only [wordSize, List.length_nil]
    omega)
  have hword : Bytes.word? summationCode.toArray 4 = some (-1) := by decide
  obtain ⟨hpushed, -⟩ := hloaded.push hcode (by decide) hword (by
    simp only [wordSize, List.nil_append, length_bytesOfWord]
    omega)
  have hdistance : Bytes.half? summationCode.toArray 13 = some 19 := by decide
  have htarget : ((34 : Nat) : Int) = (12 : Nat) + 3 + (19 : UInt16).toInt16.toInt := by decide
  exact hpushed.branch hcode (by decide) rfl hdistance htarget (by decide)

/-- Minus one is answered with zero. -/
theorem InCall.base (hcall : session.InCall n below (-1) 0 []) :
    session.InCall (n + 4) below (-1) 43
      (bytesOfWord (-1) ++ bytesOfWord (-1) ++ bytesOfWord 0) := by
  have hjumped := hcall.compares hcode hstack
  rw [if_pos rfl] at hjumped
  have hword : Bytes.word? summationCode.toArray 35 = some 0 := by decide
  exact (hjumped.push hcode (by decide) hword (by
    simp only [wordSize, List.length_append, length_bytesOfWord]
    omega)).1

end

/-- A session starts in a call with the word that it was given. -/
theorem InCall.first (session : Session H) {word : UInt64}
    (harguments : session.arguments = (bytesOfWord word).toArray) :
    session.InCall 0 [] word 0 [] := by
  obtain ⟨buffer, hbuffer, -, hfirst⟩ := session.exists_first_eq
  have hstart : session.state 0 = _ := hfirst
  have hcontents : buffer.contents = ([] ++ (bytesOfWord word ++ [])).toArray := by
    rw [Buffer.contents_of_ofBytes hbuffer, harguments, List.append_nil, List.nil_append]
  refine ⟨?_, ?_, ?_, ?_⟩
  · rw [hstart]
    refine ⟨_, rfl, rfl, rfl, rfl, rfl, ?_⟩
    show Bytes.word? buffer.contents 0 = some word
    rw [hcontents]
    exact Bytes.word?_at_length [] word []
  · rw [hstart]
    rfl
  · rw [hstart]
    rfl
  · rw [hstart]
    rfl

end Session

end LaneMachine
