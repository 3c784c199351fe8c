import LaneMachine.Proofs.Checkpoints
import LaneMachine.Proofs.Faults
import LaneMachine.Proofs.Forward
set_option autoImplicit false

/-!
# The throw instruction

A throw hands down the 16-bit value on top of the stack and as many bytes as it says.  It may be
refused twice over: the stack may not hold that many bytes, or the frame that would take them may
have no room.  The machine then answers the refusal by a throw of its own, which hands down nothing
and leaves the status of the refusal.  `Buffer.thrown` says what comes of the three cases.

Whichever it is, the same frames are dropped and the same is done to everything else, because the
second throw starts from a machine in which at most the running frame has changed
(`Machine.Caught`).
-/

namespace LaneMachine

namespace Buffer

/-- How many bytes a throw from this stack moves: as many as the 16-bit value on top says, and its own
two. -/
def thrownLength (stack : Buffer) : Nat :=
  natOfBytes (Bytes.suffix stack.contents 2).toList + 2

/-- What a throw from this stack hands down, to the first of the frames `kept` or to the output, and the
status that it leaves. -/
def thrown (stack : Buffer) (kept : Lane) : Bytes × Status :=
  let count := stack.thrownLength
  if stack.size < 2 ∨ stack.size < count then (#[], .invalidReference)
  else if kept.head?.any fun caller => caller.stack.ceiling < caller.stack.size + count then
    (#[], .memoryLimitExceeded)
  else (Bytes.suffix stack.contents count, .softwareError)

variable {stack : Buffer}

theorem thrownSize_of_short (h : stack.size < 2 ∨ stack.size < stack.thrownLength) :
    ∃ offset length, thrownSize stack = .error (.outOfBounds offset length stack.size) stack := by
  by_cases hhalf : stack.size < 2
  · have htop := (top_eq_error_iff 2 stack stack _).mpr ⟨hhalf, rfl, rfl⟩
    exact ⟨0, 2, bind_of_error htop⟩
  · have hshort : stack.size < stack.thrownLength := h.resolve_left hhalf
    have htop := top_of_le (Nat.not_lt.mp hhalf)
    refine ⟨0, stack.thrownLength, (bind_of_ok htop).trans ((bind_of_ok rfl).trans ?_)⟩
    exact congrFun (if_pos hshort) stack

theorem thrownSize_of_whole (hhalf : 2 ≤ stack.size) (h : stack.thrownLength ≤ stack.size) :
    thrownSize stack = .ok stack.thrownLength stack := by
  refine (bind_of_ok (top_of_le hhalf)).trans ((bind_of_ok rfl).trans ?_)
  exact congrFun (if_neg (Nat.not_lt.mpr h)) stack

end Buffer

/-- The frame with more bytes on its stack. -/
def Frame.receive (bytes : Bytes) (frame : Frame) : Frame :=
  { frame with stack := frame.stack.append bytes }

/-- Where a throw stops: nothing above the lowest frame dropped is independent, and that frame is
independent or nothing is left below it. -/
theorem Lane.exists_split_eq {lane : Lane} (hne : lane ≠ []) :
    ∃ above target, lane.split.1 = above ++ [target] ∧ lane = above ++ target :: lane.split.2 ∧
      (∀ frame ∈ above, frame.independent = false) ∧
      (target.independent = true ∨ lane.split.2 = []) := by
  have hdropped : lane.split.1 ≠ [] := (Lane.Cut.byThrow hne .noError).ne_nil
  have hlast := List.dropLast_concat_getLast hdropped
  refine ⟨_, _, hlast.symm, ?_, not_independent_of_mem_dropLast_split lane, ?_⟩
  · calc lane = lane.split.1 ++ lane.split.2 := lane.split_append.symm
      _ = (lane.split.1.dropLast ++ [lane.split.1.getLast hdropped]) ++ lane.split.2 := by rw [hlast]
      _ = _ := List.append_assoc _ _ _
  · by_cases hkept : lane.split.2 = []
    · exact .inr hkept
    · have hmark := independent_getLast?_split lane hkept
      rw [List.getLast?_eq_some_getLast hdropped] at hmark
      exact .inl hmark

namespace Machine

variable {H : Type} [Heap H]

/-- What is left of the machine `m` after the frames `gone` were thrown away from above `kept`, and
`bytes` were handed down. -/
structure Caught (m : Machine H) (gone kept : Lane) (bytes : Bytes) (status : Status)
    (after : Machine H) : Prop where
  status_eq : after.status = status
  /-- The first of the kept frames has the bytes on its stack; the others are as they were. -/
  lane : after.lane = kept.modifyHead (Frame.receive bytes)
  /-- Without such a frame the bytes go to the output. -/
  output : after.output = if kept.isEmpty then m.output ++ bytes else m.output
  /-- Exactly the locks of the dropped frames are released. -/
  locks : ∀ context, after.isLocked context = true ↔
    m.isLocked context = true ∧ ∀ frame ∈ gone, frame.lock ≠ some context
  /-- The heap is restored once, and then turned to the frame that runs on. -/
  heap : after.heap = kept.select (Heap.restore m.heap)
  waiting : after.waiting = if kept.isEmpty then [] else m.waiting
  arguments : kept ≠ [] → after.arguments = freshArguments m.limits

omit [Heap H] in
theorem mem_locksWithout {locks : List Identifier} {dropped : Lane} {context : Identifier} :
    context ∈ locksWithout locks dropped ↔
      context ∈ locks ∧ ∀ frame ∈ dropped, frame.lock ≠ some context := by
  simp [locksWithout]

/-- An unwind by an error leaves what `Caught` says of the machine that it started from.  The part of the
step that came before it does not show, because it stayed in the running frame. -/
theorem Evolves.caught_unwound {m worked : Machine H} (hwork : m.Evolves worked) (count : Nat)
    {status : Status} (hstatus : status.isError = true) :
    m.Caught m.lane.split.1 m.lane.split.2 (payload worked.lane.split.1 count) status
      (worked.unwound worked.lane.split.1 worked.lane.split.2 count status) := by
  obtain ⟨hdropped, hkept⟩ := hwork.lane.split_eq
  have hlocks (context : Identifier) :
      (locksWithout worked.locks worked.lane.split.1).contains context = true ↔
        m.isLocked context = true ∧ ∀ frame ∈ m.lane.split.1, frame.lock ≠ some context := by
    rw [hdropped.locksWithout_eq, hwork.locks, List.contains_iff_mem, mem_locksWithout, isLocked,
      List.contains_iff_mem]
  rw [hkept]
  cases m.lane.split.2 with
  | nil =>
    rw [unwound_last worked _ count (.inl hstatus), resolveHeap, if_pos hstatus, hwork.heap,
      hwork.output]
    exact ⟨rfl, rfl, rfl, hlocks, rfl, rfl, fun hnil => absurd rfl hnil⟩
  | cons caller rest =>
    rw [unwound_caller, resolveHeap, if_pos hstatus, hwork.heap, hwork.limits]
    exact ⟨rfl, rfl, hwork.output, hlocks, rfl, hwork.waiting, fun _ => rfl⟩

/-- A step that fails hands down nothing and leaves the status of its fault. -/
theorem caught_of_fault {m : Machine H} (hbounded : m.Bounded) {fault : Fault}
    (h : m.fault? = some fault) :
    m.Caught m.lane.split.1 m.lane.split.2 #[] fault.status m.step.2 := by
  obtain ⟨left, hrun⟩ := (m.fault?_eq_some_iff fault).mp h
  have hwork : m.Evolves (left.emit (.failed fault)) :=
    (evolves_of_fault hrun).trans (evolves_emit left _)
  have herror : fault.status.isError = true := by
    simpa [Status.isError] using fault_status_ne_noError h
  have hcaught := hwork.caught_unwound 0 herror
  rw [payload_zero] at hcaught
  rw [step_of_fault hbounded hrun]
  exact hcaught

section

variable {m : Machine H} {top : Frame} {rest : Lane} (hlane : m.lane = top :: rest)

include hlane

theorem throwTop_of_short (h : top.stack.size < 2 ∨ top.stack.size < top.stack.thrownLength) :
    ∃ fault left, throwTop m = .error fault left ∧ fault.status = .invalidReference := by
  obtain ⟨offset, length, hsize⟩ := Buffer.thrownSize_of_short h
  exact ⟨_, _, bind_of_error (onStack_of_error top hlane hsize), rfl⟩

theorem throwTop_of_whole (hhalf : 2 ≤ top.stack.size)
    (h : top.stack.thrownLength ≤ top.stack.size) :
    throwTop m =
      unwind m.lane.split.1 m.lane.split.2 top.stack.thrownLength .softwareError m :=
  bind_of_ok (onStack_of_look top hlane (Buffer.thrownSize_of_whole hhalf h))

/-- The instruction is refused, or it unwinds; in either case by what `thrown` says. -/
theorem throwTop_cases :
    (∃ fault left, throwTop m = .error fault left ∧
      top.stack.thrown m.lane.split.2 = (#[], fault.status)) ∨
    ∃ count, throwTop m =
        .ok () (m.unwound m.lane.split.1 m.lane.split.2 count .softwareError) ∧
      top.stack.thrown m.lane.split.2 = (payload m.lane.split.1 count, .softwareError) := by
  unfold Buffer.thrown
  dsimp only
  by_cases hshort : top.stack.size < 2 ∨ top.stack.size < top.stack.thrownLength
  · obtain ⟨fault, left, hthrow, hstatus⟩ := throwTop_of_short hlane hshort
    rw [if_pos hshort]
    exact .inl ⟨fault, left, hthrow, by rw [hstatus]⟩
  · obtain ⟨hhalf, hwhole⟩ := not_or.mp hshort
    obtain ⟨more, hmore⟩ := Lane.split_cons top rest
    rw [← hlane] at hmore
    rw [if_neg hshort, throwTop_of_whole hlane (Nat.not_lt.mp hhalf) (Nat.not_lt.mp hwhole), hmore]
    cases hfits : deliveryFault? (top :: more) m.lane.split.2 top.stack.thrownLength with
    | none =>
      refine .inr ⟨top.stack.thrownLength, by rw [unwind, hfits], ?_⟩
      rw [if_neg]
      · rfl
      · cases hkept : m.lane.split.2 with
        | nil => exact Bool.false_ne_true
        | cons caller below =>
          rw [hkept] at hfits
          have hroom := canGrowBy_of_deliveryFault? hfits
          simpa using hroom
    | some fault =>
      refine .inl ⟨fault, m, by rw [unwind, hfits], ?_⟩
      cases (deliveryFault?_eq_some_iff top more _ _ fault).mp hfits with
      | tooFew hfew => exact absurd hfew hwhole
      | @noRoom henough caller below hkept hroom =>
        rw [if_pos]
        · rfl
        · simpa [hkept] using hroom

end

/-- A step that throws hands down what `thrown` says.  If the instruction is refused, this is the throw
that answers the fault. -/
theorem caught_of_throw {m : Machine H} (hbounded : m.Bounded) {top : Frame} {rest : Lane}
    (hlane : m.lane = top :: rest) (hopcode : m.opcode? = some .throw) :
    m.Caught m.lane.split.1 m.lane.split.2 (top.stack.thrown m.lane.split.2).1
      (top.stack.thrown m.lane.split.2).2 m.step.2 := by
  obtain ⟨top', rest', worked, hworked, hrun⟩ := exists_decoded hopcode
  obtain ⟨rfl, rfl⟩ := List.cons.inj (hlane.symm.trans hworked.before)
  have hkept := hworked.evolves.lane.split_eq.2
  rcases throwTop_cases hworked.lane with ⟨fault, left, hthrow, hthrown⟩ | ⟨count, hthrow, hthrown⟩
  · have hfault : m.fault? = some fault :=
      (m.fault?_eq_some_iff fault).mpr ⟨left, hrun.trans (bind_of_error hthrow)⟩
    rw [hkept] at hthrown
    rw [hthrown]
    exact caught_of_fault hbounded hfault
  · rw [hkept] at hthrown
    rw [step_of_execute hrun hthrow, hthrown]
    exact hworked.evolves.caught_unwound count rfl

end Machine

/-- A step of a session whose next byte is a throw.  It drops the frames down to the innermost
independent one above the bottom of the lane, or else all of them.  What it hands down and which status
it leaves is decided by `Buffer.thrown`; the rest is the same for all three outcomes, and said by
`Machine.Caught`. -/
theorem Session.throw_caught {H : Type} [Heap H] (session : Session H) {m : Machine H}
    (hreach : session.Reaches m) (hbyte : m.byte? = some Opcode.throw.byte) :
    ∃ top above target kept, m.lane.head? = some top ∧ m.lane = above ++ target :: kept ∧
      (∀ frame ∈ above, frame.independent = false) ∧
      (target.independent = true ∨ kept = []) ∧
      m.Caught (above ++ [target]) kept (top.stack.thrown kept).1 (top.stack.thrown kept).2
        m.step.2 := by
  obtain ⟨n, rfl⟩ := hreach
  have hopcode : (session.state n).opcode? = some .throw := by
    rw [Machine.opcode?, hbyte, Option.bind_some, Opcode.ofByte?_byte]
  obtain ⟨top, rest, hlane⟩ := List.exists_cons_of_ne_nil (Machine.lane_ne_nil_of_opcode? hopcode)
  obtain ⟨above, target, hgone, hsplit, habove, htarget⟩ :=
    Lane.exists_split_eq (Machine.lane_ne_nil_of_opcode? hopcode)
  refine ⟨top, above, target, _, by rw [hlane, List.head?_cons], hsplit, habove, htarget, ?_⟩
  rw [← hgone]
  exact Machine.caught_of_throw (session.bounded_state n) hlane hopcode

/-- A session whose second frame, called independently, throws three bytes and their number. -/
def Session.thrownWord : Session Store :=
  .ofPair (Opcode.pushC64.byte :: bytesOfWord 0x12 ++ [Opcode.indInvokeDispatcher.byte])
    (Opcode.pushC64.byte :: bytesOfWord 0x0003ccbbaa000000 ++ [Opcode.throw.byte]) .empty

theorem Session.throw_caught_thrownWord :
    ∃ callee caller, (thrownWord.state 3).lane = [callee, caller] ∧
      (thrownWord.state 3).Caught [callee] [caller] #[0xaa, 0xbb, 0xcc, 3, 0] .softwareError
        (thrownWord.state 3).step.2 := by
  have hdepth : (thrownWord.state 3).depth = 2 := by decide +kernel
  have hmark : (thrownWord.state 3).lane.head?.any Frame.independent = true := by decide +kernel
  have hthrown : (thrownWord.state 3).lane.head?.map
      (fun top => top.stack.thrown (thrownWord.state 3).lane.tail) =
        some (#[0xaa, 0xbb, 0xcc, 3, 0], .softwareError) := by decide +kernel
  obtain ⟨top, above, target, kept, htop, hlane, habove, -, hcaught⟩ :=
    throw_caught thrownWord ⟨3, rfl⟩ (by decide +kernel)
  rw [Machine.depth, hlane] at hdepth
  cases above with
  | cons frame above =>
    rw [hlane] at hmark
    rw [List.cons_append, List.head?_cons, Option.any_some, habove frame List.mem_cons_self] at hmark
    cases hmark
  | nil =>
    obtain ⟨caller, rfl⟩ := List.length_eq_one_iff.mp (Nat.succ.inj hdepth)
    rw [htop, hlane, Option.map_some, Option.some.injEq] at hthrown
    rw [List.nil_append, List.tail_cons] at hthrown
    rw [hthrown] at hcaught
    exact ⟨target, caller, hlane, hcaught⟩

end LaneMachine
