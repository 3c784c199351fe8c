import LaneMachine.Proofs.Instruction
set_option autoImplicit false

/-!
# What can fail, and with what

An unwind checks everything before it changes anything: it is refused, and then nothing has
happened, or it goes through and the bytes reach the frame that waits for them
(`UnwindsWhole`).  A throw without bytes is never refused.

An instruction fails with faults that its operands, its buffers and the limits explain.
`Safe` follows this through a program: from a state that has a frame to run, it ends well or
raises an ordinary fault, one that neither says that all is well nor that anything may have
gone wrong.  What is left is a byte that stands for no opcode, and that alone leaves
`runtimeError` behind.
-/

namespace LaneMachine

/-! ## Ordinary faults -/

/-- The fault stands for an error with a name of its own. -/
def Fault.Ordinary (fault : Fault) : Prop :=
  fault.status ≠ .noError ∧ fault.status ≠ .runtimeError

theorem Fault.ordinary_buffer (error : Buffer.Error) : (Fault.buffer error).Ordinary := by
  cases error with
  | limitExceeded requested ceiling => exact ⟨Status.noConfusion, Status.noConfusion⟩
  | outOfBounds offset length size => exact ⟨Status.noConfusion, Status.noConfusion⟩

theorem Fault.ordinary_store (error : Store.Error) : (Fault.store error).Ordinary :=
  ⟨Status.noConfusion, Status.noConfusion⟩

theorem Fault.ordinary_signal {status : Status} (herror : status ≠ .noError)
    (hnamed : status ≠ .runtimeError) : (Fault.signal status).Ordinary :=
  ⟨herror, hnamed⟩

theorem Fault.Ordinary.ne_internal {fault : Fault} (h : fault.Ordinary) (reason : String) :
    fault ≠ .internal reason := by
  rintro rfl
  exact h.2 rfl

section

variable {σ α β : Type} {P Q R : σ → Prop}

/-- From a state with `P` the program ends in a state with `Q` or raises an ordinary fault. -/
def Safe (P Q : σ → Prop) (program : EStateM Fault σ α) : Prop :=
  ∀ before, P before →
    match program before with
    | .ok _ after => Q after
    | .error fault _ => fault.Ordinary

theorem Safe.of_error {program : EStateM Fault σ α} (h : Safe P Q program) {before left : σ}
    {fault : Fault} (hbefore : P before) (hrun : program before = .error fault left) :
    fault.Ordinary := by
  have hsafe := h before hbefore
  rw [hrun] at hsafe
  exact hsafe

theorem safe_pure (a : α) : Safe P P (pure a : EStateM Fault σ α) :=
  fun _ hbefore => hbefore

theorem safe_bind {program : EStateM Fault σ α} {next : α → EStateM Fault σ β}
    (hprogram : Safe P Q program) (hnext : ∀ a, Safe Q R (next a)) :
    Safe P R (program >>= next) := by
  intro before hbefore
  have hfirst := hprogram before hbefore
  simp only [bind, EStateM.bind]
  cases hrun : program before with
  | ok a middle =>
    rw [hrun] at hfirst
    exact hnext a middle hfirst
  | error fault middle =>
    rw [hrun] at hfirst
    exact hfirst

theorem safe_get_bind {next : σ → EStateM Fault σ α}
    (hnext : ∀ found, P found → Safe (fun before => before = found) Q (next found)) :
    Safe P Q (get >>= next) :=
  fun before hbefore => hnext before hbefore before rfl

theorem Safe.weaken {program : EStateM Fault σ α} (h : Safe P Q program) :
    Safe P (fun _ => True) program := by
  intro before hbefore
  have hsafe := h before hbefore
  cases hrun : program before with
  | ok a after => trivial
  | error fault left =>
    rw [hrun] at hsafe
    exact hsafe

end

/-- What a stack hands over is never shorter than what was asked for, so that words read out of it are
whole. -/
theorem Buffer.size_of_top_eq_ok {buffer after : Buffer} {count : Nat} {bytes : Bytes}
    (h : top count buffer = .ok bytes after) : bytes.size = count := by
  unfold top at h
  split at h
  · cases h
  · rename_i henough
    cases h
    rw [Bytes.size_suffix]
    simp only [size] at henough
    omega

/-! ## Programs on a frame -/

namespace Frame

variable {α : Type}

/-- A frame can always be worked on. -/
abbrev SafeOp (op : Op α) : Prop :=
  Safe (fun _ => True) (fun _ => True) op

theorem safe_onStack (op : Buffer.Op α) : SafeOp (onStack op) := by
  intro frame _
  unfold onStack
  cases op frame.stack with
  | ok a stack => trivial
  | error e stack => exact Fault.ordinary_buffer e

theorem safe_onLocals (op : Buffer.Op α) : SafeOp (onLocals op) := by
  intro frame _
  unfold onLocals
  cases op frame.locals with
  | ok a stack => trivial
  | error e stack => exact Fault.ordinary_buffer e

theorem safe_skip (count : Nat) : SafeOp (skip count) :=
  fun _ _ => trivial

theorem safe_jump (distance : Int) : SafeOp (jump distance) := by
  intro frame _
  by_cases htarget : 0 ≤ (frame.pc : Int) + distance ∧ (frame.pc : Int) + distance < UInt64.size
  · simp only [jump, if_pos htarget]
  · simp only [jump, if_neg htarget]
    exact Fault.ordinary_signal (by decide) (by decide)

end Frame

/-! ## Programs on a machine -/

namespace Machine

variable {H α : Type}

/-- A frame is left to run. -/
def Running (m : Machine H) : Prop :=
  m.lane ≠ []

theorem safe_onTop {op : Frame.Op α} (hop : Frame.SafeOp op) :
    Safe (Running (H := H)) Running (onTop op) := by
  intro m hrunning
  obtain ⟨top, rest, hlane⟩ := List.exists_cons_of_ne_nil hrunning
  have hframe := hop top trivial
  simp only [onTop, hlane]
  cases hrun : op top with
  | ok a top' => exact List.cons_ne_nil top' rest
  | error fault top' =>
    rw [hrun] at hframe
    exact hframe

theorem safe_onStack (op : Buffer.Op α) : Safe (Running (H := H)) Running (onStack op) :=
  safe_onTop (Frame.safe_onStack op)

theorem safe_onArguments (op : Buffer.Op α) :
    Safe (Running (H := H)) Running (onArguments op) := by
  intro m hrunning
  unfold onArguments
  cases op m.arguments with
  | ok a arguments => exact hrunning
  | error e arguments => exact Fault.ordinary_buffer e

theorem safe_onMethods (op : Store.Op α) : Safe (Running (H := H)) Running (onMethods op) := by
  intro m hrunning
  unfold onMethods
  cases op m.methods with
  | ok a methods => exact hrunning
  | error e methods => exact Fault.ordinary_store e

theorem safe_counter : Safe (Running (H := H)) Running counter := by
  intro m hrunning
  obtain ⟨top, rest, hlane⟩ := List.exists_cons_of_ne_nil hrunning
  simp only [counter, hlane]
  exact hrunning

theorem safe_immediateHalf : Safe (Running (H := H)) Running immediateHalf :=
  safe_bind safe_counter fun _ => safe_bind (safe_onMethods _) fun _ =>
    safe_bind (safe_onTop (Frame.safe_skip 2)) fun _ => safe_pure _

theorem safe_immediateWord : Safe (Running (H := H)) Running immediateWord :=
  safe_bind safe_counter fun _ => safe_bind (safe_onMethods _) fun _ =>
    safe_bind (safe_onTop (Frame.safe_skip wordSize)) fun _ => safe_pure _

theorem safe_popIdentifier : Safe (Running (H := H)) Running popIdentifier :=
  safe_bind (safe_onStack _) fun _ => safe_pure _

theorem safe_pushImmediate : Safe (Running (H := H)) Running pushImmediate :=
  safe_bind safe_immediateWord fun _ => safe_onStack _

theorem safe_passArgument : Safe (Running (H := H)) Running passArgument :=
  safe_bind safe_immediateHalf fun _ => safe_bind (safe_onStack _) fun _ =>
    safe_bind (safe_onArguments _) fun _ => safe_onStack _

theorem safe_loadLocal : Safe (Running (H := H)) Running loadLocal := by
  refine safe_bind safe_immediateHalf fun offset => safe_onTop ?_
  exact safe_bind (Frame.safe_onLocals _) fun _ => Frame.safe_onStack _

theorem safe_storeLocal : Safe (Running (H := H)) Running storeLocal := by
  refine safe_bind safe_immediateHalf fun offset => safe_onTop ?_
  refine safe_bind (Frame.safe_onStack _) fun word => ?_
  exact safe_bind (Frame.safe_onLocals _) fun _ => Frame.safe_onStack _

theorem safe_jumpIfEqual : Safe (Running (H := H)) Running jumpIfEqual := by
  refine safe_bind (safe_onStack _) fun words => ?_
  obtain ⟨first, second⟩ := words
  dsimp only
  split
  · exact safe_bind safe_immediateHalf fun _ => safe_onTop (Frame.safe_jump _)
  · exact safe_onTop (Frame.safe_skip 2)

theorem safe_spawn (app : Identifier) : Safe (Running (H := H)) Running (spawn app) := by
  intro m hrunning
  unfold spawn
  by_cases hinside : m.lane.insideIndependent = true
  · simp only [hinside, if_true]
    exact Fault.ordinary_signal (by decide) (by decide)
  · by_cases hfull : m.limits.maxLanes.toNat ≤ m.waiting.length + 1
    · simp only [hinside, hfull, if_true]
      exact Fault.ordinary_signal (by decide) (by decide)
    · simp only [hinside, hfull, if_false]
      exact hrunning

theorem safe_enter : Safe (Running (H := H)) Running enter := by
  intro m hrunning
  obtain ⟨top, rest, hlane⟩ := List.exists_cons_of_ne_nil hrunning
  simp only [enter, hlane]
  cases m.isLocked top.context with
  | true => exact Fault.ordinary_signal (by decide) (by decide)
  | false => exact List.cons_ne_nil _ rest

/-! ## Refused unwinds -/

/-- Why `count` bytes of `source` do not go to the first of `kept`: there are not that many, or else the
frame that waits for them has no room. -/
inductive Refusal (source : Frame) (kept : Lane) (count : Nat) : Fault → Prop
  | tooFew (h : source.stack.size < count) : Refusal source kept count (.signal .invalidOperands)
  | noRoom (h : count ≤ source.stack.size) {caller : Frame} {rest : Lane}
      (hkept : kept = caller :: rest) (hroom : caller.stack.ceiling < caller.stack.size + count) :
      Refusal source kept count
        (.buffer (.limitExceeded (caller.stack.size + count) caller.stack.ceiling))

theorem deliveryFault?_eq_some_iff (source : Frame) (more kept : Lane) (count : Nat)
    (fault : Fault) :
    deliveryFault? (source :: more) kept count = some fault ↔ Refusal source kept count fault := by
  unfold deliveryFault?
  constructor
  · intro h
    by_cases hfew : source.stack.size < count
    · simp only [hfew, if_true, Option.some.injEq] at h
      exact h ▸ .tooFew hfew
    · simp only [hfew, if_false] at h
      cases kept with
      | nil => cases h
      | cons caller rest =>
        by_cases hroom : caller.stack.size + count ≤ caller.stack.ceiling
        · simp [Buffer.canGrowBy, hroom] at h
        · simp only [Buffer.canGrowBy, hroom, decide_false, Bool.false_eq_true, if_false,
            Option.some.injEq] at h
          exact h ▸ .noRoom (Nat.not_lt.mp hfew) rfl (Nat.not_le.mp hroom)
  · intro h
    cases h with
    | tooFew hfew => simp [hfew]
    | @noRoom henough caller rest hkept hroom =>
      have hfew : ¬ source.stack.size < count := Nat.not_lt.mpr henough
      have hno : ¬ caller.stack.size + count ≤ caller.stack.ceiling := Nat.not_le.mpr hroom
      simp [hfew, hkept, Buffer.canGrowBy, hno]

theorem Refusal.ordinary {source : Frame} {kept : Lane} {count : Nat} {fault : Fault}
    (h : Refusal source kept count fault) : fault.Ordinary := by
  cases h with
  | tooFew hfew => exact Fault.ordinary_signal (by decide) (by decide)
  | noRoom henough hkept hroom => exact Fault.ordinary_buffer _

/-- What was checked before the frames were dropped is all that the caller's stack asks for. -/
theorem pushBytes_payload {dropped rest : Lane} {caller : Frame} {count : Nat}
    (h : deliveryFault? dropped (caller :: rest) count = none) :
    Buffer.pushBytes (payload dropped count) caller.stack =
      .ok () (caller.stack.append (payload dropped count)) := by
  have hroom := canGrowBy_of_deliveryFault? h
  have hsize := size_payload_le dropped count
  have hgrow : caller.stack.canGrowBy (payload dropped count).size = true := by
    simp only [Buffer.canGrowBy, decide_eq_true_eq]
    omega
  simp only [Buffer.pushBytes, hgrow, if_true]

variable [Heap H]

theorem safe_unwind {source : Frame} (more kept : Lane) (count : Nat) (status : Status) :
    Safe (Running (H := H)) (fun _ => True) (unwind (source :: more) kept count status) := by
  intro m _
  cases hfits : deliveryFault? (source :: more) kept count with
  | none => simp only [unwind, hfits]
  | some fault =>
    simp only [unwind, hfits]
    exact ((deliveryFault?_eq_some_iff source more kept count fault).mp hfits).ordinary

theorem safe_returnBytes (count : Nat) (status : Status) :
    Safe (Running (H := H)) (fun _ => True) (returnBytes count status) := by
  intro m hrunning
  obtain ⟨top, rest, hlane⟩ := List.exists_cons_of_ne_nil hrunning
  rw [returnBytes_eq hlane]
  exact safe_unwind [] rest count status m hrunning

theorem throwBytes_eq {m : Machine H} {top : Frame} {rest : Lane} (hlane : m.lane = top :: rest)
    (count : Nat) (status : Status) :
    ∃ more, throwBytes count status m = unwind (top :: more) m.lane.split.2 count status m := by
  obtain ⟨more, hmore⟩ := Lane.split_cons top rest
  refine ⟨more, ?_⟩
  rw [throwBytes, hlane, hmore]

theorem safe_throwBytes (count : Nat) (status : Status) :
    Safe (Running (H := H)) (fun _ => True) (throwBytes count status) := by
  intro m hrunning
  obtain ⟨top, rest, hlane⟩ := List.exists_cons_of_ne_nil hrunning
  obtain ⟨more, hthrow⟩ := throwBytes_eq hlane count status
  rw [hthrow]
  exact safe_unwind more _ count status m hrunning

/-! ## Calls and all opcodes -/

theorem safe_call (context app method : Identifier) :
    Safe (Running (H := H)) Running (call context app method) := by
  intro m _
  unfold call
  by_cases hfull : m.limits.maxCallStackDepth.toNat ≤ m.depth
  · simp only [hfull, if_true]
    exact Fault.ordinary_signal (by decide) (by decide)
  · simp only [hfull, if_false]
    exact List.cons_ne_nil _ m.lane

theorem safe_markIndependent : Safe (Running (H := H)) Running markIndependent := by
  intro m hrunning
  obtain ⟨top, rest, hlane⟩ := List.exists_cons_of_ne_nil hrunning
  simp only [markIndependent, hlane]
  exact List.cons_ne_nil _ rest

theorem safe_invokeDispatcher : Safe (Running (H := H)) Running invokeDispatcher :=
  safe_bind safe_popIdentifier fun app => safe_call app app .dispatcher

theorem safe_invokeInternal : Safe (Running (H := H)) Running invokeInternal := by
  refine safe_bind safe_popIdentifier fun method => safe_get_bind fun m hrunning => ?_
  obtain ⟨top, rest, hlane⟩ := List.exists_cons_of_ne_nil hrunning
  rintro _ rfl
  rw [hlane]
  exact safe_call top.context top.app method _ hrunning

theorem safe_execute (opcode : Opcode) :
    Safe (Running (H := H)) (fun _ => True) (execute opcode) := by
  cases opcode with
  | noOp => exact (safe_pure _).weaken
  | invokeDispatcher => exact safe_invokeDispatcher.weaken
  | indInvokeDispatcher =>
    exact (safe_bind safe_invokeDispatcher fun _ => safe_markIndependent).weaken
  | spawnDispatcher => exact (safe_bind safe_popIdentifier fun app => safe_spawn app).weaken
  | invokeInternal => exact safe_invokeInternal.weaken
  | indInvokeInternal => exact (safe_bind safe_invokeInternal fun _ => safe_markIndependent).weaken
  | ret0 => exact safe_returnBytes 0 .noError
  | ret64 => exact safe_returnBytes wordSize .noError
  | throw => exact safe_bind (safe_onStack _) fun count => safe_throwBytes count .softwareError
  | enter => exact safe_enter.weaken
  | pushC64 => exact safe_pushImmediate.weaken
  | pop => exact (safe_bind (safe_onStack _) fun _ => safe_pure _).weaken
  | iAdd => exact (safe_onStack _).weaken
  | iSub => exact (safe_onStack _).weaken
  | argC16 => exact safe_passArgument.weaken
  | lfLoadC16 => exact safe_loadLocal.weaken
  | lfStoreC16 => exact safe_storeLocal.weaken
  | jmpEqC16 => exact safe_jumpIfEqual.weaken

/-! ## The fault of a step -/

/-- A byte that stands for no opcode fails the step, whatever else the machine holds. -/
theorem fault?_of_unassigned {m : Machine H} {byte : UInt8} (hbyte : m.byte? = some byte)
    (hunassigned : Opcode.ofByte? byte = none) : m.fault? = some (.invalidOpcode byte) := by
  rw [byte?] at hbyte
  cases hfetch : fetch m with
  | error fault left =>
    rw [hfetch] at hbyte
    cases hbyte
  | ok fetched worked =>
    rw [hfetch] at hbyte
    dsimp only at hbyte
    subst hbyte
    have hrun : instruction m = .error (.invalidOpcode byte) worked := by
      simp only [instruction, bind, EStateM.bind, hfetch, hunassigned]
      rfl
    exact (m.fault?_eq_some_iff _).mpr ⟨worked, hrun⟩

/-- The fault of a step is ordinary, or the byte read stands for no opcode. -/
theorem fault_cases {m : Machine H} {fault : Fault} (h : m.fault? = some fault) :
    fault.Ordinary ∨ ∃ byte, m.byte? = some byte ∧ Opcode.ofByte? byte = none ∧
      fault = .invalidOpcode byte := by
  obtain ⟨left, hrun⟩ := (m.fault?_eq_some_iff fault).mp h
  obtain ⟨top, rest, hlane⟩ := List.exists_cons_of_ne_nil (lane_ne_nil_of_fault hrun)
  rcases fetch_cases hlane with ⟨error, hfetch⟩ | ⟨byte, worked, hfetch, hworked⟩
  · simp only [instruction, bind, EStateM.bind, hfetch] at hrun
    cases hrun
    exact .inl (Fault.ordinary_store error)
  · have hbyte : m.byte? = some byte := by simp only [byte?, hfetch]
    cases hopcode : Opcode.ofByte? byte with
    | none =>
      rw [fault?_of_unassigned hbyte hopcode] at h
      exact .inr ⟨byte, hbyte, hopcode, (Option.some.inj h).symm⟩
    | some opcode =>
      have hdecoded : m.opcode? = some opcode := by
        rw [opcode?, hbyte, Option.bind_some, hopcode]
      obtain ⟨top', rest', worked', hworked', hexecute⟩ := exists_decoded hdecoded
      rw [hexecute] at hrun
      have hrunning : Running worked' := by
        rw [Running, hworked'.lane]
        exact List.cons_ne_nil _ _
      have hsafe := safe_bind (safe_execute (H := H) opcode) fun _ => safe_pure false
      exact .inl (hsafe.of_error hrunning hrun)

theorem status_unwound (m : Machine H) (dropped kept : Lane) (count : Nat) (status : Status) :
    (m.unwound dropped kept count status).status = status := by
  cases m.onward status kept with
  | caller caller rest => rw [unwound_caller]
  | next hstatus hwaiting => rw [unwound_next m dropped count hstatus hwaiting]
  | last hends => rw [unwound_last m dropped count hends]

theorem status_step_of_fault {m : Machine H} (hbounded : m.Bounded) {fault : Fault}
    (h : m.fault? = some fault) : m.step.2.status = fault.status := by
  obtain ⟨left, hrun⟩ := (m.fault?_eq_some_iff fault).mp h
  rw [step_of_fault hbounded hrun, status_unwound]

theorem fault_status_ne_noError {m : Machine H} {fault : Fault} (h : m.fault? = some fault) :
    fault.status ≠ .noError := by
  rcases fault_cases h with hordinary | ⟨byte, -, -, rfl⟩
  · exact hordinary.1
  · exact Status.noConfusion

/-! ## Unwinds as a whole -/

/-- The unwind takes bytes from `source` and gives them to the first of `kept`.  It is refused, and then
it has changed nothing at all; or else the frame that waits, if there is one, takes the bytes as a push
onto its stack, and that push is not refused. -/
def UnwindsWhole (m : Machine H) (source : Frame) (kept : Lane)
    (program : Nat → Status → Exec H Unit) : Prop :=
  ∀ count status,
    (∀ fault left, program count status m = .error fault left ↔
      left = m ∧ Refusal source kept count fault) ∧
    ∀ after, program count status m = .ok () after → ∀ caller rest, kept = caller :: rest →
      ∃ stack, Buffer.pushBytes (Bytes.suffix source.stack.contents count) caller.stack =
        .ok () stack ∧ after.lane = { caller with stack } :: rest

theorem unwindsWhole_of_eq {m : Machine H} {source : Frame} {kept : Lane}
    {program : Nat → Status → Exec H Unit}
    (h : ∀ count status, ∃ more,
      program count status m = unwind (source :: more) kept count status m) :
    m.UnwindsWhole source kept program := by
  intro count status
  obtain ⟨more, hprogram⟩ := h count status
  rw [hprogram]
  constructor
  · intro fault left
    rw [unwind_eq_error_iff, deliveryFault?_eq_some_iff, and_comm]
  · rintro after hok caller rest rfl
    obtain ⟨hfits, rfl⟩ := unwind_eq_ok hok
    refine ⟨_, pushBytes_payload hfits, ?_⟩
    rw [unwound_caller]

/-- From every machine that a session reaches before it is complete: returns and throws go through whole
or not at all; a throw without bytes goes through, so that the answer to a fault is that throw and never
an abort; the stack never hands over less than it was asked for, and no step fails because the machine
lost track of itself or with a fault that says all is well; and a step that fails leaves `runtimeError`
exactly if it read a byte that stands for no opcode. -/
theorem faults_contained (session : Session H) {m : Machine H} (hreach : session.Reaches m)
    {top : Frame} {rest : Lane} (hlane : m.lane = top :: rest) :
    m.UnwindsWhole top rest returnBytes ∧
    m.UnwindsWhole top m.lane.split.2 throwBytes ∧
    (∀ status, ∃ after, throwBytes 0 status m = .ok () after) ∧
    (∀ fault left, instruction m = .error fault left →
      throwBytes 0 fault.status (left.emit (.failed fault)) = .ok () m.step.2) ∧
    (∀ count bytes after, Buffer.top count top.stack = .ok bytes after → bytes.size = count) ∧
    ∀ fault, m.fault? = some fault →
      (∀ reason, fault ≠ .internal reason) ∧ fault.status ≠ .noError ∧
      (m.step.2.status = .runtimeError ↔
        ∃ byte, m.byte? = some byte ∧ Opcode.ofByte? byte = none) := by
  obtain ⟨n, rfl⟩ := hreach
  have hbounded := session.bounded_state n
  have hne : (session.state n).lane ≠ [] := by
    rw [hlane]
    exact List.cons_ne_nil top rest
  refine ⟨?_, ?_, ?_, ?_, fun _ _ _ => Buffer.size_of_top_eq_ok, ?_⟩
  · exact unwindsWhole_of_eq fun count status => ⟨[], returnBytes_eq hlane count status⟩
  · exact unwindsWhole_of_eq fun count status => throwBytes_eq hlane count status
  · intro status
    exact ⟨_, throwBytes_zero hbounded hne status⟩
  · intro fault left hrun
    have hwork : (session.state n).Evolves (left.emit (.failed fault)) :=
      (evolves_of_fault hrun).trans (evolves_emit left _)
    rw [step_of_fault hbounded hrun]
    exact throwBytes_zero (hwork.bounded hbounded) (hwork.lane_ne_nil hne) fault.status
  · intro fault hfault
    rw [status_step_of_fault hbounded hfault]
    refine ⟨?_, fault_status_ne_noError hfault, ?_⟩
    · intro reason
      rcases fault_cases hfault with hordinary | ⟨byte, -, -, rfl⟩
      · exact hordinary.ne_internal reason
      · exact Fault.noConfusion
    · constructor
      · intro hstatus
        rcases fault_cases hfault with hordinary | ⟨byte, hbyte, hunassigned, -⟩
        · exact absurd hstatus hordinary.2
        · exact ⟨byte, hbyte, hunassigned⟩
      · rintro ⟨byte, hbyte, hunassigned⟩
        rw [fault?_of_unassigned hbyte hunassigned] at hfault
        rw [← Option.some.inj hfault]
        rfl

/-- The refused spawn of a frame that was called independently. -/
theorem faults_contained_refusedSpawn :
    ∃ top rest, (refusedSpawn.state 3).lane = top :: rest ∧ rest ≠ [] ∧
      (refusedSpawn.state 3).UnwindsWhole top rest returnBytes ∧
      (refusedSpawn.state 3).fault? = some (.signal .invalidSpawnState) ∧
      (refusedSpawn.state 3).step.2.status ≠ .runtimeError := by
  have hne : (refusedSpawn.state 3).lane ≠ [] := by decide +kernel
  have htail : (refusedSpawn.state 3).lane.tail ≠ [] := by decide +kernel
  have hfault : (refusedSpawn.state 3).fault? = some (.signal .invalidSpawnState) := by
    decide +kernel
  have hassigned : (refusedSpawn.state 3).byte? = some Opcode.spawnDispatcher.byte := by
    decide +kernel
  obtain ⟨top, rest, hlane⟩ := List.exists_cons_of_ne_nil hne
  rw [hlane] at htail
  obtain ⟨hreturns, -, -, -, -, hfaults⟩ := faults_contained refusedSpawn ⟨3, rfl⟩ hlane
  obtain ⟨-, -, hstatus⟩ := hfaults _ hfault
  refine ⟨top, rest, hlane, htail, hreturns, hfault, ?_⟩
  rw [ne_eq, hstatus]
  rintro ⟨byte, hbyte, hunassigned⟩
  rw [hassigned, Option.some.injEq] at hbyte
  rw [← hbyte, Opcode.ofByte?_byte] at hunassigned
  cases hunassigned

end Machine

end LaneMachine
