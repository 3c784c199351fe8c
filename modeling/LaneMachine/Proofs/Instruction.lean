import LaneMachine.Proofs.FaultIsolation
set_option autoImplicit false

/-!
# The instruction of a step

`Effect` lists what a step may do and forgets which instruction did it.  Here the two are
tied together: `opcode?` is the opcode that the next step decodes, `Opcode.role` sorts
opcodes by what they are there for, and `Does` says what an instruction of each role has
done once it completes.

A step from a machine that has a frame either fails, and then `step_of_fault` says where it
ends, or its opcode does what its role says (`exists_does`).
-/

namespace LaneMachine

/-- What an instruction is there for. -/
inductive Opcode.Role where
  /-- works in the running frame alone -/
  | work
  /-- takes the lock of the running frame's context -/
  | enter
  /-- calls a method -/
  | call
  /-- calls a method independently -/
  | callIndependent
  /-- queues a lane -/
  | spawn
  /-- returns this many bytes -/
  | ret (count : Nat)
  /-- throws what the stack says -/
  | throw
  deriving DecidableEq, Repr

/-- The role of an opcode. -/
def Opcode.role : Opcode → Opcode.Role
  | .invokeDispatcher | .invokeInternal => .call
  | .indInvokeDispatcher | .indInvokeInternal => .callIndependent
  | .spawnDispatcher => .spawn
  | .ret0 => .ret 0
  | .ret64 => .ret wordSize
  | .throw => .throw
  | .enter => .enter
  | .noOp | .pushC64 | .pop | .iAdd | .iSub | .argC16 | .lfLoadC16 | .lfStoreC16 | .jmpEqC16 => .work

theorem exists_of_bind_eq_ok {ε σ α β : Type} {program : EStateM ε σ α} {next : α → EStateM ε σ β}
    {before after : σ} {b : β} (h : (program >>= next) before = .ok b after) :
    ∃ a middle, program before = .ok a middle ∧ next a middle = .ok b after := by
  simp only [bind, EStateM.bind] at h
  split at h
  · rename_i a middle hrun
    exact ⟨a, middle, hrun, h⟩
  · cases h

/-- A throw moves the 16-bit value on top of the stack and as many bytes as it says.  Sizing it up leaves
the stack alone. -/
theorem Buffer.thrownSize_eq_ok {buffer after : Buffer} {count : Nat}
    (h : thrownSize buffer = .ok count after) :
    after = buffer ∧ count = natOfBytes (Bytes.suffix buffer.contents 2).toList + 2 ∧
      count ≤ buffer.size := by
  obtain ⟨bytes, middle, htop, hrest⟩ := exists_of_bind_eq_ok h
  unfold top at htop
  split at htop
  · cases htop
  · cases htop
    obtain ⟨found, same, hget, hrest⟩ := exists_of_bind_eq_ok hrest
    cases hget
    dsimp only at hrest
    split at hrest
    · cases hrest
    · rename_i henough
      cases hrest
      exact ⟨rfl, rfl, Nat.not_lt.mp henough⟩

namespace Machine

variable {H : Type}

/-! ## Decoding -/

/-- The byte that the next step reads, if there is a frame and its code goes on that far. -/
def byte? (m : Machine H) : Option UInt8 :=
  match fetch m with
  | .ok byte _ => byte
  | .error _ _ => none

/-- The opcode that the next step decodes. -/
def opcode? (m : Machine H) : Option Opcode :=
  m.byte?.bind Opcode.ofByte?

/-- The role of that opcode. -/
def role? (m : Machine H) : Option Opcode.Role :=
  m.opcode?.map Opcode.role

/-- The machine `worked` is `m` with the running frame, `top`, moved past its opcode. -/
structure Decoded (m : Machine H) (top : Frame) (rest : Lane) (worked : Machine H) : Prop where
  before : m.lane = top :: rest
  lane : worked.lane = { top with pc := top.pc + 1 } :: rest
  limits : worked.limits = m.limits
  waiting : worked.waiting = m.waiting
  status : worked.status = m.status
  locks : worked.locks = m.locks
  arguments : worked.arguments = m.arguments
  output : worked.output = m.output
  methods : m.methods.Agrees worked.methods
  heap : worked.heap = m.heap

theorem Decoded.evolves {m worked : Machine H} {top : Frame} {rest : Lane}
    (h : m.Decoded top rest worked) : m.Evolves worked where
  limits := h.limits
  lane := by
    rw [h.before, h.lane]
    exact .cons (Frame.keeps_skip 1 top)
  waiting := h.waiting
  status := h.status
  locks := h.locks
  arguments := h.arguments ▸ .refl _
  output := h.output
  methods := h.methods
  heap := h.heap

/-- A machine with a frame finds no code there, or reads a byte and moves past it. -/
theorem fetch_cases {m : Machine H} {top : Frame} {rest : Lane} (hlane : m.lane = top :: rest) :
    (∃ error, fetch m = .error (.store error) m) ∨
      ∃ byte worked, fetch m = .ok (some byte) worked ∧ m.Decoded top rest worked := by
  cases hread : Store.loadByte top.pc m.methods with
  | error e methods =>
    have hsame : methods = m.methods := by
      unfold Store.loadByte at hread
      split at hread
      · cases hread
        rfl
      · cases hread
    refine .inl ⟨e, ?_⟩
    simp only [fetch, hlane, bind, EStateM.bind, onMethods, hread, hsame]
    rw [← hlane]
  | ok byte methods =>
    have hmethods := (Store.keeps_loadByte top.pc).of_ok hread
    refine .inr ⟨byte, { m with lane := { top with pc := top.pc + 1 } :: rest, methods }, ?_,
      hlane, rfl, rfl, rfl, rfl, rfl, rfl, rfl, hmethods, rfl⟩
    simp only [fetch, hlane, bind, EStateM.bind, onMethods, hread, onTop, Frame.skip, pure,
      EStateM.pure]

theorem lane_ne_nil_of_opcode? {m : Machine H} {opcode : Opcode} (h : m.opcode? = some opcode) :
    m.lane ≠ [] := by
  intro hlane
  simp [opcode?, byte?, fetch, hlane] at h

theorem lane_ne_nil_of_role? {m : Machine H} {role : Opcode.Role} (h : m.role? = some role) :
    m.lane ≠ [] := by
  obtain ⟨opcode, hopcode, -⟩ := Option.map_eq_some_iff.mp h
  exact lane_ne_nil_of_opcode? hopcode

theorem ret_cases {m : Machine H} {count : Nat} (h : m.role? = some (.ret count)) :
    (m.opcode? = some .ret0 ∧ count = 0) ∨ (m.opcode? = some .ret64 ∧ count = wordSize) := by
  obtain ⟨opcode, hopcode, hret⟩ := Option.map_eq_some_iff.mp h
  cases opcode with
  | ret0 =>
    cases hret
    exact .inl ⟨hopcode, rfl⟩
  | ret64 =>
    cases hret
    exact .inr ⟨hopcode, rfl⟩
  | _ => cases hret

theorem throw_of_role? {m : Machine H} (h : m.role? = some .throw) : m.opcode? = some .throw := by
  obtain ⟨opcode, hopcode, hthrow⟩ := Option.map_eq_some_iff.mp h
  cases opcode with
  | throw => exact hopcode
  | _ => cases hthrow

variable [Heap H]

/-- The machine once the running frame, `top`, has moved past its opcode and the instruction is
reported.  The read has left `methods`. -/
def announced (m : Machine H) (top : Frame) (rest : Lane) (opcode : Opcode) (methods : Store) :
    Machine H :=
  { m with
    lane := { top with pc := top.pc + 1 } :: rest
    methods
    trace := .execute opcode top.pc m.depth :: m.trace }

omit [Heap H] in
theorem decoded_announced {m : Machine H} {top : Frame} {rest : Lane} (hlane : m.lane = top :: rest)
    {methods : Store} (hmethods : m.methods.Agrees methods) (opcode : Opcode) :
    m.Decoded top rest (m.announced top rest opcode methods) :=
  ⟨hlane, rfl, rfl, rfl, rfl, rfl, rfl, rfl, hmethods, rfl⟩

/-- A step whose opcode is known is that opcode's instruction on the machine that announced it. -/
theorem exists_announced {m : Machine H} {opcode : Opcode} (h : m.opcode? = some opcode) :
    ∃ top rest methods, m.lane = top :: rest ∧ m.methods.Agrees methods ∧
      instruction m =
        (do execute opcode; return false : Exec H Bool) (m.announced top rest opcode methods) := by
  obtain ⟨top, rest, hlane⟩ := List.exists_cons_of_ne_nil (lane_ne_nil_of_opcode? h)
  cases hread : Store.loadByte top.pc m.methods with
  | error e methods =>
    simp only [opcode?, byte?, fetch, hlane, bind, EStateM.bind, onMethods, hread] at h
    cases h
  | ok byte methods =>
    simp only [opcode?, byte?, fetch, hlane, bind, EStateM.bind, onMethods, hread, onTop, Frame.skip,
      pure, EStateM.pure, Option.bind_some] at h
    refine ⟨top, rest, methods, hlane, (Store.keeps_loadByte top.pc).of_ok hread, ?_⟩
    simp only [instruction, bind, EStateM.bind, fetch, hlane, onMethods, hread, onTop, Frame.skip, pure,
      EStateM.pure, h, announce, emit, depth, Nat.add_sub_cancel, List.length_cons, announced]

theorem exists_decoded {m : Machine H} {opcode : Opcode} (h : m.opcode? = some opcode) :
    ∃ top rest worked, m.Decoded top rest worked ∧
      instruction m = (do execute opcode; return false : Exec H Bool) worked := by
  obtain ⟨top, rest, methods, hlane, hmethods, hrun⟩ := exists_announced h
  exact ⟨top, rest, _, decoded_announced hlane hmethods opcode, hrun⟩

theorem fault?_eq_none_iff (m : Machine H) :
    m.fault? = none ↔ ∃ finished after, instruction m = .ok finished after := by
  unfold fault?
  cases instruction m with
  | ok finished after => simp
  | error fault left => simp

theorem fault?_eq_some_iff (m : Machine H) (fault : Fault) :
    m.fault? = some fault ↔ ∃ left, instruction m = .error fault left := by
  unfold fault?
  cases instruction m with
  | ok finished after => simp
  | error found left => simp

/-- A step that does not fail has decoded an opcode. -/
theorem exists_opcode_of_fault?_eq_none {m : Machine H} (hfault : m.fault? = none)
    (hne : m.lane ≠ []) : ∃ opcode, m.opcode? = some opcode := by
  obtain ⟨finished, after, hrun⟩ := m.fault?_eq_none_iff.mp hfault
  obtain ⟨top, rest, hlane⟩ := List.exists_cons_of_ne_nil hne
  obtain ⟨fetched, worked, hfetch, hrest⟩ := exists_of_bind_eq_ok hrun
  rcases fetch_cases hlane with ⟨error, hnone⟩ | ⟨byte, worked', hsome, -⟩
  · rw [hfetch] at hnone
    cases hnone
  · rw [hfetch] at hsome
    cases hsome
    cases hopcode : Opcode.ofByte? byte with
    | none =>
      simp only [hopcode] at hrest
      cases hrest
    | some opcode => exact ⟨opcode, by simp [opcode?, byte?, hfetch, hopcode]⟩

/-! ## What a completed instruction has done -/

/-- What an instruction of each role has done to the machine `m`, whose running frame is `top`. -/
inductive Does (m : Machine H) (top : Frame) (rest : Lane) : Opcode.Role → Machine H → Prop
  | work {after : Machine H} (h : m.Evolves after) : Does m top rest .work after
  | enter (hfree : m.isLocked top.context = false) : Does m top rest .enter (m.entered top rest)
  | call {word : UInt64} {stack : Buffer} (hpop : Buffer.pop top.stack = .ok word stack)
      (context app method : Identifier) :
      Does m top rest .call
        ({ m with lane := { top with stack } :: rest }.called context app method)
  | callIndependent {word : UInt64} {stack : Buffer} (hpop : Buffer.pop top.stack = .ok word stack)
      (context app method : Identifier) :
      Does m top rest .callIndependent
        ({ m with lane := { top with stack } :: rest }.calledIndependently context app method)
  | spawn {word : UInt64} {stack : Buffer} (hpop : Buffer.pop top.stack = .ok word stack) :
      Does m top rest .spawn ({ m with lane := { top with stack } :: rest }.spawned ⟨word⟩)
  | ret {count : Nat} (hfits : deliveryFault? [top] rest count = none) :
      Does m top rest (.ret count) (m.unwound [top] rest count .noError)
  | throw {count : Nat} (hsize : Buffer.thrownSize top.stack = .ok count top.stack)
      (hfits : deliveryFault? m.lane.split.1 m.lane.split.2 count = none) :
      Does m top rest .throw (m.unwound m.lane.split.1 m.lane.split.2 count .softwareError)

section

variable {m after : Machine H} {top : Frame} {rest : Lane} (hlane : m.lane = top :: rest)

omit [Heap H] in
include hlane in
theorem onStack_eq_ok {α : Type} {op : Buffer.Op α} {a : α} (h : onStack op m = .ok a after) :
    ∃ stack, op top.stack = .ok a stack ∧
      after = { m with lane := { top with stack } :: rest } := by
  simp only [onStack, onTop, hlane, Frame.onStack] at h
  cases hop : op top.stack with
  | ok value stack =>
    rw [hop] at h
    cases h
    exact ⟨stack, rfl, rfl⟩
  | error e stack =>
    rw [hop] at h
    cases h

omit [Heap H] in
include hlane in
theorem popIdentifier_eq_ok {id : Identifier} (h : popIdentifier m = .ok id after) :
    ∃ stack, Buffer.pop top.stack = .ok id.value stack ∧
      after = { m with lane := { top with stack } :: rest } := by
  obtain ⟨word, middle, hpop, hrest⟩ := exists_of_bind_eq_ok h
  cases hrest
  exact onStack_eq_ok hlane hpop

theorem call_eq_ok {context app method : Identifier} (h : call context app method m = .ok () after) :
    after = m.called context app method := by
  unfold call at h
  split at h
  · cases h
  · cases h
    rfl

theorem call_markIndependent_eq_ok {context app method : Identifier}
    (h : (do call context app method; markIndependent : Exec H Unit) m = .ok () after) :
    after = m.calledIndependently context app method := by
  obtain ⟨_, middle, hcall, hmark⟩ := exists_of_bind_eq_ok h
  rw [call_eq_ok hcall] at hmark
  cases hmark
  rfl

omit [Heap H] in
theorem spawn_eq_ok {app : Identifier} (h : spawn app m = .ok () after) :
    after = m.spawned app := by
  unfold spawn at h
  split at h
  · cases h
  · split at h
    · cases h
    · cases h
      rfl

theorem unwind_eq_ok {dropped kept : Lane} {count : Nat} {status : Status}
    (h : unwind dropped kept count status m = .ok () after) :
    deliveryFault? dropped kept count = none ∧ after = m.unwound dropped kept count status := by
  unfold unwind at h
  split at h
  · cases h
  · rename_i hfits
    cases h
    exact ⟨hfits, rfl⟩

include hlane in
theorem returnBytes_eq (count : Nat) (status : Status) :
    returnBytes count status m = unwind [top] rest count status m := by
  simp only [returnBytes, hlane]

/-- An internal call stays in the context and the application of the running frame. -/
theorem invokeInternal_then_eq_ok {α : Type} {next : Exec H α} {a : α}
    (h : (do invokeInternal; next : Exec H α) m = .ok a after) :
    ∃ method middle context app, popIdentifier m = .ok method middle ∧
      (do call context app method; next : Exec H α) middle = .ok a after := by
  unfold invokeInternal at h
  rw [bind_assoc] at h
  obtain ⟨method, middle, hpop, hrest⟩ := exists_of_bind_eq_ok h
  rw [bind_assoc] at hrest
  obtain ⟨found, same, hget, hrest⟩ := exists_of_bind_eq_ok hrest
  cases hget
  split at hrest
  · cases hrest
  · exact ⟨method, middle, _, _, hpop, hrest⟩

include hlane in
/-- Every instruction that completes has done what its role says. -/
theorem does_of_execute {opcode : Opcode} (h : execute opcode m = .ok () after) :
    Does m top rest opcode.role after := by
  cases opcode with
  | noOp => exact .work ((keeps_pure ()).of_ok h)
  | invokeDispatcher =>
    obtain ⟨app, middle, hpop, hcall⟩ := exists_of_bind_eq_ok h
    obtain ⟨stack, hstack, rfl⟩ := popIdentifier_eq_ok hlane hpop
    rw [call_eq_ok hcall]
    exact .call hstack app app .dispatcher
  | indInvokeDispatcher =>
    simp only [execute, invokeDispatcher, bind_assoc] at h
    obtain ⟨app, middle, hpop, hcall⟩ := exists_of_bind_eq_ok h
    obtain ⟨stack, hstack, rfl⟩ := popIdentifier_eq_ok hlane hpop
    rw [call_markIndependent_eq_ok hcall]
    exact .callIndependent hstack app app .dispatcher
  | spawnDispatcher =>
    obtain ⟨app, middle, hpop, hspawn⟩ := exists_of_bind_eq_ok h
    obtain ⟨stack, hstack, rfl⟩ := popIdentifier_eq_ok hlane hpop
    rw [spawn_eq_ok hspawn]
    exact .spawn hstack
  | invokeInternal =>
    rw [execute, ← bind_pure_unit (x := invokeInternal)] at h
    obtain ⟨method, middle, context, app, hpop, hcall⟩ := invokeInternal_then_eq_ok h
    obtain ⟨stack, hstack, rfl⟩ := popIdentifier_eq_ok hlane hpop
    rw [bind_pure_unit] at hcall
    rw [call_eq_ok hcall]
    exact .call hstack context app method
  | indInvokeInternal =>
    obtain ⟨method, middle, context, app, hpop, hcall⟩ := invokeInternal_then_eq_ok h
    obtain ⟨stack, hstack, rfl⟩ := popIdentifier_eq_ok hlane hpop
    rw [call_markIndependent_eq_ok hcall]
    exact .callIndependent hstack context app method
  | ret0 =>
    rw [execute, returnBytes_eq hlane] at h
    obtain ⟨hfits, rfl⟩ := unwind_eq_ok h
    exact .ret hfits
  | ret64 =>
    rw [execute, returnBytes_eq hlane] at h
    obtain ⟨hfits, rfl⟩ := unwind_eq_ok h
    exact .ret hfits
  | throw =>
    obtain ⟨count, middle, hcount, hthrow⟩ := exists_of_bind_eq_ok h
    obtain ⟨stack, hsize, hmiddle⟩ := onStack_eq_ok hlane hcount
    obtain ⟨rfl, -⟩ := Buffer.thrownSize_eq_ok hsize
    have hsame : middle = m := by rw [hmiddle, ← hlane]
    subst hsame
    obtain ⟨hfits, rfl⟩ := unwind_eq_ok hthrow
    exact .throw hsize hfits
  | enter =>
    simp only [execute, enter, hlane] at h
    split at h
    · cases h
    · rename_i hfree
      cases h
      exact .enter (Bool.eq_false_iff.mpr hfree)
  | pushC64 => exact .work (keeps_pushImmediate.of_ok h)
  | pop =>
    exact .work ((keeps_bind (keeps_onStack Buffer.keeps_pop) fun _ => keeps_pure ()).of_ok h)
  | iAdd => exact .work ((keeps_onStack (Buffer.keeps_combineTwo _)).of_ok h)
  | iSub => exact .work ((keeps_onStack (Buffer.keeps_combineTwo _)).of_ok h)
  | argC16 => exact .work (keeps_passArgument.of_ok h)
  | lfLoadC16 => exact .work (keeps_loadLocal.of_ok h)
  | lfStoreC16 => exact .work (keeps_storeLocal.of_ok h)
  | jmpEqC16 => exact .work (keeps_jumpIfEqual.of_ok h)

end

/-- A step that does not fail executes its opcode on the machine that announced it. -/
theorem exists_executed {m : Machine H} (hfault : m.fault? = none) {opcode : Opcode}
    (hopcode : m.opcode? = some opcode) :
    ∃ top rest methods, m.lane = top :: rest ∧ m.methods.Agrees methods ∧
      execute opcode (m.announced top rest opcode methods) = .ok () m.step.2 := by
  obtain ⟨top, rest, methods, hlane, hmethods, hrun⟩ := exists_announced hopcode
  obtain ⟨finished, after, hok⟩ := m.fault?_eq_none_iff.mp hfault
  have hstep : m.step.2 = after := by simp only [step, hok]
  rw [hrun] at hok
  obtain ⟨_, middle, hexecute, hpure⟩ := exists_of_bind_eq_ok hok
  cases hpure
  refine ⟨top, rest, methods, hlane, hmethods, ?_⟩
  rw [hstep]
  exact hexecute

/-- A step that does not fail decodes an opcode and does what the opcode's role says. -/
theorem exists_does {m : Machine H} (hfault : m.fault? = none) (hne : m.lane ≠ []) :
    ∃ role top rest worked, m.role? = some role ∧ m.Decoded top rest worked ∧
      Does worked { top with pc := top.pc + 1 } rest role m.step.2 := by
  obtain ⟨opcode, hopcode⟩ := exists_opcode_of_fault?_eq_none hfault hne
  obtain ⟨top, rest, methods, hlane, hmethods, hexecute⟩ := exists_executed hfault hopcode
  refine ⟨opcode.role, top, rest, _, ?_, decoded_announced hlane hmethods opcode, ?_⟩
  · rw [role?, hopcode, Option.map_some]
  · exact does_of_execute rfl hexecute

/-- An instruction that neither returns nor throws drops no frame and takes nothing off the queue. -/
theorem Does.grows {m after : Machine H} {top : Frame} {rest : Lane} {role : Opcode.Role}
    (h : Does m top rest role after) (hlane : m.lane = top :: rest)
    (hret : ∀ count, role ≠ .ret count) (hthrow : role ≠ .throw) :
    m.depth ≤ after.depth ∧ m.waiting <+: after.waiting := by
  have hdepth : m.depth = rest.length + 1 := by rw [depth, hlane, List.length_cons]
  cases h with
  | work hwork => exact ⟨Nat.le_of_eq hwork.depth_eq.symm, hwork.grows⟩
  | enter hfree => exact ⟨Nat.le_of_eq hdepth, List.prefix_rfl⟩
  | call hpop context app method =>
    rw [hdepth]
    exact ⟨Nat.le_succ _, List.prefix_rfl⟩
  | callIndependent hpop context app method =>
    rw [hdepth]
    exact ⟨Nat.le_succ _, List.prefix_rfl⟩
  | spawn hpop => exact ⟨Nat.le_of_eq hdepth, List.prefix_append _ _⟩
  | ret hfits => exact absurd rfl (hret _)
  | throw hsize hfits => exact absurd rfl hthrow

end Machine

end LaneMachine
