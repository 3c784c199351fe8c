import LaneMachine.Proofs.Evolution
set_option autoImplicit false

/-!
# What a step does

Every step of a machine is one of a few effects: the running frame works on, it takes
the lock of its context, it calls or spawns, or frames are dropped by a return or a
throw.  `Effect` lists them with everything that guards them.  An instruction that
completes has one of these effects, and one that fails has only evolved
(`performs_instruction`), so that the throw that follows is an unwind like any other.

Later modules prove an invariant by cases on `Effect` and never open an instruction.
-/

namespace LaneMachine

/-! ## Where an unwind cuts the lane -/

namespace Lane

/-- The ways in which a lane is cut: a return drops the running frame, a throw drops every frame
down to its boundary. -/
inductive Cut : (lane dropped kept : Lane) → Status → Prop
  | byReturn (top : Frame) (rest : Lane) : Cut (top :: rest) [top] rest .noError
  | byThrow {lane : Lane} (h : lane ≠ []) (status : Status) :
      Cut lane lane.split.1 lane.split.2 status

variable {lane dropped kept : Lane} {status : Status}

theorem Cut.append_eq (h : Cut lane dropped kept status) : dropped ++ kept = lane := by
  cases h with
  | byReturn top rest => rfl
  | byThrow hne => exact split_append lane

theorem Cut.ne_nil (h : Cut lane dropped kept status) : dropped ≠ [] := by
  cases h with
  | byReturn top rest => exact List.cons_ne_nil top []
  | byThrow hne =>
    obtain ⟨top, rest, rfl⟩ := List.exists_cons_of_ne_nil hne
    obtain ⟨more, hmore⟩ := split_cons top rest
    rw [hmore]
    exact List.cons_ne_nil top more

/-- Changing the running frame moves no boundary. -/
theorem split_congr {before after : Frame} (rest : Lane)
    (h : after.independent = before.independent) :
    split (after :: rest) = (after :: (split (before :: rest)).1.tail, (split (before :: rest)).2) := by
  cases rest with
  | nil => rfl
  | cons below rest =>
    simp only [split, h]
    split <;> rfl

/-- Above its lowest frame, a throw drops no independent frame. -/
theorem not_independent_of_mem_dropLast_split (lane : Lane) :
    ∀ frame ∈ lane.split.1.dropLast, frame.independent = false := by
  fun_induction split lane with
  | case1 => simp
  | case2 bottom => simp
  | case3 top below rest hind => simp
  | case4 top below rest hind dropped kept hsplit ih =>
    obtain ⟨more, hmore⟩ := split_cons below rest
    rw [hsplit] at ih hmore
    simp only at ih hmore
    subst hmore
    intro frame hmem
    rw [List.dropLast_cons_of_ne_nil (List.cons_ne_nil below more)] at hmem
    rcases List.mem_cons.mp hmem with rfl | hmem
    · exact Bool.eq_false_iff.mpr hind
    · exact ih frame hmem

theorem Cut.not_independent_of_mem_dropLast (h : Cut lane dropped kept status) :
    ∀ frame ∈ dropped.dropLast, frame.independent = false := by
  cases h with
  | byReturn top rest => simp
  | byThrow hne => exact not_independent_of_mem_dropLast_split lane

/-- An error stops inside the lane only at an independent frame. -/
theorem Cut.independent_of_isError (h : Cut lane dropped kept status)
    (hkept : kept ≠ []) (hstatus : status.isError = true) :
    dropped.getLast?.any Frame.independent = true := by
  cases h with
  | byReturn top rest => simp [Status.isError] at hstatus
  | byThrow hne => exact independent_getLast?_split lane hkept

end Lane

namespace Machine

variable {H α : Type}

/-! ## Unwinding, case by case -/

/-- What an unwind does to the heap before the machine turns to the frame that runs next. -/
def resolveHeap [Heap H] (status : Status) (closes : Bool) (heap : H) : H :=
  if status.isError then Heap.restore heap else if closes then Heap.discard heap else heap

/-- The event that reports it. -/
def resolution (status : Status) (closes : Bool) : List Event :=
  if status.isError then [.restored] else if closes then [.discarded] else []

theorem resolved_eq [Heap H] (m : Machine H) (status : Status) (closes : Bool) :
    m.resolved status closes =
      { m with
        heap := resolveHeap status closes m.heap
        trace := resolution status closes ++ m.trace } := by
  unfold resolved resolveHeap resolution
  cases status.isError with
  | true => rfl
  | false => cases closes <;> rfl

/-- Frames are left in the lane: the first of them takes the payload and runs on. -/
theorem unwound_caller [Heap H] (m : Machine H) (dropped rest : Lane) (caller : Frame)
    (count : Nat) (status : Status) :
    m.unwound dropped (caller :: rest) count status =
      { m with
        lane := { caller with stack := caller.stack.append (payload dropped count) } :: rest
        status
        locks := locksWithout m.locks dropped
        arguments := freshArguments m.limits
        methods := (m.methods.selectRoot caller.app).selectChild caller.method
        heap := Heap.selectRoot
          (resolveHeap status (dropped.getLast?.any Frame.independent) m.heap) caller.context
        trace := resolution status (dropped.getLast?.any Frame.independent) ++
          .returned status count (rest.length + 1) :: m.trace } := by
  simp [unwound, delivered, settled, resolved_eq, repoint, emit, isComplete, depth]

/-- The lane ends well and another waits: that one runs. -/
theorem unwound_next [Heap H] (m : Machine H) (dropped : Lane) (count : Nat) {status : Status}
    (hstatus : status.isError = false) {next : Frame} {waiting : List Frame}
    (hwaiting : m.waiting = next :: waiting) :
    m.unwound dropped [] count status =
      { m with
        lane := [next]
        waiting
        status
        locks := locksWithout m.locks dropped
        arguments := freshArguments m.limits
        output := m.output ++ payload dropped count
        methods := (m.methods.selectRoot next.app).selectChild next.method
        heap := Heap.selectRoot
          (resolveHeap status (dropped.getLast?.any Frame.independent) m.heap) next.context
        trace := resolution status (dropped.getLast?.any Frame.independent) ++
          .laneStarted next.app waiting.length :: m.trace } := by
  simp [unwound, delivered, settled, resolved_eq, repoint, emit, isComplete, hstatus, hwaiting]

/-- The lane ends in an error, or none waits: the session is complete. -/
theorem unwound_last [Heap H] (m : Machine H) (dropped : Lane) (count : Nat) {status : Status}
    (h : status.isError = true ∨ m.waiting = []) :
    m.unwound dropped [] count status =
      { m with
        lane := []
        waiting := []
        status
        locks := locksWithout m.locks dropped
        output := m.output ++ payload dropped count
        heap := resolveHeap status true m.heap
        trace := resolution status true ++ .complete status m.waiting.length :: m.trace } := by
  cases hstatus : status.isError with
  | true => simp [unwound, delivered, settled, resolved_eq, repoint, emit, isComplete, hstatus]
  | false =>
    have hwaiting : m.waiting = [] := by simpa [hstatus] using h
    simp [unwound, delivered, settled, resolved_eq, repoint, emit, isComplete, hstatus, hwaiting]

/-- Where an unwind that leaves `kept` in the lane goes on. -/
inductive Onward (m : Machine H) (status : Status) : Lane → Prop
  | caller (caller : Frame) (rest : Lane) : Onward m status (caller :: rest)
  | next (hstatus : status.isError = false) {next : Frame} {waiting : List Frame}
      (hwaiting : m.waiting = next :: waiting) : Onward m status []
  | last (h : status.isError = true ∨ m.waiting = []) : Onward m status []

theorem onward (m : Machine H) (status : Status) (kept : Lane) : m.Onward status kept := by
  cases kept with
  | cons caller rest => exact .caller caller rest
  | nil =>
    cases hstatus : status.isError with
    | true => exact .last (.inl hstatus)
    | false =>
      cases hwaiting : m.waiting with
      | nil => exact .last (.inr hwaiting)
      | cons next waiting => exact .next hstatus hwaiting

/-! ## Effects -/

/-- The machine once a call is made and the callee is marked independent. -/
def calledIndependently [Heap H] (m : Machine H) (context app method : Identifier) : Machine H :=
  { m.called context app method with
    lane := { m.newFrame context app method with independent := true } :: m.lane
    heap := Heap.save (m.called context app method).heap }

/-- The machine once the running frame holds the lock of its context. -/
def entered (m : Machine H) (top : Frame) (rest : Lane) : Machine H :=
  { m with
    lane := { top with lock := some top.context } :: rest
    locks := top.context :: m.locks }

/-- Everything a step can do.  In each case `worked` is the machine after the part of the step that
stays inside the running frame. -/
inductive Effect [Heap H] (m : Machine H) : Machine H → Prop
  | work {worked : Machine H} (h : m.Evolves worked) : Effect m worked
  | enter {worked : Machine H} (h : m.Evolves worked) {top : Frame} {rest : Lane}
      (hlane : worked.lane = top :: rest) (hfree : worked.isLocked top.context = false) :
      Effect m (worked.entered top rest)
  | call {worked : Machine H} (h : m.Evolves worked) (context app method : Identifier)
      (hroom : worked.depth < worked.limits.maxCallStackDepth.toNat) :
      Effect m (worked.called context app method)
  | callIndependent {worked : Machine H} (h : m.Evolves worked) (context app method : Identifier)
      (hroom : worked.depth < worked.limits.maxCallStackDepth.toNat) :
      Effect m (worked.calledIndependently context app method)
  | spawn {worked : Machine H} (h : m.Evolves worked) (app : Identifier)
      (houtside : worked.lane.insideIndependent = false)
      (hroom : worked.waiting.length + 1 < worked.limits.maxLanes.toNat) :
      Effect m (worked.spawned app)
  | unwind {worked : Machine H} (h : m.Evolves worked) {dropped kept : Lane} {count : Nat}
      {status : Status} (hcut : worked.lane.Cut dropped kept status)
      (hfits : deliveryFault? dropped kept count = none) :
      Effect m (worked.unwound dropped kept count status)

theorem Effect.of_evolves [Heap H] {m worked after : Machine H} (h : m.Evolves worked)
    (heffect : Effect worked after) : Effect m after := by
  cases heffect with
  | work hwork => exact .work (h.trans hwork)
  | enter hwork hlane hfree => exact .enter (h.trans hwork) hlane hfree
  | call hwork context app method hroom => exact .call (h.trans hwork) context app method hroom
  | callIndependent hwork context app method hroom =>
    exact .callIndependent (h.trans hwork) context app method hroom
  | spawn hwork app houtside hroom => exact .spawn (h.trans hwork) app houtside hroom
  | unwind hwork hcut hfits => exact .unwind (h.trans hwork) hcut hfits

/-! ## Every instruction has an effect -/

/-- A success has an effect; a failure has only evolved. -/
def Performed [Heap H] (m : Machine H) : EStateM.Result Fault (Machine H) α → Prop
  | .ok _ after => Effect m after
  | .error _ after => m.Evolves after

/-- However the program ends, its result is as `Performed` says. -/
def Performs [Heap H] (program : Exec H α) : Prop :=
  ∀ m, Performed m (program m)

section

variable [Heap H]

theorem performs_of_keeps {program : Exec H α} (h : Keeps Evolves program) : Performs program := by
  intro m
  cases hrun : program m with
  | ok a after => exact .work (h.of_ok hrun)
  | error fault after => exact h.of_error hrun

theorem performs_bind {β : Type} {program : Exec H α} {next : α → Exec H β}
    (hprogram : Keeps Evolves program) (hnext : ∀ a, Performs (next a)) :
    Performs (program >>= next) := by
  intro m
  simp only [bind, EStateM.bind]
  cases hrun : program m with
  | ok a worked =>
    have hwork : m.Evolves worked := hprogram.of_ok hrun
    have hrest := hnext a worked
    dsimp only
    cases hend : next a worked with
    | ok b after =>
      rw [hend] at hrest
      exact Effect.of_evolves hwork hrest
    | error fault after =>
      rw [hend] at hrest
      exact hwork.trans hrest
  | error fault worked => exact hprogram.of_error hrun

theorem performs_bind_pure {β : Type} {program : Exec H α} (h : Performs program) (b : β) :
    Performs (program >>= fun _ => pure b) := by
  intro m
  have hprogram := h m
  simp only [bind, EStateM.bind, pure, EStateM.pure]
  cases hrun : program m with
  | ok a after =>
    rw [hrun] at hprogram
    exact hprogram
  | error fault after =>
    rw [hrun] at hprogram
    exact hprogram

theorem performs_call (context app method : Identifier) :
    Performs (H := H) (call context app method) := by
  intro m
  unfold call
  split
  · exact .refl m
  · exact .call (.refl m) context app method (by omega)

/-- Marking a frame right after its call cannot fail. -/
theorem performs_call_markIndependent (context app method : Identifier) :
    Performs (H := H) (do call context app method; markIndependent) := by
  intro m
  simp only [bind, EStateM.bind, call]
  split
  · rename_i hrun
    split at hrun
    · cases hrun
    · cases hrun
      exact .callIndependent (.refl m) context app method (by omega)
  · rename_i hrun
    split at hrun
    · cases hrun
      exact .refl m
    · cases hrun

theorem performs_spawn (app : Identifier) : Performs (H := H) (spawn app) := by
  intro m
  unfold spawn
  split
  · exact .refl m
  · rename_i houtside
    split
    · exact .refl m
    · exact .spawn (.refl m) app (Bool.eq_false_iff.mpr houtside) (by omega)

theorem performed_unwind {m : Machine H} {dropped kept : Lane} {status : Status} (count : Nat)
    (hcut : m.lane.Cut dropped kept status) :
    Performed m (unwind dropped kept count status m) := by
  unfold unwind
  split
  · exact .refl m
  · rename_i hfits
    exact .unwind (.refl m) hcut hfits

theorem performs_returnBytes (count : Nat) : Performs (H := H) (returnBytes count .noError) := by
  intro m
  unfold returnBytes
  split
  · exact .refl m
  · rename_i top rest hlane
    refine performed_unwind count ?_
    rw [hlane]
    exact .byReturn top rest

theorem performs_throwBytes (count : Nat) (status : Status) :
    Performs (H := H) (throwBytes count status) := by
  intro m
  cases hlane : m.lane with
  | nil =>
    simp only [throwBytes, hlane, Lane.split, unwind, deliveryFault?]
    exact .refl m
  | cons top rest =>
    refine performed_unwind count (.byThrow ?_ status)
    rw [hlane]
    exact List.cons_ne_nil top rest

theorem performs_enter : Performs (H := H) enter := by
  intro m
  unfold enter
  split
  · exact .refl m
  · rename_i top rest hlane
    split
    · exact .refl m
    · rename_i hfree
      exact .enter (.refl m) hlane (Bool.eq_false_iff.mpr hfree)

theorem performs_invokeInternal_then {next : Exec H α} (h : ∀ context app method,
    Performs (call context app method >>= fun _ => next)) :
    Performs (invokeInternal >>= fun _ => next) := by
  unfold invokeInternal
  rw [bind_assoc]
  refine performs_bind keeps_popIdentifier fun method => ?_
  rw [bind_assoc]
  refine performs_bind keeps_get fun m => ?_
  split
  · exact performs_of_keeps (keeps_throw _)
  · exact h _ _ method

/-- Every instruction has an effect if it completes and has only evolved if it fails. -/
theorem performs_execute (opcode : Opcode) : Performs (H := H) (execute opcode) := by
  cases opcode with
  | noOp => exact performs_of_keeps (keeps_pure _)
  | invokeDispatcher => exact performs_bind keeps_popIdentifier fun app => performs_call app app _
  | indInvokeDispatcher =>
    simp only [execute, invokeDispatcher, bind_assoc]
    exact performs_bind keeps_popIdentifier fun app => performs_call_markIndependent app app _
  | spawnDispatcher => exact performs_bind keeps_popIdentifier fun app => performs_spawn app
  | invokeInternal =>
    rw [execute, ← bind_pure_unit (x := invokeInternal)]
    exact performs_invokeInternal_then fun context app method =>
      performs_bind_pure (performs_call context app method) ()
  | indInvokeInternal => exact performs_invokeInternal_then performs_call_markIndependent
  | ret0 => exact performs_returnBytes 0
  | ret64 => exact performs_returnBytes wordSize
  | throw =>
    exact performs_bind (keeps_onStack Buffer.keeps_thrownSize) fun count =>
      performs_throwBytes count .softwareError
  | enter => exact performs_enter
  | pushC64 => exact performs_of_keeps keeps_pushImmediate
  | pop =>
    exact performs_of_keeps (keeps_bind (keeps_onStack Buffer.keeps_pop) fun _ => keeps_pure _)
  | iAdd => exact performs_of_keeps (keeps_onStack (Buffer.keeps_combineTwo _))
  | iSub => exact performs_of_keeps (keeps_onStack (Buffer.keeps_combineTwo _))
  | argC16 => exact performs_of_keeps keeps_passArgument
  | lfLoadC16 => exact performs_of_keeps keeps_loadLocal
  | lfStoreC16 => exact performs_of_keeps keeps_storeLocal
  | jmpEqC16 => exact performs_of_keeps keeps_jumpIfEqual

theorem performs_instruction : Performs (H := H) instruction := by
  refine performs_bind keeps_fetch fun fetched => ?_
  cases fetched with
  | none => exact performs_of_keeps (keeps_pure _)
  | some byte =>
    dsimp only
    cases Opcode.ofByte? byte with
    | none => exact performs_of_keeps (keeps_throw _)
    | some opcode =>
      exact performs_bind (keeps_announce opcode) fun _ =>
        performs_bind_pure (performs_execute opcode) false

/-- A failing instruction changes nothing but the running frame, the arguments of its next call and
the access log. -/
theorem evolves_of_fault {m left : Machine H} {fault : Fault}
    (h : instruction m = .error fault left) : m.Evolves left := by
  have hperformed := performs_instruction m
  rw [h] at hperformed
  exact hperformed

end

end Machine

end LaneMachine
