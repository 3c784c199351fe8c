import LaneMachine.Proofs.Lockstep
import LaneMachine.Proofs.Report
import LaneMachine.Proofs.Resources
set_option autoImplicit false

/-!
# What a session does not depend on

The heap is something that the machine works on and never looks at.  Nor does it look at what the
store of methods has selected, logged or saved before, or at how much of an operand stack is allocated
at first or how much room there is behind its arguments.  Two sessions of the same call that differ in
no more than that are `Twins` from the set-up on, whatever happens in them: they run in parallel, with
nothing ahead in either queue, and report the same events.

`Machine.Tracks` already says that the instructions which stay in their frame keep machines
parallel, and `Machine.Silent` that they report nothing.  What is left are the instructions
that report something, and there the parts of the machine that a report is made of are alike.
-/

namespace LaneMachine

theorem Lane.Alike.loosen {marked : Prop} {a b : Lane} (h : a.Alike marked b) : a.Alike False b := by
  induction h with
  | nil => exact .nil
  | cons hframe hrest ih => exact .cons (hframe.weaken fun hmarked => .inr (hmarked.resolve_left id)) ih

/-- The frames that both lanes begin with are alike. -/
theorem Lane.Alike.of_append {a b c d : Lane} (h : Alike True (a ++ c) (b ++ d))
    (hlength : a.length = b.length) : a.Alike True b := by
  induction a generalizing b with
  | nil =>
    rw [List.length_nil] at hlength
    rw [List.length_eq_zero_iff.mp hlength.symm]
    exact .nil
  | cons top rest ih =>
    cases b with
    | nil => cases hlength
    | cons top' rest' =>
      cases h with
      | cons hframe hrest =>
        exact .cons (hframe.weaken fun _ => .inl trivial) (ih hrest (Nat.succ.inj hlength))

/-- If all marks agree, those of the frames that a throw drops agree, too. -/
theorem Lane.Alike.split_fst {a b : Lane} (h : a.Alike True b) : a.split.1.Alike True b.split.1 := by
  refine Lane.Alike.of_append (c := a.split.2) (d := b.split.2) ?_ h.split.1.length_eq
  rw [Lane.split_append, Lane.split_append]
  exact h

theorem Lane.Alike.getLast?_any_independent {a b : Lane} (h : a.Alike True b) :
    a.getLast?.any Frame.independent = b.getLast?.any Frame.independent := by
  induction h with
  | nil => rfl
  | cons hframe hrest ih =>
    cases hrest with
    | nil => exact hframe.independent (.inl trivial)
    | cons hbelow hmore =>
      rw [List.getLast?_cons_cons, List.getLast?_cons_cons]
      exact ih

namespace Machine

variable {H K α β : Type}

/-- Two machines that run in parallel, with the same queue, the same output and the same events. -/
structure Twins (m : Machine H) (twin : Machine K) : Prop extends
    Parallel True [] #[] m twin where
  trace : m.trace = twin.trace

section

variable {m : Machine H} {twin : Machine K}

theorem Twins.waiting_alike (h : m.Twins twin) : Lane.Alike True m.waiting twin.waiting := by
  obtain ⟨since, hwaiting, hsince⟩ := h.waiting
  rw [hwaiting]
  exact hsince

theorem Twins.output_eq (h : m.Twins twin) : m.output = twin.output :=
  h.output.trans Array.empty_append

theorem Twins.depth_eq (h : m.Twins twin) : m.depth = twin.depth :=
  h.lane.length_eq

theorem Twins.emit (h : m.Twins twin) (event : Event) : (m.emit event).Twins (twin.emit event) :=
  ⟨h.toParallel.emit event event, congrArg (event :: ·) h.trace⟩

end

/-! ## Programs -/

/-- Silent programs keep twins twins if they keep parallel machines parallel. -/
theorem Tracks.mirrors_twins {program : Exec H α} {image : Exec K α} (h : Tracks program image)
    (hsilent : Keeps Silent program) (hsilent' : Keeps Silent image) :
    Mirrors Twins program image := by
  intro m twin htwins
  have hend := h True [] #[] m twin htwins.toParallel
  generalize hrun : program m = left, hrun' : image twin = right at hend
  cases hend with
  | ok a hparallel =>
    exact .ok a ⟨hparallel, (hsilent.of_ok hrun).trans (htwins.trace.trans (hsilent'.of_ok hrun').symm)⟩
  | error e hparallel =>
    exact .error e
      ⟨hparallel, (hsilent.of_error hrun).trans (htwins.trace.trans (hsilent'.of_error hrun').symm)⟩

theorem mirrors_announce (opcode : Opcode) :
    Mirrors Twins (announce opcode : Exec H Unit) (announce opcode : Exec K Unit) := by
  intro m twin h
  unfold announce
  have hdepth := h.depth_eq
  rcases h.lane_cases with ⟨hm, htwin⟩ | ⟨top, top', rest, rest', hm, htwin, hframe, hrest⟩
  · simp only [hm, htwin, hdepth]
    exact .ok () (h.emit _)
  · simp only [hm, htwin, hdepth, hframe.pc]
    exact .ok () (h.emit _)

theorem mirrors_popIdentifier :
    Mirrors Twins (popIdentifier : Exec H Identifier) (popIdentifier : Exec K Identifier) :=
  tracks_popIdentifier.mirrors_twins silent_popIdentifier silent_popIdentifier

theorem mirrors_spawn (app : Identifier) :
    Mirrors Twins (spawn app : Exec H Unit) (spawn app : Exec K Unit) := by
  intro m twin h
  unfold spawn
  rw [h.lane.insideIndependent_eq, h.limits.maxLanes, h.waiting_alike.length_eq]
  split
  · exact .error _ h
  · split
    · exact .error _ h
    · refine .ok () ⟨h.toParallel.spawned app, ?_⟩
      simp only [spawned, h.waiting_alike.length_eq, h.trace]

variable [Heap H] [Heap K]

theorem mirrors_call (context app method : Identifier) :
    Mirrors Twins (call context app method : Exec H Unit) (call context app method : Exec K Unit) := by
  intro m twin h
  unfold call
  rw [h.depth_eq, h.limits.maxCallStackDepth]
  split
  · exact .error _ h
  · refine .ok () ⟨h.toParallel.called context app method, ?_⟩
    simp only [called, repoint, h.depth_eq, h.trace]

theorem mirrors_markIndependent :
    Mirrors Twins (markIndependent : Exec H Unit) (markIndependent : Exec K Unit) :=
  tracks_markIndependent.mirrors_twins silent_markIndependent silent_markIndependent

theorem mirrors_invokeDispatcher :
    Mirrors Twins (invokeDispatcher : Exec H Unit) (invokeDispatcher : Exec K Unit) :=
  mirrors_bind mirrors_popIdentifier fun app => mirrors_call app app .dispatcher

theorem mirrors_invokeInternal :
    Mirrors Twins (invokeInternal : Exec H Unit) (invokeInternal : Exec K Unit) := by
  refine mirrors_bind mirrors_popIdentifier fun method => mirrors_get_bind ?_
  intro m twin h
  rcases h.lane_cases with ⟨hm, htwin⟩ | ⟨top, top', rest, rest', hm, htwin, hframe, hrest⟩
  · rw [hm, htwin]
    exact .error _ h
  · rw [hm, htwin]
    dsimp only
    rw [hframe.context, hframe.app]
    exact mirrors_call _ _ _ m twin h

/-! ## Returns and throws -/

section

variable {m : Machine H} {twin : Machine K} {dropped dropped' kept kept' : Lane}

/-- Both go on in the caller, or both start the lane that waits first, or both are complete. -/
theorem Twins.unwound (h : m.Twins twin) (hdropped : dropped.Alike True dropped')
    (hkept : kept.Alike True kept') (count : Nat) (status : Status) :
    (m.unwound dropped kept count status).Twins (twin.unwound dropped' kept' count status) := by
  have hloose := hdropped.loosen
  have hlocks : locksWithout m.locks dropped = locksWithout twin.locks dropped' := by
    rw [h.locks, locksWithout_eq_of_alike hloose]
  have hmark := hdropped.getLast?_any_independent
  have hpayload := payload_eq_of_alike hloose count
  have hwaiting := h.waiting_alike
  have hfresh := h.alike_freshArguments
  cases hkept with
  | @cons caller caller' rest rest' hcaller hrest =>
    rw [unwound_caller, unwound_caller, hmark, hpayload, hlocks]
    refine ⟨⟨h.limits, .cons { hcaller with stack := hcaller.stack.append _ } hrest, h.waiting, rfl, rfl,
      hfresh, h.output, ?_⟩, ?_⟩
    · rw [hcaller.app, hcaller.method]
      exact Store.alike_select h.methods.chunk? _ _
    · simp only [h.trace, hrest.length_eq]
  | nil =>
    cases m.onward status [] with
    | @next hstatus next waiting hqueue =>
      rw [hqueue] at hwaiting
      generalize hqueue' : twin.waiting = queue at hwaiting
      cases hwaiting with
      | @cons _ next' _ waiting' hnext hmore =>
        rw [unwound_next m dropped count hstatus hqueue, unwound_next twin dropped' count hstatus hqueue',
          hmark, hpayload, hlocks]
        refine ⟨⟨h.limits, .cons (hnext.weaken fun _ => .inl trivial) .nil, ⟨waiting, rfl, hmore⟩, rfl, rfl, hfresh, ?_, ?_⟩, ?_⟩
        · rw [h.output_eq, Array.empty_append]
        · rw [hnext.app, hnext.method]
          exact Store.alike_select h.methods.chunk? _ _
        · simp only [h.trace, hnext.app, hmore.length_eq]
    | last hends =>
      have hends' : status.isError = true ∨ twin.waiting = [] :=
        hends.imp_right hwaiting.eq_nil_iff.mp
      rw [unwound_last m dropped count hends, unwound_last twin dropped' count hends', hpayload, hlocks]
      refine ⟨⟨h.limits, .nil, ⟨[], rfl, .nil⟩, rfl, rfl, h.arguments, ?_, h.methods⟩, ?_⟩
      · rw [h.output_eq, Array.empty_append]
      · simp only [h.trace, hwaiting.length_eq]

theorem Twins.unwind (h : m.Twins twin) (hdropped : dropped.Alike True dropped')
    (hkept : kept.Alike True kept') (count : Nat) (status : Status) :
    EndAlike Twins Twins (unwind dropped kept count status m)
      (unwind dropped' kept' count status twin) := by
  unfold Machine.unwind
  rw [deliveryFault?_eq_of_alike hdropped.loosen hkept]
  split
  · exact .error _ h
  · exact .ok () (h.unwound hdropped hkept count status)

end

theorem mirrors_returnBytes (count : Nat) (status : Status) :
    Mirrors Twins (returnBytes count status : Exec H Unit) (returnBytes count status : Exec K Unit) := by
  intro m twin h
  unfold returnBytes
  rcases h.lane_cases with ⟨hm, htwin⟩ | ⟨top, top', rest, rest', hm, htwin, hframe, hrest⟩
  · rw [hm, htwin]
    exact .error _ h
  · rw [hm, htwin]
    exact h.unwind (.cons (hframe.weaken fun _ => .inl trivial) .nil) hrest count status

theorem mirrors_throwBytes (count : Nat) (status : Status) :
    Mirrors Twins (throwBytes count status : Exec H Unit) (throwBytes count status : Exec K Unit) :=
  fun _ _ h => h.unwind h.lane.split_fst h.lane.split.2 count status

/-! ## Steps -/

/-- No instruction tells twins apart. -/
theorem mirrors_execute (opcode : Opcode) :
    Mirrors Twins (execute opcode : Exec H Unit) (execute opcode : Exec K Unit) := by
  have honStack {α : Type} {op : Buffer.Op α} (hop : Mirrors Buffer.Alike op op) :
      Mirrors Twins (onStack op : Exec H α) (onStack op : Exec K α) :=
    (tracks_onStack hop).mirrors_twins (silent_onStack op) (silent_onStack op)
  cases opcode with
  | noOp => exact mirrors_pure ()
  | invokeDispatcher => exact mirrors_invokeDispatcher
  | indInvokeDispatcher => exact mirrors_bind mirrors_invokeDispatcher fun _ => mirrors_markIndependent
  | spawnDispatcher => exact mirrors_bind mirrors_popIdentifier mirrors_spawn
  | invokeInternal => exact mirrors_invokeInternal
  | indInvokeInternal => exact mirrors_bind mirrors_invokeInternal fun _ => mirrors_markIndependent
  | ret0 => exact mirrors_returnBytes 0 .noError
  | ret64 => exact mirrors_returnBytes wordSize .noError
  | throw =>
    exact mirrors_bind (honStack Buffer.mirrors_thrownSize) fun count =>
      mirrors_throwBytes count .softwareError
  | enter => exact tracks_enter.mirrors_twins silent_enter silent_enter
  | pushC64 => exact tracks_pushImmediate.mirrors_twins silent_pushImmediate silent_pushImmediate
  | pop => exact mirrors_bind (honStack Buffer.mirrors_pop) fun _ => mirrors_pure ()
  | iAdd => exact honStack (Buffer.mirrors_combineTwo _)
  | iSub => exact honStack (Buffer.mirrors_combineTwo _)
  | argC16 => exact tracks_passArgument.mirrors_twins silent_passArgument silent_passArgument
  | lfLoadC16 => exact tracks_loadLocal.mirrors_twins silent_loadLocal silent_loadLocal
  | lfStoreC16 => exact tracks_storeLocal.mirrors_twins silent_storeLocal silent_storeLocal
  | jmpEqC16 => exact tracks_jumpIfEqual.mirrors_twins silent_jumpIfEqual silent_jumpIfEqual

theorem mirrors_instruction :
    Mirrors Twins (instruction : Exec H Bool) (instruction : Exec K Bool) := by
  refine mirrors_bind (tracks_fetch.mirrors_twins silent_fetch silent_fetch) fun fetched => ?_
  cases fetched with
  | none => exact mirrors_pure true
  | some byte =>
    dsimp only
    cases Opcode.ofByte? byte with
    | none => exact fun _ _ h => .error _ h
    | some opcode =>
      exact mirrors_bind (mirrors_announce opcode) fun _ =>
        mirrors_bind (mirrors_execute opcode) fun _ => mirrors_pure false

section

variable {m : Machine H} {twin : Machine K}

/-- A fault is thrown from twins alike.  Should the throw be refused, then both stop. -/
theorem Twins.recover (h : m.Twins twin) (fault : Fault) :
    (m.recover fault).Twins (twin.recover fault) := by
  have hend := mirrors_throwBytes 0 fault.status _ _ (h.emit (.failed fault))
  unfold Machine.recover
  generalize throwBytes 0 fault.status (m.emit (.failed fault)) = left,
    throwBytes 0 fault.status (twin.emit (.failed fault)) = right at hend
  cases hend with
  | ok _ hthrown => exact hthrown
  | error e hleft =>
    exact ⟨⟨hleft.limits, .nil, ⟨[], rfl, .nil⟩, rfl, rfl, hleft.arguments, hleft.output, hleft.methods⟩,
      hleft.trace⟩

theorem Twins.step (h : m.Twins twin) : m.step.1 = twin.step.1 ∧ m.step.2.Twins twin.step.2 := by
  have hend := mirrors_instruction m twin h
  unfold Machine.step
  generalize instruction m = left, instruction twin = right at hend
  cases hend with
  | ok finished hafter => exact ⟨rfl, hafter⟩
  | error fault hleft => exact ⟨rfl, hleft.recover fault⟩

end

end Machine

/-! ## Sessions -/

theorem Limits.Alike.symm {limits limits' : Limits} (h : limits.Alike limits') :
    limits'.Alike limits :=
  ⟨h.maxOperandStack.symm, h.initialLocalFrame.symm, h.maxLocalFrame.symm, h.maxCallStackDepth.symm,
    h.maxLanes.symm⟩

end LaneMachine
