import LaneMachine.Proofs.Instruction
set_option autoImplicit false

/-!
# What a step reports

A step announces its instruction, and a step that calls, spawns, returns or throws reports
that too.  All the rest is silent: the programs that work inside the running frame leave the
trace as it is (`Machine.Silent`), and an instruction that fails has reported nothing but the
announcement, whatever it was about to do (`Machine.trace_of_fault`).
-/

namespace LaneMachine

namespace Machine

variable {H α β : Type}

/-- Nothing was reported in between. -/
def Silent (before after : Machine H) : Prop :=
  after.trace = before.trace

instance : Std.Refl (Silent (H := H)) := ⟨fun _ => rfl⟩

instance : Trans (Silent (H := H)) (Silent (H := H)) (Silent (H := H)) :=
  ⟨fun hfirst hsecond => Eq.trans hsecond hfirst⟩

/-! ## Programs that report nothing -/

theorem silent_onTop (op : Frame.Op α) : Keeps (Silent (H := H)) (onTop op) := by
  intro m
  unfold onTop
  split
  · rfl
  · split <;> rfl

theorem silent_onStack (op : Buffer.Op α) : Keeps (Silent (H := H)) (onStack op) :=
  silent_onTop _

theorem silent_onArguments (op : Buffer.Op α) : Keeps (Silent (H := H)) (onArguments op) := by
  intro m
  unfold onArguments
  split <;> rfl

theorem silent_onMethods (op : Store.Op α) : Keeps (Silent (H := H)) (onMethods op) := by
  intro m
  unfold onMethods
  split <;> rfl

theorem silent_counter : Keeps (Silent (H := H)) counter := by
  intro m
  unfold counter
  split <;> rfl

theorem silent_immediateHalf : Keeps (Silent (H := H)) immediateHalf :=
  keeps_bind silent_counter fun _ => keeps_bind (silent_onMethods _) fun _ =>
    keeps_bind (silent_onTop _) fun _ => keeps_pure _

theorem silent_immediateWord : Keeps (Silent (H := H)) immediateWord :=
  keeps_bind silent_counter fun _ => keeps_bind (silent_onMethods _) fun _ =>
    keeps_bind (silent_onTop _) fun _ => keeps_pure _

theorem silent_popIdentifier : Keeps (Silent (H := H)) popIdentifier :=
  keeps_bind (silent_onStack _) fun _ => keeps_pure _

theorem silent_pushImmediate : Keeps (Silent (H := H)) pushImmediate :=
  keeps_bind silent_immediateWord fun _ => silent_onStack _

theorem silent_passArgument : Keeps (Silent (H := H)) passArgument :=
  keeps_bind silent_immediateHalf fun _ => keeps_bind (silent_onStack _) fun _ =>
    keeps_bind (silent_onArguments _) fun _ => silent_onStack _

theorem silent_loadLocal : Keeps (Silent (H := H)) loadLocal :=
  keeps_bind silent_immediateHalf fun _ => silent_onTop _

theorem silent_storeLocal : Keeps (Silent (H := H)) storeLocal :=
  keeps_bind silent_immediateHalf fun _ => silent_onTop _

theorem silent_jumpIfEqual : Keeps (Silent (H := H)) jumpIfEqual := by
  refine keeps_bind (silent_onStack _) fun words => ?_
  dsimp only
  split
  · exact keeps_bind silent_immediateHalf fun _ => silent_onTop _
  · exact silent_onTop _

theorem silent_enter : Keeps (Silent (H := H)) enter := by
  intro m
  unfold enter
  split
  · rfl
  · split <;> rfl

theorem silent_markIndependent [Heap H] : Keeps (Silent (H := H)) markIndependent := by
  intro m
  unfold markIndependent
  split <;> rfl

theorem silent_fetch : Keeps (Silent (H := H)) fetch := by
  intro m
  unfold fetch
  split
  · rfl
  · rename_i top rest hlane
    have hread : Keeps (Silent (H := H)) (do
        let byte ← onMethods (Store.loadByte top.pc)
        onTop (Frame.skip 1)
        return some byte) :=
      keeps_bind (silent_onMethods _) fun _ => keeps_bind (silent_onTop _) fun _ => keeps_pure _
    exact hread m

/-! ## Programs that report nothing if they fail -/

/-- A program that has reported nothing if it fails. -/
def FailsSilently (program : Exec H α) : Prop :=
  ∀ m fault left, program m = .error fault left → m.Silent left

theorem failsSilently_of_silent {program : Exec H α} (h : Keeps Silent program) :
    FailsSilently program :=
  fun _ _ _ hrun => h.of_error hrun

theorem failsSilently_bind {program : Exec H α} {next : α → Exec H β} (h : Keeps Silent program)
    (hnext : ∀ a, FailsSilently (next a)) : FailsSilently (program >>= next) := by
  intro m fault left hrun
  simp only [bind, EStateM.bind] at hrun
  split at hrun
  · rename_i a middle hfirst
    exact Trans.trans (h.of_ok hfirst) (hnext a middle fault left hrun)
  · rename_i hfirst
    cases hrun
    exact h.of_error hfirst

/-- A program that cannot fail does not get in the way. -/
theorem failsSilently_bind_pure {program : Exec H α} (h : FailsSilently program) (b : β) :
    FailsSilently (program >>= fun _ => pure b) := by
  intro m fault left hrun
  simp only [bind, EStateM.bind] at hrun
  split at hrun
  · cases hrun
  · rename_i hfirst
    cases hrun
    exact h m _ _ hfirst

theorem failsSilently_spawn (app : Identifier) : FailsSilently (spawn app : Exec H Unit) := by
  intro m fault left hrun
  unfold spawn at hrun
  split at hrun
  · cases hrun
    rfl
  · split at hrun
    · cases hrun
      rfl
    · cases hrun

variable [Heap H]

theorem failsSilently_call (context app method : Identifier) :
    FailsSilently (call context app method : Exec H Unit) := by
  intro m fault left hrun
  unfold call at hrun
  split at hrun
  · cases hrun
    rfl
  · cases hrun

theorem failsSilently_call_markIndependent (context app method : Identifier) :
    FailsSilently (do call context app method; markIndependent : Exec H Unit) := by
  intro m fault left hrun
  simp only [bind, EStateM.bind] at hrun
  split at hrun
  · rename_i hcall
    rw [call_eq_ok hcall] at hrun
    cases hrun
  · rename_i hcall
    cases hrun
    exact failsSilently_call context app method m _ _ hcall

theorem failsSilently_invokeInternal_then {next : Exec H α} (h : ∀ context app method,
    FailsSilently (do call context app method; next)) :
    FailsSilently (do invokeInternal; next) := by
  unfold invokeInternal
  rw [bind_assoc]
  refine failsSilently_bind silent_popIdentifier fun method => ?_
  rw [bind_assoc]
  refine failsSilently_bind keeps_get fun m => ?_
  split
  · exact failsSilently_of_silent (keeps_throw _)
  · exact h _ _ method

theorem failsSilently_returnBytes (count : Nat) (status : Status) :
    FailsSilently (returnBytes count status : Exec H Unit) := by
  intro m fault left hrun
  unfold returnBytes at hrun
  split at hrun
  · cases hrun
    rfl
  · rw [((unwind_eq_error_iff _ _ _ _ _ _ _).mp hrun).2]
    rfl

theorem failsSilently_throwTop : FailsSilently (throwTop : Exec H Unit) := by
  refine failsSilently_bind (silent_onStack _) fun count => ?_
  intro m fault left hrun
  rw [((unwind_eq_error_iff _ _ _ _ _ _ _).mp hrun).2]
  rfl

/-- The instructions that work in the running frame alone report nothing. -/
theorem silent_execute {opcode : Opcode} (hrole : opcode.role = .work) :
    Keeps (Silent (H := H)) (execute opcode) := by
  cases opcode with
  | noOp => exact keeps_pure ()
  | pushC64 => exact silent_pushImmediate
  | pop => exact keeps_bind (silent_onStack _) fun _ => keeps_pure ()
  | iAdd => exact silent_onStack _
  | iSub => exact silent_onStack _
  | argC16 => exact silent_passArgument
  | lfLoadC16 => exact silent_loadLocal
  | lfStoreC16 => exact silent_storeLocal
  | jmpEqC16 => exact silent_jumpIfEqual
  | _ => cases hrole

theorem failsSilently_execute (opcode : Opcode) : FailsSilently (execute opcode : Exec H Unit) := by
  cases opcode with
  | invokeDispatcher =>
    exact failsSilently_bind silent_popIdentifier fun app => failsSilently_call app app .dispatcher
  | indInvokeDispatcher =>
    simp only [execute, invokeDispatcher, bind_assoc]
    exact failsSilently_bind silent_popIdentifier fun app =>
      failsSilently_call_markIndependent app app .dispatcher
  | spawnDispatcher =>
    exact failsSilently_bind silent_popIdentifier fun app => failsSilently_spawn app
  | invokeInternal =>
    have h := failsSilently_invokeInternal_then fun context app method =>
      failsSilently_bind_pure (failsSilently_call (H := H) context app method) ()
    rwa [bind_pure_unit] at h
  | indInvokeInternal => exact failsSilently_invokeInternal_then failsSilently_call_markIndependent
  | ret0 => exact failsSilently_returnBytes 0 .noError
  | ret64 => exact failsSilently_returnBytes wordSize .noError
  | throw => exact failsSilently_throwTop
  | enter => exact failsSilently_of_silent silent_enter
  | _ => exact failsSilently_of_silent (silent_execute rfl)

/-- A step that fails has announced its instruction, if it had decoded one, and nothing else. -/
theorem trace_of_fault {m left : Machine H} {fault : Fault} (h : instruction m = .error fault left) :
    left.trace = m.trace ∨ ∃ opcode pc, left.trace = .execute opcode pc m.depth :: m.trace := by
  cases hopcode : m.opcode? with
  | some opcode =>
    obtain ⟨top, rest, methods, -, -, hrun⟩ := exists_announced hopcode
    rw [hrun] at h
    have hsilent := failsSilently_bind_pure (failsSilently_execute opcode) false _ _ _ h
    exact .inr ⟨opcode, top.pc, hsilent⟩
  | none =>
    left
    unfold instruction at h
    simp only [bind, EStateM.bind] at h
    split at h
    · rename_i fetched worked hfetch
      have hread : m.Silent worked := silent_fetch.of_ok hfetch
      cases fetched with
      | none => cases h
      | some byte =>
        simp only [opcode?, byte?, hfetch, Option.bind_some] at hopcode
        simp only [hopcode] at h
        cases h
        exact hread
    · rename_i hfetch
      cases h
      exact silent_fetch.of_error hfetch

end Machine

end LaneMachine
