import LaneMachine.Proofs.Lanes
set_option autoImplicit false

/-!
# The stores are turned to the running frame

Which method is read and which context is worked on is not kept in the frames.  It is the
selection of the two stores, and whoever changes the running frame has to move it: calls,
returns, throws that are caught far below, and the start of the next lane.  A spawn must leave
it alone.

`Machine.PointsAt` is the invariant, and one case of `Effect` after the other keeps it.  What a
step reads is followed through the access log of the store of methods: `Store.Logs` says which
accesses were added, and `Access.Fetches` which of them a step may make.  A selection aside, it
reads the opcode under the counter of the running frame and the immediate behind it, in the
chunk that is selected when the step begins; and that is the frame's own method
(`Session.turned_to_running_frame`).
-/

namespace LaneMachine

/-! ## The selection -/

namespace Machine

/-- Both stores are turned to the frame: the store of methods to its code, the heap to its context as
a whole. -/
structure PointsAt (m : Machine Store) (frame : Frame) : Prop where
  app : m.methods.root = some frame.app
  method : m.methods.child = some frame.method
  context : m.heap.root = some frame.context
  whole : m.heap.child = none

/-- If a frame runs, both stores are turned to it. -/
def Points (m : Machine Store) : Prop :=
  ∀ top rest, m.lane = top :: rest → m.PointsAt top

theorem points_of_lane {m : Machine Store} {top : Frame} {rest : Lane} (hlane : m.lane = top :: rest)
    (h : m.PointsAt top) : m.Points := by
  intro top' rest' hsame
  obtain ⟨rfl, -⟩ := List.cons.inj (hlane.symm.trans hsame)
  exact h

/-- A frame that works leaves both selections as they are. -/
theorem Evolves.points {m worked : Machine Store} (hwork : m.Evolves worked) (h : m.Points) :
    worked.Points := by
  intro top rest hlane
  have hframes := hwork.lane
  rw [hlane] at hframes
  generalize hbefore : m.lane = before at hframes
  cases hframes with
  | cons hframe =>
    have hpoints := h _ _ hbefore
    refine ⟨?_, ?_, ?_, ?_⟩
    · rw [← hwork.methods.root, hpoints.app, hframe.app]
    · rw [← hwork.methods.child, hpoints.method, hframe.method]
    · rw [hwork.heap, hpoints.context, hframe.context]
    · rw [hwork.heap, hpoints.whole]

theorem Effect.points {m after : Machine Store} (heffect : Effect m after) (h : m.Points) :
    after.Points := by
  cases heffect with
  | work hwork => exact hwork.points h
  | @enter worked hwork top rest hlane hfree =>
    have hpoints := hwork.points h top rest hlane
    exact points_of_lane rfl ⟨hpoints.app, hpoints.method, hpoints.context, hpoints.whole⟩
  | call hwork context app method hroom => exact points_of_lane rfl ⟨rfl, rfl, rfl, rfl⟩
  | callIndependent hwork context app method hroom => exact points_of_lane rfl ⟨rfl, rfl, rfl, rfl⟩
  | spawn hwork app houtside hroom =>
    intro top rest hlane
    have hpoints := hwork.points h top rest hlane
    exact ⟨hpoints.app, hpoints.method, hpoints.context, hpoints.whole⟩
  | @unwind worked hwork dropped kept count status hcut hfits =>
    cases worked.onward status kept with
    | caller caller rest =>
      rw [unwound_caller]
      exact points_of_lane rfl ⟨rfl, rfl, rfl, rfl⟩
    | next hstatus hwaiting =>
      rw [unwound_next worked dropped count hstatus hwaiting]
      exact points_of_lane rfl ⟨rfl, rfl, rfl, rfl⟩
    | last hends =>
      rw [unwound_last worked dropped count hends]
      exact nofun

theorem PointsAt.selected?_eq {m : Machine Store} {top : Frame} (h : m.PointsAt top) :
    m.methods.selected? = m.methods.chunk? top.app top.method := by
  simp only [Store.selected?, h.app, h.method]

end Machine

/-! ## What is read from a store -/

/-- An access that a step may make to the store of methods, where `code` is the code of the frame that
runs and `pc` its counter. -/
inductive Access.Fetches (code : Option Bytes) (pc : Nat) : Access → Prop
  | root (id : Identifier) : Fetches code pc (.root id)
  | child (id : Identifier) : Fetches code pc (.child id)
  | opcode {byte : UInt8} (h : code.bind (·[pc]?) = some byte) : Fetches code pc (.loadedByte pc byte)
  | half {value : UInt16} (h : code.bind (Bytes.half? · (pc + 1)) = some value) :
      Fetches code pc (.loadedHalf (pc + 1) value)
  | word {value : UInt64} (h : code.bind (Bytes.word? · (pc + 1)) = some value) :
      Fetches code pc (.loadedWord (pc + 1) value)

namespace Store

/-- Only accesses of this kind were added to the log. -/
def Logs (kind : Access → Prop) (before after : Store) : Prop :=
  ∃ added, after.log = added ++ before.log ∧ ∀ access ∈ added, kind access

variable {kind : Access → Prop}

theorem Logs.refl (store : Store) : store.Logs kind store :=
  ⟨[], rfl, by simp⟩

theorem Logs.trans {a b c : Store} (hab : a.Logs kind b) (hbc : b.Logs kind c) : a.Logs kind c := by
  obtain ⟨first, hfirst, hkind⟩ := hab
  obtain ⟨second, hsecond, hkind'⟩ := hbc
  refine ⟨second ++ first, by rw [hsecond, hfirst, List.append_assoc], ?_⟩
  intro access hmem
  rcases List.mem_append.mp hmem with hmem | hmem
  · exact hkind' access hmem
  · exact hkind access hmem

theorem logs_record {access : Access} (h : kind access) (store : Store) :
    store.Logs kind (store.record access) :=
  ⟨[access], rfl, by simpa using h⟩

variable {code : Option Bytes} {pc : Nat}

theorem logs_select (store : Store) (root child : Identifier) :
    store.Logs (Access.Fetches code pc) ((store.selectRoot root).selectChild child) :=
  ⟨[.child child, .root root], rfl, by simp [Access.Fetches.root, Access.Fetches.child]⟩

theorem loadByte_eq_ok {store after : Store} {offset : Nat} {byte : UInt8}
    (h : loadByte offset store = .ok byte after) :
    store.selected?.bind (·[offset]?) = some byte ∧ after = store.record (.loadedByte offset byte) := by
  unfold loadByte at h
  split at h
  · cases h
  · rename_i part hfetch
    obtain ⟨bytes, hselected, hslice⟩ := (fetch_eq_ok_iff store offset 1 part).mp hfetch
    cases h
    refine ⟨?_, rfl⟩
    rw [hselected, Option.bind_some]
    unfold Bytes.slice? at hslice
    split at hslice
    · rename_i hfits
      cases hslice
      simp [Array.getElem?_eq_getElem (Nat.lt_of_succ_le hfits), Array.getD, hfits]
    · cases hslice

theorem loadByte_eq_error {store after : Store} {offset : Nat} {e : Error}
    (h : loadByte offset store = .error e after) :
    store.selected?.bind (·[offset]?) = none ∧ after = store := by
  unfold loadByte fetch at h
  cases hselected : store.selected? with
  | none =>
    simp only [hselected] at h
    cases h
    exact ⟨rfl, rfl⟩
  | some bytes =>
    simp only [hselected] at h
    cases hslice : Bytes.slice? bytes offset 1 with
    | none =>
      simp only [hslice] at h
      cases h
      have hshort := (Bytes.slice?_eq_none_iff bytes offset 1).mp hslice
      exact ⟨by simp; omega, rfl⟩
    | some part =>
      simp only [hslice] at h
      cases h

theorem logs_loadHalf (store : Store) :
    store.Logs (Access.Fetches store.selected? pc) (finalState (loadHalf (pc + 1) store)) := by
  unfold loadHalf
  split
  · exact .refl store
  · rename_i part hfetch
    obtain ⟨bytes, hselected, hslice⟩ := (fetch_eq_ok_iff store (pc + 1) 2 part).mp hfetch
    refine logs_record (.half ?_) store
    rw [hselected, Option.bind_some, Bytes.half?, hslice, Option.map_some]

theorem logs_loadWord (store : Store) :
    store.Logs (Access.Fetches store.selected? pc) (finalState (loadWord (pc + 1) store)) := by
  unfold loadWord
  split
  · exact .refl store
  · rename_i part hfetch
    obtain ⟨bytes, hselected, hslice⟩ := (fetch_eq_ok_iff store (pc + 1) wordSize part).mp hfetch
    refine logs_record (.word ?_) store
    rw [hselected, Option.bind_some, Bytes.word?, hslice, Option.map_some]

end Store

theorem keeps_bind_of {ε σ α β : Type} {R S T : σ → σ → Prop} [Trans R S T]
    {program : EStateM ε σ α} {next : α → EStateM ε σ β} (hprogram : Keeps R program)
    (hnext : ∀ a, Keeps S (next a)) (hfails : ∀ {before after}, R before after → T before after) :
    Keeps T (program >>= next) := by
  intro before
  simp only [bind, EStateM.bind]
  cases hrun : program before with
  | ok a middle => exact Trans.trans (hprogram.of_ok hrun) (hnext a middle)
  | error e middle => exact hfails (hprogram.of_error hrun)

namespace Machine

variable {H α β : Type}

/-- The counter of the running frame. -/
def counter? (m : Machine H) : Option Nat :=
  m.lane.head?.map Frame.pc

/-! ## Programs that read no code -/

/-- The store of methods is as it was. -/
structure Quiet (before after : Machine H) : Prop where
  methods : after.methods = before.methods

/-- Besides, the counter has not moved. -/
structure Still (before after : Machine H) : Prop extends Quiet before after where
  counter : after.counter? = before.counter?

instance : Std.Refl (Quiet (H := H)) := ⟨fun _ => ⟨rfl⟩⟩

instance : Trans (Quiet (H := H)) (Quiet (H := H)) (Quiet (H := H)) :=
  ⟨fun hab hbc => ⟨hbc.methods.trans hab.methods⟩⟩

instance : Std.Refl (Still (H := H)) := ⟨fun _ => ⟨⟨rfl⟩, rfl⟩⟩

instance : Trans (Still (H := H)) (Still (H := H)) (Still (H := H)) :=
  ⟨fun hab hbc => ⟨⟨hbc.methods.trans hab.methods⟩, hbc.counter.trans hab.counter⟩⟩

theorem quiet_onTop (op : Frame.Op α) : Keeps (Quiet (H := H)) (onTop op) := by
  intro m
  unfold onTop
  split
  · exact ⟨rfl⟩
  · split <;> exact ⟨rfl⟩

theorem quiet_onArguments (op : Buffer.Op α) : Keeps (Quiet (H := H)) (onArguments op) := by
  intro m
  unfold onArguments
  split <;> exact ⟨rfl⟩

theorem still_onStack (op : Buffer.Op α) : Keeps (Still (H := H)) (onStack op) := by
  intro m
  refine ⟨quiet_onTop _ m, ?_⟩
  unfold onStack onTop Frame.onStack
  split
  · rfl
  · rename_i top rest hlane
    cases op top.stack with
    | ok a stack => simp [counter?, hlane]
    | error e stack => simp [counter?, hlane, finalState]

theorem still_popIdentifier : Keeps (Still (H := H)) popIdentifier :=
  keeps_bind (still_onStack _) fun _ => keeps_pure _

theorem still_announce (opcode : Opcode) : Keeps (Still (H := H)) (announce opcode) :=
  fun _ => ⟨⟨rfl⟩, rfl⟩

/-! ## Programs that read the code of the running frame -/

/-- If the opcode at `pc` was read last, then code was read behind it and nowhere else. -/
def Consults (pc : Nat) (before after : Machine H) : Prop :=
  before.counter? = some (pc + 1) →
    before.methods.Logs (Access.Fetches before.methods.selected? pc) after.methods

variable {pc : Nat}

theorem Quiet.consults {before after : Machine H} (h : Quiet before after) :
    Consults pc before after := by
  intro _
  rw [h.methods]
  exact .refl _

instance : Trans (Still (H := H)) (Consults (H := H) pc) (Consults (H := H) pc) where
  trans := by
    intro a b c hab hbc hcounter
    rw [← hab.methods]
    exact hbc (hab.counter.trans hcounter)

instance : Trans (Consults (H := H) pc) (Quiet (H := H)) (Consults (H := H) pc) where
  trans := by
    intro a b c hab hbc hcounter
    rw [hbc.methods]
    exact hab hcounter

theorem consults_of_quiet {program : Exec H α} (h : Keeps Quiet program) :
    Keeps (Consults pc) program :=
  fun m => (h m).consults

theorem consults_of_still {program : Exec H α} {next : α → Exec H β} (h : Keeps Still program)
    (hnext : ∀ a, Keeps (Consults pc) (next a)) : Keeps (Consults pc) (program >>= next) :=
  keeps_bind_of h hnext fun hstill => hstill.toQuiet.consults

theorem consults_then_quiet {program : Exec H α} {next : α → Exec H β}
    (h : Keeps (Consults pc) program) (hnext : ∀ a, Keeps Quiet (next a)) :
    Keeps (Consults pc) (program >>= next) :=
  keeps_bind_of h hnext id

/-- Reading an immediate reads what is behind the opcode. -/
theorem consults_immediate {load : Nat → Store.Op α} (width : Nat)
    (hload : ∀ store : Store,
      store.Logs (Access.Fetches store.selected? pc) (finalState (load (pc + 1) store))) :
    Keeps (Consults pc) (do
      let value ← onMethods (load (← counter))
      onTop (Frame.skip width)
      return value : Exec H α) := by
  intro m hcounter
  obtain ⟨top, hhead, hpc⟩ := Option.map_eq_some_iff.mp hcounter
  obtain ⟨rest, hlane⟩ := List.head?_eq_some_iff.mp hhead
  have hread := hload m.methods
  simp only [bind, EStateM.bind, counter, hlane, hpc, onMethods]
  cases hrun : load (pc + 1) m.methods with
  | ok value methods =>
    rw [hrun] at hread
    exact hread
  | error e methods =>
    rw [hrun] at hread
    exact hread

theorem consults_immediateHalf : Keeps (Consults (H := H) pc) immediateHalf :=
  consults_immediate 2 Store.logs_loadHalf

theorem consults_immediateWord : Keeps (Consults (H := H) pc) immediateWord :=
  consults_immediate wordSize Store.logs_loadWord

theorem consults_jumpIfEqual : Keeps (Consults (H := H) pc) jumpIfEqual := by
  refine consults_of_still (still_onStack _) fun words => ?_
  obtain ⟨first, second⟩ := words
  dsimp only
  split
  · exact consults_then_quiet consults_immediateHalf fun _ => quiet_onTop _
  · exact consults_of_quiet (quiet_onTop _)

theorem consults_passArgument : Keeps (Consults (H := H) pc) passArgument := by
  refine consults_then_quiet consults_immediateHalf fun offset => ?_
  exact keeps_bind (quiet_onTop _) fun _ => keeps_bind (quiet_onArguments _) fun _ => quiet_onTop _

variable [Heap H]

theorem consults_call (context app method : Identifier) :
    Keeps (Consults (H := H) pc) (call context app method) := by
  intro m _
  unfold call
  split
  · exact .refl _
  · exact Store.logs_select m.methods app method

theorem consults_invokeInternal : Keeps (Consults (H := H) pc) invokeInternal := by
  refine consults_of_still still_popIdentifier fun method => ?_
  refine consults_of_still keeps_get fun m => ?_
  split
  · exact consults_of_quiet (keeps_throw _)
  · exact consults_call _ _ method

omit [Heap H] in
theorem quiet_spawn (app : Identifier) : Keeps (Quiet (H := H)) (spawn app) := by
  intro m
  unfold spawn
  split
  · exact ⟨rfl⟩
  · split <;> exact ⟨rfl⟩

theorem quiet_markIndependent : Keeps (Quiet (H := H)) markIndependent := by
  intro m
  unfold markIndependent
  split <;> exact ⟨rfl⟩

omit [Heap H] in
theorem quiet_enter : Keeps (Quiet (H := H)) enter := by
  intro m
  unfold enter
  split
  · exact ⟨rfl⟩
  · split <;> exact ⟨rfl⟩

/-- An unwind reads no code; it selects that of the frame that runs next. -/
theorem logs_unwind {code : Option Bytes} (dropped kept : Lane) (count : Nat) (status : Status)
    (m : Machine H) :
    m.methods.Logs (Access.Fetches code pc)
      (finalState (unwind dropped kept count status m)).methods := by
  unfold unwind
  split
  · exact .refl _
  · rw [finalState_ok]
    cases m.onward status kept with
    | caller caller rest =>
      rw [unwound_caller]
      exact Store.logs_select m.methods caller.app caller.method
    | @next hstatus next waiting hwaiting =>
      rw [unwound_next m dropped count hstatus hwaiting]
      exact Store.logs_select m.methods next.app next.method
    | last hends =>
      rw [unwound_last m dropped count hends]
      exact .refl _

theorem consults_returnBytes (count : Nat) (status : Status) :
    Keeps (Consults (H := H) pc) (returnBytes count status) := by
  intro m _
  unfold returnBytes
  split
  · exact .refl _
  · exact logs_unwind _ _ count status m

theorem consults_throwBytes (count : Nat) (status : Status) :
    Keeps (Consults (H := H) pc) (throwBytes count status) :=
  fun m _ => logs_unwind _ _ count status m

theorem consults_execute (opcode : Opcode) : Keeps (Consults (H := H) pc) (execute opcode) := by
  cases opcode with
  | noOp => exact consults_of_quiet (keeps_pure ())
  | invokeDispatcher =>
    exact consults_of_still still_popIdentifier fun app => consults_call app app _
  | indInvokeDispatcher =>
    refine consults_then_quiet ?_ fun _ => quiet_markIndependent
    exact consults_of_still still_popIdentifier fun app => consults_call app app _
  | spawnDispatcher =>
    exact consults_of_still still_popIdentifier fun app => consults_of_quiet (quiet_spawn app)
  | invokeInternal => exact consults_invokeInternal
  | indInvokeInternal =>
    exact consults_then_quiet consults_invokeInternal fun _ => quiet_markIndependent
  | ret0 => exact consults_returnBytes 0 .noError
  | ret64 => exact consults_returnBytes wordSize .noError
  | throw => exact consults_of_still (still_onStack _) fun count => consults_throwBytes count _
  | enter => exact consults_of_quiet quiet_enter
  | pushC64 => exact consults_then_quiet consults_immediateWord fun _ => quiet_onTop _
  | pop => exact consults_of_quiet (keeps_bind (quiet_onTop _) fun _ => keeps_pure ())
  | iAdd | iSub => exact consults_of_quiet (quiet_onTop _)
  | argC16 => exact consults_passArgument
  | lfLoadC16 | lfStoreC16 => exact consults_then_quiet consults_immediateHalf fun _ => quiet_onTop _
  | jmpEqC16 => exact consults_jumpIfEqual

/-! ## Steps -/

section

variable {m : Machine H} {top : Frame} {rest : Lane}

omit [Heap H] in
theorem byte?_eq (hlane : m.lane = top :: rest) :
    m.byte? = m.methods.selected?.bind (·[top.pc]?) := by
  cases hread : Store.loadByte top.pc m.methods with
  | ok byte methods =>
    rw [(Store.loadByte_eq_ok hread).1]
    simp only [byte?, fetch, hlane, bind, EStateM.bind, onMethods, hread, onTop, Frame.skip, pure,
      EStateM.pure]
  | error e methods =>
    rw [(Store.loadByte_eq_error hread).1]
    simp only [byte?, fetch, hlane, bind, EStateM.bind, onMethods, hread]

theorem logs_instruction (hlane : m.lane = top :: rest) :
    m.methods.Logs (Access.Fetches m.methods.selected? top.pc)
      (finalState (instruction m)).methods := by
  cases hread : Store.loadByte top.pc m.methods with
  | error e methods =>
    obtain ⟨-, rfl⟩ := Store.loadByte_eq_error hread
    simp only [instruction, fetch, hlane, bind, EStateM.bind, onMethods, hread]
    exact .refl _
  | ok byte methods =>
    obtain ⟨hbyte, rfl⟩ := Store.loadByte_eq_ok hread
    have hopcode := Store.logs_record (Access.Fetches.opcode hbyte) m.methods
    simp only [instruction, fetch, hlane, bind, EStateM.bind, onMethods, hread, onTop, Frame.skip,
      pure, EStateM.pure]
    cases Opcode.ofByte? byte with
    | none => exact hopcode
    | some opcode =>
      have hexecute : Keeps (Consults (H := H) top.pc) (do announce opcode; execute opcode; return false) :=
        consults_of_still (still_announce opcode) fun _ =>
          consults_then_quiet (consults_execute opcode) fun _ => keeps_pure false
      -- reading the opcode leaves the selection alone and puts the counter right behind it
      exact hopcode.trans (hexecute _ rfl)

/-- The throw that answers a fault reads no code either. -/
theorem logs_recover {code : Option Bytes} (left : Machine H) (fault : Fault) :
    left.methods.Logs (Access.Fetches code pc) (left.recover fault).methods := by
  have hthrow : left.methods.Logs (Access.Fetches code pc)
      (finalState (throwBytes 0 fault.status (left.emit (.failed fault)))).methods :=
    logs_unwind _ _ 0 fault.status (left.emit (.failed fault))
  unfold recover
  cases hrun : throwBytes 0 fault.status (left.emit (.failed fault)) with
  | ok _ after =>
    rw [hrun] at hthrow
    exact hthrow
  | error _ after =>
    rw [hrun] at hthrow
    exact hthrow

/-- Everything that a step reads is the opcode under the counter of the running frame or the immediate
behind it. -/
theorem logs_step (hlane : m.lane = top :: rest) :
    m.methods.Logs (Access.Fetches m.methods.selected? top.pc) m.step.2.methods := by
  have hinstruction := logs_instruction hlane
  unfold step
  cases hrun : instruction m with
  | ok finished after =>
    rw [hrun] at hinstruction
    exact hinstruction
  | error fault left =>
    rw [hrun] at hinstruction
    exact hinstruction.trans (logs_recover left fault)

/-- A spawn leaves both stores as they are, but for the read of its opcode. -/
theorem agrees_of_spawnedFrame? {frame : Frame} (h : m.spawnedFrame? = some frame) :
    m.methods.Agrees m.step.2.methods ∧ m.step.2.heap = m.heap := by
  unfold spawnedFrame? at h
  split at h
  · rename_i hfault hrole hlane
    have hne : m.lane ≠ [] := hlane ▸ List.cons_ne_nil _ _
    obtain ⟨role, top, rest, worked, hsame, hworked, hdoes⟩ := exists_does hfault hne
    rw [hrole] at hsame
    cases hsame
    generalize m.step.2 = after at hdoes
    cases hdoes with
    | spawn hpop => exact ⟨hworked.methods, hworked.heap⟩
  · cases h

end

end Machine

namespace Session

theorem points_state (session : Session Store) (n : Nat) : (session.state n).Points := by
  induction n with
  | zero =>
    obtain ⟨buffer, -, -, hfirst⟩ := session.exists_first_eq
    rw [state_zero, hfirst]
    exact Machine.points_of_lane rfl ⟨rfl, rfl, rfl, rfl⟩
  | succ n ih => exact (session.effect_state n).points ih

/-- In every machine that a session over stores goes through, the store of methods holds the code and
the checkpoints that it held before the session, and while a frame runs, both stores are turned to it.
So the next byte of code, and every opcode and immediate that the step reads, comes from the frame's own
method, at its own counter.  A spawn does not move either selection. -/
theorem turned_to_running_frame (session : Session Store) (n : Nat) :
    (session.state n).methods.chunks = session.methods.chunks ∧
    (session.state n).methods.checkpoints = session.methods.checkpoints ∧
    (∀ top rest, (session.state n).lane = top :: rest →
      (session.state n).PointsAt top ∧
      (session.state n).byte? = (session.methods.chunk? top.app top.method).bind (·[top.pc]?) ∧
      (session.state n).methods.Logs
        (Access.Fetches (session.methods.chunk? top.app top.method) top.pc)
        (session.state (n + 1)).methods) ∧
    ((session.state n).spawnedFrame? ≠ none →
      (session.state n).methods.Agrees (session.state (n + 1)).methods ∧
      (session.state (n + 1)).heap = (session.state n).heap) := by
  obtain ⟨-, hchunks, hcheckpoints⟩ := session.fixed_state n
  refine ⟨hchunks, hcheckpoints, ?_, ?_⟩
  · intro top rest hlane
    have hpoints := session.points_state n top rest hlane
    have hcode : (session.state n).methods.selected? = session.methods.chunk? top.app top.method := by
      rw [hpoints.selected?_eq, Store.chunk?, Store.chunk?, hchunks]
    rw [state_succ, ← hcode]
    exact ⟨hpoints, Machine.byte?_eq hlane, Machine.logs_step hlane⟩
  · intro hspawned
    obtain ⟨frame, hframe⟩ := Option.ne_none_iff_exists'.mp hspawned
    rw [state_succ]
    exact Machine.agrees_of_spawnedFrame? hframe

end Session

end LaneMachine
