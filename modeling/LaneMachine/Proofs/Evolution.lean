import LaneMachine.Machine.Step
set_option autoImplicit false

/-!
# What stays while a frame works

Most of what an instruction does happens inside the running frame: it moves the program
counter, rearranges the operand stack, writes locals or arguments, and reads code.  This
module says once what all of that leaves alone, whether the program succeeds or fails.

`Keeps R program` says that `program` moves its state along `R` however it ends.  The
relations are `Evolves`, for buffers, frames, lanes and machines: the ceilings stay, a
buffer under its ceiling stays under it, and every part of the machine that belongs to
somebody else is as it was.
-/

namespace LaneMachine

section

variable {ε σ α β : Type}

/-- The state that a program leaves, however it ends. -/
def finalState : EStateM.Result ε σ α → σ
  | .ok _ after => after
  | .error _ after => after

@[simp]
theorem finalState_ok (a : α) (after : σ) :
    finalState (.ok a after : EStateM.Result ε σ α) = after := rfl

/-- However the program ends, `R` relates the state it began with to the one it leaves. -/
def Keeps (R : σ → σ → Prop) (program : EStateM ε σ α) : Prop :=
  ∀ before, R before (finalState (program before))

variable {R : σ → σ → Prop}

theorem Keeps.of_ok {program : EStateM ε σ α} (h : Keeps R program) {before after : σ} {a : α}
    (hrun : program before = .ok a after) : R before after := by
  have hkept := h before
  rwa [hrun] at hkept

theorem Keeps.of_error {program : EStateM ε σ α} (h : Keeps R program) {before after : σ} {e : ε}
    (hrun : program before = .error e after) : R before after := by
  have hkept := h before
  rwa [hrun] at hkept

theorem keeps_pure [Std.Refl R] (a : α) : Keeps R (pure a : EStateM ε σ α) :=
  fun before => Std.Refl.refl before

theorem keeps_throw [Std.Refl R] (e : ε) : Keeps R (throw e : EStateM ε σ α) :=
  fun before => Std.Refl.refl before

theorem keeps_get [Std.Refl R] : Keeps R (get : EStateM ε σ σ) :=
  fun before => Std.Refl.refl before

theorem keeps_bind [Trans R R R] {program : EStateM ε σ α} {next : α → EStateM ε σ β}
    (hprogram : Keeps R program) (hnext : ∀ a, Keeps R (next a)) :
    Keeps R (program >>= next) := by
  intro before
  simp only [bind, EStateM.bind]
  cases hrun : program before with
  | ok a middle =>
    have hfirst : R before middle := hprogram.of_ok hrun
    exact Trans.trans hfirst (hnext a middle)
  | error e middle => exact hprogram.of_error hrun

end

/-! ## Buffers -/

namespace Buffer

/-- The ceiling stays, and a buffer that is under it stays under it. -/
structure Evolves (before after : Buffer) : Prop where
  ceiling : after.ceiling = before.ceiling
  fits : before.size ≤ before.ceiling → after.size ≤ after.ceiling

theorem Evolves.refl (buffer : Buffer) : buffer.Evolves buffer := ⟨rfl, id⟩

theorem Evolves.trans {a b c : Buffer} (hab : a.Evolves b) (hbc : b.Evolves c) : a.Evolves c :=
  ⟨hbc.ceiling.trans hab.ceiling, fun h => hbc.fits (hab.fits h)⟩

instance : Std.Refl Evolves := ⟨Evolves.refl⟩

instance : Trans Evolves Evolves Evolves := ⟨Evolves.trans⟩

theorem evolves_append {buffer : Buffer} {bytes : Bytes}
    (h : buffer.size + bytes.size ≤ buffer.ceiling) : buffer.Evolves (buffer.append bytes) := by
  refine ⟨ceiling_append buffer bytes, fun _ => ?_⟩
  rw [size_append, ceiling_append]
  exact h

theorem keeps_ensure (length : Nat) : Keeps Evolves (ensure length) := by
  intro before
  unfold ensure
  split
  · exact .refl before
  · split
    · exact .refl before
    · refine evolves_append ?_
      rw [Array.size_replicate]
      omega

theorem keeps_truncate (length : Nat) : Keeps Evolves (truncate length) := by
  intro before
  refine ⟨rfl, fun h => ?_⟩
  simp only [size] at h
  simp only [truncate, finalState_ok, size, Array.size_shrink]
  omega

theorem keeps_top (count : Nat) : Keeps Evolves (top count) := by
  intro before
  unfold top
  split <;> exact .refl before

theorem keeps_read (offset : Nat) : Keeps Evolves (read offset) := by
  intro before
  unfold read
  split <;> exact .refl before

theorem keeps_write (offset : Nat) (word : UInt64) : Keeps Evolves (write offset word) := by
  intro before
  unfold write
  split
  · exact .refl before
  · constructor
    · simp only [finalState_ok]
    · simp only [finalState_ok, size, Bytes.size_overwrite]
      exact id

theorem keeps_push (word : UInt64) : Keeps Evolves (push word) := by
  intro before
  unfold push pushBytes
  split
  · rename_i hfits
    exact evolves_append (of_decide_eq_true hfits)
  · exact .refl before

theorem keeps_peek : Keeps Evolves peek :=
  keeps_bind (keeps_top wordSize) fun _ => keeps_pure _

theorem keeps_peekTwo : Keeps Evolves peekTwo :=
  keeps_bind (keeps_top (2 * wordSize)) fun _ => keeps_pure _

theorem keeps_drop : Keeps Evolves drop :=
  fun before => keeps_truncate (before.size - wordSize) before

theorem keeps_pop : Keeps Evolves pop :=
  keeps_bind keeps_peek fun _ => keeps_bind keeps_drop fun _ => keeps_pure _

theorem keeps_combineTwo (combine : UInt64 → UInt64 → UInt64) :
    Keeps Evolves (combineTwo combine) :=
  keeps_bind keeps_peekTwo fun _ => keeps_bind keeps_get fun _ =>
    keeps_bind (keeps_write _ _) fun _ => keeps_drop

theorem keeps_thrownSize : Keeps Evolves thrownSize := by
  refine keeps_bind (keeps_top 2) fun bytes => keeps_bind keeps_get fun buffer => ?_
  dsimp only
  split
  · exact keeps_bind (keeps_throw _) fun _ => keeps_pure _
  · exact keeps_pure _

end Buffer

/-! ## Stores -/

namespace Store

/-- Two stores that differ at most in their access logs. -/
structure Agrees (a b : Store) : Prop where
  chunks : a.chunks = b.chunks
  checkpoints : a.checkpoints = b.checkpoints
  root : a.root = b.root
  child : a.child = b.child

theorem Agrees.refl (store : Store) : store.Agrees store := ⟨rfl, rfl, rfl, rfl⟩

theorem Agrees.trans {a b c : Store} (hab : a.Agrees b) (hbc : b.Agrees c) : a.Agrees c where
  chunks := hab.chunks.trans hbc.chunks
  checkpoints := hab.checkpoints.trans hbc.checkpoints
  root := hab.root.trans hbc.root
  child := hab.child.trans hbc.child

instance : Std.Refl Agrees := ⟨Agrees.refl⟩

instance : Trans Agrees Agrees Agrees := ⟨Agrees.trans⟩

theorem agrees_record (store : Store) (access : Access) : store.Agrees (store.record access) :=
  ⟨rfl, rfl, rfl, rfl⟩

theorem keeps_loadByte (offset : Nat) : Keeps Agrees (loadByte offset) := by
  intro before
  unfold loadByte
  split
  · exact .refl before
  · exact agrees_record before _

theorem keeps_loadHalf (offset : Nat) : Keeps Agrees (loadHalf offset) := by
  intro before
  unfold loadHalf
  split
  · exact .refl before
  · exact agrees_record before _

theorem keeps_loadWord (offset : Nat) : Keeps Agrees (loadWord offset) := by
  intro before
  unfold loadWord
  split
  · exact .refl before
  · exact agrees_record before _

end Store

/-! ## Frames and lanes -/

namespace Frame

/-- The frame runs the same method in the same place, with the same mark and lock. -/
structure Evolves (before after : Frame) : Prop where
  context : after.context = before.context
  app : after.app = before.app
  method : after.method = before.method
  independent : after.independent = before.independent
  lock : after.lock = before.lock
  stack : before.stack.Evolves after.stack
  locals : before.locals.Evolves after.locals

theorem Evolves.refl (frame : Frame) : frame.Evolves frame :=
  ⟨rfl, rfl, rfl, rfl, rfl, .refl _, .refl _⟩

theorem Evolves.trans {a b c : Frame} (hab : a.Evolves b) (hbc : b.Evolves c) : a.Evolves c where
  context := hbc.context.trans hab.context
  app := hbc.app.trans hab.app
  method := hbc.method.trans hab.method
  independent := hbc.independent.trans hab.independent
  lock := hbc.lock.trans hab.lock
  stack := hab.stack.trans hbc.stack
  locals := hab.locals.trans hbc.locals

instance : Std.Refl Evolves := ⟨Evolves.refl⟩

instance : Trans Evolves Evolves Evolves := ⟨Evolves.trans⟩

variable {α : Type}

theorem keeps_onStack {op : Buffer.Op α} (h : Keeps Buffer.Evolves op) :
    Keeps Evolves (onStack op) := by
  intro before
  unfold onStack
  split
  · rename_i hrun
    exact ⟨rfl, rfl, rfl, rfl, rfl, h.of_ok hrun, .refl _⟩
  · rename_i hrun
    exact ⟨rfl, rfl, rfl, rfl, rfl, h.of_error hrun, .refl _⟩

theorem keeps_onLocals {op : Buffer.Op α} (h : Keeps Buffer.Evolves op) :
    Keeps Evolves (onLocals op) := by
  intro before
  unfold onLocals
  split
  · rename_i hrun
    exact ⟨rfl, rfl, rfl, rfl, rfl, .refl _, h.of_ok hrun⟩
  · rename_i hrun
    exact ⟨rfl, rfl, rfl, rfl, rfl, .refl _, h.of_error hrun⟩

theorem keeps_skip (count : Nat) : Keeps Evolves (skip count) :=
  fun _ => ⟨rfl, rfl, rfl, rfl, rfl, .refl _, .refl _⟩

theorem keeps_jump (distance : Int) : Keeps Evolves (jump distance) := by
  intro before
  unfold jump
  dsimp only
  split
  · exact ⟨rfl, rfl, rfl, rfl, rfl, .refl _, .refl _⟩
  · exact .refl before

end Frame

namespace Lane

/-- Only the running frame evolves. -/
inductive Evolves : Lane → Lane → Prop
  | nil : Evolves [] []
  | cons {before after : Frame} {rest : Lane} (h : before.Evolves after) :
      Evolves (before :: rest) (after :: rest)

theorem Evolves.refl (lane : Lane) : Evolves lane lane := by
  cases lane with
  | nil => exact .nil
  | cons top rest => exact .cons (.refl top)

theorem Evolves.trans {a b c : Lane} (hab : Evolves a b) (hbc : Evolves b c) : Evolves a c := by
  cases hab with
  | nil => exact hbc
  | cons hfirst =>
    cases hbc with
    | cons hsecond => exact .cons (hfirst.trans hsecond)

end Lane

/-! ## Machines -/

namespace Machine

variable {H α : Type}

/-- Only the running frame and the arguments of its next call evolve; code was at most read. -/
structure Evolves (before after : Machine H) : Prop where
  limits : after.limits = before.limits
  lane : before.lane.Evolves after.lane
  waiting : after.waiting = before.waiting
  status : after.status = before.status
  locks : after.locks = before.locks
  arguments : before.arguments.Evolves after.arguments
  output : after.output = before.output
  methods : before.methods.Agrees after.methods
  heap : after.heap = before.heap

theorem Evolves.refl (m : Machine H) : m.Evolves m :=
  ⟨rfl, .refl _, rfl, rfl, rfl, .refl _, rfl, .refl _, rfl⟩

theorem Evolves.trans {a b c : Machine H} (hab : a.Evolves b) (hbc : b.Evolves c) :
    a.Evolves c where
  limits := hbc.limits.trans hab.limits
  lane := hab.lane.trans hbc.lane
  waiting := hbc.waiting.trans hab.waiting
  status := hbc.status.trans hab.status
  locks := hbc.locks.trans hab.locks
  arguments := hab.arguments.trans hbc.arguments
  output := hbc.output.trans hab.output
  methods := hab.methods.trans hbc.methods
  heap := hbc.heap.trans hab.heap

instance : Std.Refl (Evolves (H := H)) := ⟨Evolves.refl⟩

instance : Trans (Evolves (H := H)) (Evolves (H := H)) (Evolves (H := H)) := ⟨Evolves.trans⟩

theorem evolves_emit (m : Machine H) (event : Event) : m.Evolves (m.emit event) :=
  ⟨rfl, .refl _, rfl, rfl, rfl, .refl _, rfl, .refl _, rfl⟩

theorem keeps_onTop {op : Frame.Op α} (h : Keeps Frame.Evolves op) :
    Keeps (Evolves (H := H)) (onTop op) := by
  intro before
  unfold onTop
  split
  · exact .refl before
  · rename_i top rest hlane
    have hstart : before.lane.Evolves (top :: rest) := hlane ▸ .refl _
    split
    · rename_i hrun
      exact ⟨rfl, hstart.trans (.cons (h.of_ok hrun)), rfl, rfl, rfl, .refl _, rfl, .refl _, rfl⟩
    · rename_i hrun
      exact ⟨rfl, hstart.trans (.cons (h.of_error hrun)), rfl, rfl, rfl, .refl _, rfl, .refl _, rfl⟩

theorem keeps_onStack {op : Buffer.Op α} (h : Keeps Buffer.Evolves op) :
    Keeps (Evolves (H := H)) (onStack op) :=
  keeps_onTop (Frame.keeps_onStack h)

theorem keeps_onArguments {op : Buffer.Op α} (h : Keeps Buffer.Evolves op) :
    Keeps (Evolves (H := H)) (onArguments op) := by
  intro before
  unfold onArguments
  split
  · rename_i hrun
    exact ⟨rfl, .refl _, rfl, rfl, rfl, h.of_ok hrun, rfl, .refl _, rfl⟩
  · rename_i hrun
    exact ⟨rfl, .refl _, rfl, rfl, rfl, h.of_error hrun, rfl, .refl _, rfl⟩

theorem keeps_onMethods {op : Store.Op α} (h : Keeps Store.Agrees op) :
    Keeps (Evolves (H := H)) (onMethods op) := by
  intro before
  unfold onMethods
  split
  · rename_i hrun
    exact ⟨rfl, .refl _, rfl, rfl, rfl, .refl _, rfl, h.of_ok hrun, rfl⟩
  · rename_i hrun
    exact ⟨rfl, .refl _, rfl, rfl, rfl, .refl _, rfl, h.of_error hrun, rfl⟩

/-! ## Instructions that stay in their frame -/

theorem keeps_counter : Keeps (Evolves (H := H)) counter := by
  intro before
  unfold counter
  split <;> exact .refl before

theorem keeps_immediateHalf : Keeps (Evolves (H := H)) immediateHalf :=
  keeps_bind keeps_counter fun _ => keeps_bind (keeps_onMethods (Store.keeps_loadHalf _)) fun _ =>
    keeps_bind (keeps_onTop (Frame.keeps_skip 2)) fun _ => keeps_pure _

theorem keeps_immediateWord : Keeps (Evolves (H := H)) immediateWord :=
  keeps_bind keeps_counter fun _ => keeps_bind (keeps_onMethods (Store.keeps_loadWord _)) fun _ =>
    keeps_bind (keeps_onTop (Frame.keeps_skip wordSize)) fun _ => keeps_pure _

theorem keeps_popIdentifier : Keeps (Evolves (H := H)) popIdentifier :=
  keeps_bind (keeps_onStack Buffer.keeps_pop) fun _ => keeps_pure _

theorem keeps_pushImmediate : Keeps (Evolves (H := H)) pushImmediate :=
  keeps_bind keeps_immediateWord fun word => keeps_onStack (Buffer.keeps_push word)

theorem keeps_passArgument : Keeps (Evolves (H := H)) passArgument := by
  refine keeps_bind keeps_immediateHalf fun offset => ?_
  refine keeps_bind (keeps_onStack Buffer.keeps_peek) fun word => ?_
  refine keeps_bind (keeps_onArguments ?_) fun _ => keeps_onStack Buffer.keeps_drop
  exact keeps_bind (Buffer.keeps_ensure _) fun _ => Buffer.keeps_write _ word

theorem keeps_loadLocal : Keeps (Evolves (H := H)) loadLocal := by
  refine keeps_bind keeps_immediateHalf fun offset => keeps_onTop ?_
  refine keeps_bind (Frame.keeps_onLocals (Buffer.keeps_read _)) fun word => ?_
  exact Frame.keeps_onStack (Buffer.keeps_push word)

theorem keeps_storeLocal : Keeps (Evolves (H := H)) storeLocal := by
  refine keeps_bind keeps_immediateHalf fun offset => keeps_onTop ?_
  refine keeps_bind (Frame.keeps_onStack Buffer.keeps_peek) fun word => ?_
  refine keeps_bind (Frame.keeps_onLocals ?_) fun _ => Frame.keeps_onStack Buffer.keeps_drop
  exact keeps_bind (Buffer.keeps_ensure _) fun _ => Buffer.keeps_write _ word

theorem keeps_jumpIfEqual : Keeps (Evolves (H := H)) jumpIfEqual := by
  refine keeps_bind (keeps_onStack Buffer.keeps_peekTwo) fun words => ?_
  obtain ⟨first, second⟩ := words
  dsimp only
  split
  · exact keeps_bind keeps_immediateHalf fun _ => keeps_onTop (Frame.keeps_jump _)
  · exact keeps_onTop (Frame.keeps_skip 2)

theorem keeps_announce (opcode : Opcode) : Keeps (Evolves (H := H)) (announce opcode) :=
  fun m => evolves_emit m _

theorem keeps_fetch : Keeps (Evolves (H := H)) fetch := by
  intro m
  unfold fetch
  split
  · exact .refl m
  · rename_i top rest hlane
    have hread : Keeps (Evolves (H := H)) (do
        let byte ← onMethods (Store.loadByte top.pc)
        onTop (Frame.skip 1)
        return some byte) :=
      keeps_bind (keeps_onMethods (Store.keeps_loadByte _)) fun _ =>
        keeps_bind (keeps_onTop (Frame.keeps_skip 1)) fun _ => keeps_pure _
    exact hread m

end Machine

end LaneMachine
