import LaneMachine.Machine.Execute
set_option autoImplicit false

/-!
# Steps and runs

A step fetches, decodes and executes one instruction.  No fault leaves the machine: a
step that fails throws the fault's status, with no bytes, from wherever the failing
instruction left the machine.

A run is a number of steps.  It stops early once no frame is left.
-/

namespace LaneMachine

namespace Machine

variable {H : Type}

/-- Reads the next byte of code and moves past it; `none` if no frame is left. -/
def fetch : Exec H (Option UInt8) := fun m =>
  match m.lane with
  | [] => .ok none m
  | top :: _ =>
    (do
      let byte ← onMethods (Store.loadByte top.pc)
      onTop (Frame.skip 1)
      return some byte : Exec H (Option UInt8)) m

/-- Reports an instruction whose opcode was just read. -/
def announce (opcode : Opcode) : Exec H Unit := fun m =>
  let pc := match m.lane with
    | [] => 0
    | top :: _ => top.pc - 1
  .ok () (m.emit (.execute opcode pc m.depth))

/-- Fetches, decodes and executes one instruction.  The result is whether there was no frame left
to run. -/
def instruction [Heap H] : Exec H Bool := do
  match ← fetch with
  | none => return true
  | some byte =>
    match Opcode.ofByte? byte with
    | none => throw (.invalidOpcode byte)
    | some opcode =>
      announce opcode
      execute opcode
      return false

/-- Throws the status of a fault.  A machine that cannot even throw stops. -/
def recover [Heap H] (m : Machine H) (fault : Fault) : Machine H :=
  match throwBytes 0 fault.status (m.emit (.failed fault)) with
  | .ok _ m => m
  | .error _ m => m.abort fault.status

/-- One step.  The flag is set if there was no frame left to run; a step that fails counts as a step,
even if its throw ends the session. -/
def step [Heap H] (m : Machine H) : Bool × Machine H :=
  match instruction m with
  | .ok finished m => (finished, m)
  | .error fault m => (false, m.recover fault)

/-- A machine without a frame has nothing to step. -/
theorem step_of_complete [Heap H] (m : Machine H) (h : m.lane = []) : m.step = (true, m) := by
  have hfetch : fetch m = .ok none m := by simp [fetch, h]
  have hinst : instruction m = .ok true m := by
    simp [instruction, bind, EStateM.bind, hfetch, pure, EStateM.pure]
  simp [step, hinst]

/-- Takes up to `count` steps and stops after one that finds no frame left.  The result is the number
of steps taken, whether the last of them found no frame left, and the machine. -/
def steps [Heap H] : (count : Nat) → Machine H → Nat × Bool × Machine H
  | 0, m => (0, false, m)
  | count + 1, m =>
    match m.step with
    | (true, m) => (1, true, m)
    | (false, m) =>
      let (taken, finished, m) := steps count m
      (taken + 1, finished, m)

/-- Takes up to `fuel` steps and stops once no frame is left. -/
def run [Heap H] : (fuel : Nat) → Machine H → Machine H
  | 0, m => m
  | fuel + 1, m => if m.isComplete then m else run fuel m.step.2

@[simp]
theorem run_zero [Heap H] (m : Machine H) : run 0 m = m := rfl

theorem run_succ_of_complete [Heap H] (fuel : Nat) (m : Machine H) (h : m.isComplete = true) :
    run (fuel + 1) m = m := by
  simp [run, h]

theorem run_succ_of_running [Heap H] (fuel : Nat) (m : Machine H) (h : m.isComplete = false) :
    run (fuel + 1) m = run fuel m.step.2 := by
  simp [run, h]

/-- A complete machine stays as it is. -/
theorem run_of_complete [Heap H] (fuel : Nat) (m : Machine H) (h : m.isComplete = true) :
    run fuel m = m := by
  cases fuel with
  | zero => rfl
  | succ fuel => exact run_succ_of_complete fuel m h

/-- A run may be cut anywhere. -/
theorem run_add [Heap H] (a b : Nat) (m : Machine H) : run (a + b) m = run b (run a m) := by
  induction a generalizing m with
  | zero => simp
  | succ a ih =>
    rw [Nat.add_right_comm]
    cases h : m.isComplete with
    | true => rw [run_succ_of_complete _ _ h, run_succ_of_complete _ _ h, run_of_complete _ _ h]
    | false => rw [run_succ_of_running _ _ h, run_succ_of_running _ _ h, ih]

end Machine

end LaneMachine
