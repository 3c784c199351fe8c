import LaneMachine.Proofs.Run
set_option autoImplicit false

/-!
# Faults leave nothing behind

An instruction may fail after it has moved the program counter, popped an operand or grown
a buffer.  None of that survives: the frame it happened in is the first that the throw
drops, and the throw looks at nothing else that could have changed.  So a step that fails
ends where a throw from the machine *before* the step would have ended.
-/

namespace LaneMachine

/-! ## What a throw without bytes can see -/

namespace Lane

theorem Evolves.split_eq {before after : Lane} (h : Evolves before after) :
    Evolves before.split.1 after.split.1 ∧ after.split.2 = before.split.2 := by
  cases h with
  | nil => exact ⟨.nil, rfl⟩
  | @cons top top' rest hframe =>
    obtain ⟨more, hmore⟩ := split_cons top rest
    have hsplit := split_congr rest hframe.independent
    rw [hmore, List.tail_cons] at hsplit
    rw [hsplit, hmore]
    exact ⟨.cons hframe, rfl⟩

theorem Evolves.getLast?_any_independent {before after : Lane} (h : Evolves before after) :
    after.getLast?.any Frame.independent = before.getLast?.any Frame.independent := by
  cases h with
  | nil => rfl
  | @cons top top' rest hframe =>
    cases rest with
    | nil => exact hframe.independent
    | cons below rest => simp only [List.getLast?_cons_cons]

theorem Evolves.locksWithout_eq {before after : Lane} (h : Evolves before after)
    (locks : List Identifier) :
    Machine.locksWithout locks after = Machine.locksWithout locks before := by
  cases h with
  | nil => rfl
  | cons hframe => simp only [Machine.locksWithout, List.any_cons, hframe.lock]

end Lane

namespace Machine

variable {H : Type}

theorem payload_zero (dropped : Lane) : payload dropped 0 = #[] :=
  Array.eq_empty_of_size_eq_zero (Nat.le_zero.mp (size_payload_le dropped 0))

/-- Two machines that differ at most in the access log of their code, in their events, and in the
arguments of a call that no frame is left to make. -/
structure Agrees (a b : Machine H) : Prop where
  limits : a.limits = b.limits
  lane : a.lane = b.lane
  waiting : a.waiting = b.waiting
  status : a.status = b.status
  locks : a.locks = b.locks
  arguments : a.lane ≠ [] → a.arguments = b.arguments
  output : a.output = b.output
  methods : a.methods.Agrees b.methods
  heap : a.heap = b.heap

theorem agrees_select {a b : Store} (h : a.Agrees b) (root child : Identifier) :
    ((a.selectRoot root).selectChild child).Agrees ((b.selectRoot root).selectChild child) :=
  ⟨h.chunks, h.checkpoints, rfl, rfl⟩

theorem Evolves.agrees_unwound [Heap H] {m worked : Machine H} (h : m.Evolves worked)
    {dropped dropped' : Lane} (hdropped : dropped.Evolves dropped') (kept : Lane)
    (status : Status) :
    (worked.unwound dropped' kept 0 status).Agrees (m.unwound dropped kept 0 status) := by
  have hlocks := hdropped.locksWithout_eq m.locks
  have hmark := hdropped.getLast?_any_independent
  have hmethods : worked.methods.Agrees m.methods :=
    ⟨h.methods.chunks.symm, h.methods.checkpoints.symm, h.methods.root.symm, h.methods.child.symm⟩
  cases m.onward status kept with
  | caller caller rest =>
    rw [unwound_caller, unwound_caller, payload_zero, payload_zero, hmark, h.heap, h.limits,
      h.locks, hlocks]
    exact ⟨rfl, rfl, h.waiting, rfl, rfl, fun _ => rfl, h.output,
      agrees_select hmethods caller.app caller.method, rfl⟩
  | @next hstatus next waiting hwaiting =>
    have hworked : worked.waiting = next :: waiting := h.waiting.trans hwaiting
    rw [unwound_next worked _ _ hstatus hworked, unwound_next m _ _ hstatus hwaiting,
      payload_zero, payload_zero, hmark, h.heap, h.limits, h.locks, hlocks, h.output]
    exact ⟨rfl, rfl, rfl, rfl, rfl, fun _ => rfl, rfl,
      agrees_select hmethods next.app next.method, rfl⟩
  | last hends =>
    have hworked : status.isError = true ∨ worked.waiting = [] := by
      rw [h.waiting]
      exact hends
    rw [unwound_last worked _ _ hworked, unwound_last m _ _ hends, payload_zero, payload_zero,
      h.heap, h.locks, hlocks, h.output]
    exact ⟨h.limits, rfl, rfl, rfl, rfl, fun hne => absurd rfl hne, rfl, hmethods, rfl⟩

/-! ## Steps that fail -/

/-- The fault that the next step raises, if it raises one. -/
def fault? [Heap H] (m : Machine H) : Option Fault :=
  match instruction m with
  | .ok _ _ => none
  | .error fault _ => some fault

/-- A step that fails ends where a throw of the fault's status from the machine before the step would
have ended, and that throw is never refused. -/
theorem step_agrees_throwBytes [Heap H] (session : Session H) {m : Machine H}
    (hreach : session.Reaches m) {fault : Fault} (hfault : m.fault? = some fault) :
    ∃ thrown, throwBytes 0 fault.status m = .ok () thrown ∧ m.step.2.Agrees thrown := by
  obtain ⟨n, rfl⟩ := hreach
  have hbounded := session.bounded_state n
  unfold fault? at hfault
  split at hfault
  · cases hfault
  · rename_i left hrun
    obtain rfl := Option.some.inj hfault
    have hne := lane_ne_nil_of_fault hrun
    refine ⟨_, throwBytes_zero hbounded hne _, ?_⟩
    rw [step_of_fault hbounded hrun]
    have hleft : (session.state n).Evolves left := evolves_of_fault hrun
    obtain ⟨hdropped, hkept⟩ := hleft.lane.split_eq
    rw [hkept]
    exact (hleft.trans (evolves_emit left _)).agrees_unwound hdropped _ _

/-- A session whose second frame, called independently, tries to spawn: the spawn is refused when the
identifier is already popped. -/
def refusedSpawn : Session Store :=
  .ofPair (Opcode.pushC64.byte :: bytesOfWord 0x12 ++ [Opcode.indInvokeDispatcher.byte])
    (Opcode.pushC64.byte :: bytesOfWord 0x13 ++ [Opcode.spawnDispatcher.byte]) .empty

theorem step_agrees_throwBytes_refusedSpawn :
    (refusedSpawn.state 3).fault? = some (.signal .invalidSpawnState) ∧
      ∃ thrown, throwBytes 0 .invalidSpawnState (refusedSpawn.state 3) = .ok () thrown ∧
        (refusedSpawn.state 3).step.2.Agrees thrown := by
  have hfault : (refusedSpawn.state 3).fault? = some (.signal .invalidSpawnState) := by
    decide +kernel
  have hthrown := step_agrees_throwBytes refusedSpawn ⟨3, rfl⟩ hfault
  simp only [Fault.status] at hthrown
  exact ⟨hfault, hthrown⟩

end Machine

end LaneMachine
