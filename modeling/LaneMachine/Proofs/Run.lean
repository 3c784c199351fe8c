import LaneMachine.Proofs.Bounds
import LaneMachine.Session
set_option autoImplicit false

/-!
# Runs of a session

A session that its host has set up, and the machines it goes through: `state n` is the
machine after `n` steps, and stays as it is once the session is complete.  An invariant
of sessions is a property of the first machine that a step keeps (`Session.invariant`).

The two predicates on steps are stated on machines as a host can see them.  A step
starts a lane if it runs the frame that waited first; a step drops a frame of the lane
if the lane becomes too short for it or is replaced by the next one.
-/

namespace LaneMachine

/-- A session that was set up, and the machine that it starts as. -/
structure Session (H : Type) [Heap H] where
  /-- what the session may use -/
  limits : Limits
  /-- the application that is called -/
  app : Identifier
  /-- what it is called with -/
  arguments : Bytes
  /-- how many bytes there is room for behind the arguments -/
  spare : Nat
  /-- the code of all methods -/
  methods : Store
  /-- the heap as the host hands it over -/
  heap : H
  /-- the machine once the session is set up -/
  first : Machine H
  /-- the set-up went well -/
  start_eq : Machine.start limits app arguments spare methods heap = .ready first

namespace Machine

variable {H : Type} [Heap H]

/-- The step ends the running lane and runs the one that waited first. -/
def StartsLane (m : Machine H) : Prop :=
  ∃ next, m.waiting = next :: m.step.2.waiting ∧ m.step.2.lane = [next]

/-- The step drops the frame that has `index` frames below it. -/
def Drops (m : Machine H) (index : Nat) : Prop :=
  index < m.depth ∧ (m.step.2.depth ≤ index ∨ m.StartsLane)

omit [Heap H] in
theorem Evolves.grows {m worked : Machine H} (h : m.Evolves worked) :
    m.waiting <+: worked.waiting :=
  h.waiting ▸ List.prefix_rfl

/-- A step that takes no lane off the queue starts none. -/
theorem not_startsLane_of_grows {m : Machine H} (h : m.waiting <+: m.step.2.waiting) :
    ¬ m.StartsLane := by
  rintro ⟨next, hwaiting, -⟩
  have hlength := h.length_le
  rw [hwaiting, List.length_cons] at hlength
  omega

theorem not_drops_of_grows {m : Machine H} {index : Nat} (hlength : index < m.step.2.depth)
    (hgrows : m.waiting <+: m.step.2.waiting) : ¬ m.Drops index := by
  rintro ⟨-, hdepth | hstarts⟩
  · exact absurd hlength (Nat.not_lt.mpr hdepth)
  · exact not_startsLane_of_grows hgrows hstarts

/-- Only a spawned frame is queued, and nothing marks it while it waits. -/
theorem Effect.waiting_not_independent {m after : Machine H} (heffect : Effect m after)
    (h : ∀ frame ∈ m.waiting, frame.independent = false) :
    ∀ frame ∈ after.waiting, frame.independent = false := by
  intro frame hmem
  cases heffect with
  | work hwork => exact h frame (hwork.waiting ▸ hmem)
  | enter hwork hlane hfree => exact h frame (hwork.waiting ▸ hmem)
  | call hwork context app method hroom => exact h frame (hwork.waiting ▸ hmem)
  | callIndependent hwork context app method hroom => exact h frame (hwork.waiting ▸ hmem)
  | spawn hwork app houtside hroom =>
    rcases List.mem_append.mp hmem with hmem | hmem
    · exact h frame (hwork.waiting ▸ hmem)
    · rw [List.mem_singleton.mp hmem]
      rfl
  | @unwind worked hwork dropped kept count status hcut hfits =>
    rw [← hwork.waiting] at h
    cases worked.onward status kept with
    | caller caller rest =>
      rw [unwound_caller] at hmem
      exact h frame hmem
    | next hstatus hwaiting =>
      rw [unwound_next worked dropped count hstatus hwaiting] at hmem
      rw [hwaiting] at h
      exact h frame (List.mem_cons_of_mem _ hmem)
    | last hends =>
      rw [unwound_last worked dropped count hends] at hmem
      cases hmem

/-- No step changes the limits, the code, or what the store of methods has saved. -/
theorem Effect.fixed {m after : Machine H} (h : Effect m after) :
    after.limits = m.limits ∧ after.methods.chunks = m.methods.chunks ∧
      after.methods.checkpoints = m.methods.checkpoints := by
  cases h with
  | work hwork => exact ⟨hwork.limits, hwork.methods.chunks.symm, hwork.methods.checkpoints.symm⟩
  | enter hwork hlane hfree =>
    exact ⟨hwork.limits, hwork.methods.chunks.symm, hwork.methods.checkpoints.symm⟩
  | call hwork context app method hroom =>
    exact ⟨hwork.limits, hwork.methods.chunks.symm, hwork.methods.checkpoints.symm⟩
  | callIndependent hwork context app method hroom =>
    exact ⟨hwork.limits, hwork.methods.chunks.symm, hwork.methods.checkpoints.symm⟩
  | spawn hwork app houtside hroom =>
    exact ⟨hwork.limits, hwork.methods.chunks.symm, hwork.methods.checkpoints.symm⟩
  | @unwind worked hwork dropped kept count status hcut hfits =>
    have hworked :=
      And.intro hwork.limits (And.intro hwork.methods.chunks.symm hwork.methods.checkpoints.symm)
    cases worked.onward status kept with
    | caller caller rest =>
      rw [unwound_caller]
      exact hworked
    | next hstatus hwaiting =>
      rw [unwound_next worked dropped count hstatus hwaiting]
      exact hworked
    | last hends =>
      rw [unwound_last worked dropped count hends]
      exact hworked

/-- The first call of a machine is refused, or makes an independent frame. -/
theorem firstCall_eq (limits : Limits) (app : Identifier) (buffer : Buffer) (methods : Store)
    (heap : H) :
    (do call app app .dispatcher; markIndependent : Exec H Unit) (idle limits buffer methods heap) =
      if limits.maxCallStackDepth = 0 then
        .error (.signal .maxCallStackDepthExceeded) (idle limits buffer methods heap)
      else .ok () ((idle limits buffer methods heap).calledIndependently app app .dispatcher) := by
  have hdepth : (idle limits buffer methods heap).depth = 0 := rfl
  have hlimits : (idle limits buffer methods heap).limits = limits := rfl
  simp only [bind, EStateM.bind, call, hdepth, hlimits]
  by_cases hnone : limits.maxCallStackDepth = 0
  · have hfull : limits.maxCallStackDepth.toNat ≤ 0 := Nat.le_of_eq (congrArg UInt64.toNat hnone)
    rw [if_pos hnone]
    simp only [hfull, if_true]
  · have hroom : ¬ limits.maxCallStackDepth.toNat ≤ 0 := fun hzero =>
      hnone (UInt64.toNat_inj.mp (Nat.le_zero.mp hzero))
    rw [if_neg hnone]
    simp only [hroom, if_false]
    rfl

theorem start_eq_ready_iff (limits : Limits) (app : Identifier) (arguments : Bytes) (spare : Nat)
    (methods : Store) (heap : H) (first : Machine H) :
    start limits app arguments spare methods heap = .ready first ↔
      ∃ buffer, Buffer.ofBytes arguments spare limits.maxLocalFrame.toNat = .ok buffer ∧
        limits.maxCallStackDepth ≠ 0 ∧ allocatesFresh limits = true ∧
        first = (idle limits buffer methods heap).calledIndependently app app .dispatcher := by
  unfold start
  cases Buffer.ofBytes arguments spare limits.maxLocalFrame.toNat with
  | error e => simp
  | ok buffer =>
    simp only [firstCall_eq, Except.ok.injEq, exists_eq_left']
    by_cases hnone : limits.maxCallStackDepth = 0
    · simp [hnone]
    · cases allocatesFresh limits with
      | false => simp [hnone]
      | true => simp [hnone, eq_comm]

end Machine

namespace Session

/-- The session of a call whose arguments fit, under limits that allow a frame and its buffers. -/
def setUp {H : Type} [Heap H] (limits : Limits) (app : Identifier) (arguments : Bytes) (spare : Nat)
    (methods : Store) (heap : H) (hfits : arguments.size ≤ limits.maxLocalFrame.toNat)
    (hdepth : limits.maxCallStackDepth ≠ 0) (hfresh : Machine.allocatesFresh limits = true) :
    Session H where
  limits := limits
  app := app
  arguments := arguments
  spare := spare
  methods := methods
  heap := heap
  first := (Machine.idle limits ⟨arguments, arguments.size + spare, limits.maxLocalFrame.toNat⟩ methods
    heap).calledIndependently app app .dispatcher
  start_eq := by
    refine (Machine.start_eq_ready_iff _ _ _ _ _ _ _).mpr ⟨_, ?_, hdepth, hfresh, rfl⟩
    rw [Buffer.ofBytes, if_neg (Nat.not_lt.mpr hfits)]

/-- A session of application `0x11` beside an application `0x12`, each with a dispatcher only, under
the default limits and without arguments. -/
def ofPair {H : Type} [Heap H] (caller callee : List UInt8) (heap : H) : Session H :=
  let methods := Store.empty.insertChunk ⟨0x11⟩ .dispatcher caller.toArray
  .setUp {} ⟨0x11⟩ #[] 0 (methods.insertChunk ⟨0x12⟩ .dispatcher callee.toArray) heap
    (by decide) (by decide) (by decide)

variable {H : Type} [Heap H] (session : Session H)

/-- The machine after `n` steps. -/
def state (n : Nat) : Machine H :=
  Machine.run n session.first

/-- The machines that the session goes through. -/
def Reaches (m : Machine H) : Prop :=
  ∃ n, session.state n = m

/-- Whether a spawned lane was started in the first `n` steps. -/
def StartedLane (n : Nat) : Prop :=
  ∃ k < n, (session.state k).StartsLane

@[simp]
theorem state_zero : session.state 0 = session.first := rfl

theorem state_succ (n : Nat) : session.state (n + 1) = (session.state n).step.2 := by
  rw [state, Machine.run_add]
  cases h : (Machine.run n session.first).isComplete with
  | false => rw [Machine.run_succ_of_running _ _ h, Machine.run_zero, state]
  | true =>
    rw [Machine.run_succ_of_complete _ _ h, state]
    rw [Machine.step_of_complete _ (List.isEmpty_iff.mp h)]

theorem invariant {P : Nat → Machine H → Prop} (hfirst : P 0 session.first)
    (hstep : ∀ n, P n (session.state n) → P (n + 1) (session.state n).step.2) (n : Nat) :
    P n (session.state n) := by
  induction n with
  | zero => exact hfirst
  | succ n ih =>
    rw [state_succ]
    exact hstep n ih

theorem startedLane_succ_iff (n : Nat) :
    session.StartedLane (n + 1) ↔ session.StartedLane n ∨ (session.state n).StartsLane := by
  constructor
  · rintro ⟨k, hk, hstarts⟩
    rcases Nat.lt_succ_iff_lt_or_eq.mp hk with hk | rfl
    · exact .inl ⟨k, hk, hstarts⟩
    · exact .inr hstarts
  · rintro (⟨k, hk, hstarts⟩ | hstarts)
    · exact ⟨k, Nat.lt_succ_of_lt hk, hstarts⟩
    · exact ⟨n, Nat.lt_succ_self n, hstarts⟩

theorem not_startedLane_zero : ¬ session.StartedLane 0 := by
  rintro ⟨k, hk, -⟩
  exact Nat.not_lt_zero k hk

theorem startsLane_state_iff (n : Nat) :
    (session.state n).StartsLane ↔
      ∃ next, (session.state n).waiting = next :: (session.state (n + 1)).waiting ∧
        (session.state (n + 1)).lane = [next] := by
  rw [state_succ]
  rfl

theorem not_startsLane_of_lane_eq_nil {n : Nat} (h : (session.state (n + 1)).lane = []) :
    ¬ (session.state n).StartsLane := by
  rw [startsLane_state_iff]
  rintro ⟨next, -, hlane⟩
  rw [h] at hlane
  cases hlane

/-! ## The first machine -/

theorem exists_first_eq :
    ∃ buffer, Buffer.ofBytes session.arguments session.spare session.limits.maxLocalFrame.toNat =
        .ok buffer ∧
      session.limits.maxCallStackDepth ≠ 0 ∧
      session.first = (Machine.idle session.limits buffer session.methods
        session.heap).calledIndependently session.app session.app .dispatcher := by
  obtain ⟨buffer, hbuffer, hdepth, -, hfirst⟩ :=
    (Machine.start_eq_ready_iff _ _ _ _ _ _ _).mp session.start_eq
  exact ⟨buffer, hbuffer, hdepth, hfirst⟩

/-- The limits of a session that was set up allow fresh buffers. -/
theorem allocatesFresh_limits : Machine.allocatesFresh session.limits = true := by
  obtain ⟨-, -, -, hfresh, -⟩ := (Machine.start_eq_ready_iff _ _ _ _ _ _ _).mp session.start_eq
  exact hfresh

/-- The session starts as one independent frame in the application's own context. -/
theorem exists_lane_first :
    ∃ frame, session.first.lane = [frame] ∧ frame.independent = true ∧
      frame.context = session.app := by
  obtain ⟨buffer, -, -, hfirst⟩ := session.exists_first_eq
  rw [hfirst]
  exact ⟨_, rfl, rfl, rfl⟩

theorem waiting_first : session.first.waiting = [] := by
  obtain ⟨buffer, -, -, hfirst⟩ := session.exists_first_eq
  rw [hfirst]
  rfl

theorem heap_first :
    session.first.heap = Heap.save (Heap.selectRoot session.heap session.app) := by
  obtain ⟨buffer, -, -, hfirst⟩ := session.exists_first_eq
  rw [hfirst]
  rfl

theorem bounded_first : session.first.Bounded := by
  obtain ⟨buffer, hbuffer, hdepth, hfirst⟩ := session.exists_first_eq
  have hidle : (Machine.idle session.limits buffer session.methods session.heap).Bounded :=
    ⟨by simp [Machine.idle], by simp [Machine.idle], Buffer.bounded_of_ofBytes hbuffer,
      Nat.zero_le _, Nat.le_max_left 1 _⟩
  have hroom : 0 < session.limits.maxCallStackDepth.toNat :=
    Nat.pos_of_ne_zero fun hzero => hdepth (UInt64.toNat_inj.mp hzero)
  rw [hfirst]
  exact Machine.bounded_calledIndependently hidle hroom _ _ _

theorem bounded_state (n : Nat) : (session.state n).Bounded :=
  session.invariant session.bounded_first (fun _ h => Machine.bounded_step h) n

theorem effect_state (n : Nat) : Machine.Effect (session.state n) (session.state (n + 1)) := by
  rw [state_succ]
  exact Machine.step_effect (session.bounded_state n)

theorem fixed_state (n : Nat) :
    (session.state n).limits = session.limits ∧
      (session.state n).methods.chunks = session.methods.chunks ∧
      (session.state n).methods.checkpoints = session.methods.checkpoints := by
  induction n with
  | zero =>
    obtain ⟨buffer, -, -, hfirst⟩ := session.exists_first_eq
    rw [state_zero, hfirst]
    exact ⟨rfl, rfl, rfl⟩
  | succ n ih =>
    obtain ⟨hlimits, hchunks, hcheckpoints⟩ := (session.effect_state n).fixed
    exact ⟨hlimits.trans ih.1, hchunks.trans ih.2.1, hcheckpoints.trans ih.2.2⟩

/-! ## Frames that wait -/

theorem waiting_not_independent (n : Nat) :
    ∀ frame ∈ (session.state n).waiting, frame.independent = false := by
  induction n with
  | zero =>
    rw [state_zero, waiting_first]
    intro frame hmem
    cases hmem
  | succ n ih => exact (session.effect_state n).waiting_not_independent ih

end Session

end LaneMachine
