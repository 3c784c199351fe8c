import LaneMachine.Proofs.Faults
set_option autoImplicit false

/-!
# Lanes run in the order in which they were spawned

A session keeps no record of its lanes: a spawned frame is queued, run and forgotten.
`Session.history` is that record, kept beside the machine and computed from what each step
finds: the frames that completed spawns created, the frames that were started as lanes, and
how each lane ended.

`Turn` says what one step adds to the record and what it does to the queue and the output;
`Session.Progress` is the invariant that follows.  While the session runs, every lane before
the running one has ended well, and the lanes started so far and those that wait are the
lanes spawned, in order.  `Session.lanes_in_order` draws the conclusions.
-/

namespace LaneMachine

/-- How a lane ended: what its last frame handed down, and with which status. -/
structure LaneEnd where
  /-- the bytes that went to the output -/
  payload : Bytes
  /-- the status of the return or throw -/
  status : Status
  deriving DecidableEq, Repr, Inhabited

/-- The lanes of a session so far. -/
structure History where
  /-- the frames that spawns created, first one first -/
  spawned : List Frame
  /-- the frames that were started as lanes -/
  started : List Frame
  /-- the ends of lanes -/
  ended : List LaneEnd
  deriving DecidableEq, Repr, Inhabited

namespace Machine

variable {H : Type} [Heap H]

/-! ## What a step adds to the record -/

/-- The frame that the next step creates if it is a spawn that completes: the dispatcher of the
application on top of the stack, with the arguments passed so far. -/
def spawnedFrame? (m : Machine H) : Option Frame :=
  match m.fault?, m.role?, m.lane with
  | none, some .spawn, top :: _ =>
    match Buffer.pop top.stack with
    | .ok word _ => some (m.newFrame ⟨word⟩ ⟨word⟩ .dispatcher)
    | .error _ _ => none
  | _, _, _ => none

/-- The bytes that the next step hands down if it returns or throws.  A fault hands down none. -/
def handedDown (m : Machine H) : Bytes :=
  match m.fault?, m.role?, m.lane with
  | none, some (.ret count), top :: _ => Bytes.suffix top.stack.contents count
  | none, some .throw, top :: _ =>
    match Buffer.thrownSize top.stack with
    | .ok count _ => Bytes.suffix top.stack.contents count
    | .error _ _ => #[]
  | _, _, _ => #[]

/-- The next step is a return that completes. -/
def Returns (m : Machine H) : Prop :=
  m.fault? = none ∧ (m.opcode? = some .ret0 ∨ m.opcode? = some .ret64)

instance (m : Machine H) : Decidable m.StartsLane :=
  decidable_of_iff
    (m.step.2.lane.length = 1 ∧ m.waiting = m.step.2.lane ++ m.step.2.waiting) <| by
      constructor
      · rintro ⟨hlength, hwaiting⟩
        obtain ⟨next, hlane⟩ := List.length_eq_one_iff.mp hlength
        rw [hlane] at hwaiting
        exact ⟨next, hwaiting, hlane⟩
      · rintro ⟨next, hwaiting, hlane⟩
        rw [hlane]
        exact ⟨rfl, hwaiting⟩

instance (m : Machine H) (index : Nat) : Decidable (m.Drops index) :=
  inferInstanceAs (Decidable (_ ∧ (_ ∨ _)))

/-- The frame that the next step starts as a lane. -/
def startedFrame? (m : Machine H) : Option Frame :=
  if m.StartsLane then m.waiting.head? else none

/-- How the running lane ends, if the next step ends it. -/
def laneEnd? (m : Machine H) : Option LaneEnd :=
  if m.Drops 0 then some ⟨m.handedDown, m.step.2.status⟩ else none

theorem returns_of_role? {m : Machine H} (hfault : m.fault? = none) {count : Nat}
    (hrole : m.role? = some (.ret count)) : m.Returns := by
  rcases ret_cases hrole with ⟨hopcode, -⟩ | ⟨hopcode, -⟩
  · exact ⟨hfault, .inl hopcode⟩
  · exact ⟨hfault, .inr hopcode⟩

theorem Returns.exists_role? {m : Machine H} (h : m.Returns) :
    ∃ count, m.role? = some (.ret count) := by
  rcases h.2 with hopcode | hopcode
  · exact ⟨0, by rw [role?, hopcode]; rfl⟩
  · exact ⟨wordSize, by rw [role?, hopcode]; rfl⟩

theorem spawnedFrame?_eq_some {m : Machine H} {frame : Frame} (h : m.spawnedFrame? = some frame) :
    ∃ app, frame = m.newFrame app app .dispatcher := by
  unfold spawnedFrame? at h
  split at h
  · split at h
    · exact ⟨_, (Option.some.inj h).symm⟩
    · cases h
  · cases h

theorem startedFrame?_eq_some {m : Machine H} {frame : Frame} (h : m.startedFrame? = some frame) :
    m.StartsLane ∧ m.waiting.head? = some frame := by
  unfold startedFrame? at h
  split at h
  · rename_i hstarts
    exact ⟨hstarts, h⟩
  · cases h

/-- A lane starts only when another one ends. -/
theorem StartsLane.drops {m : Machine H} (h : m.StartsLane) : m.Drops 0 := by
  refine ⟨List.length_pos_iff.mpr ?_, .inr h⟩
  intro hnil
  obtain ⟨next, -, hlane⟩ := h
  rw [step_of_complete m hnil, hnil] at hlane
  cases hlane

/-! ## One step -/

/-- Where the machine goes once its lane has ended. -/
inductive Follows (m after : Machine H) : Prop
  | nextLane {next : Frame} (hwaiting : m.waiting = next :: after.waiting)
      (hlane : after.lane = [next]) (hstatus : after.status = .noError)
  | complete (hlane : after.lane = []) (hwaiting : after.waiting = [])
      (hreason : after.status ≠ .noError ∨ m.waiting = [])

omit [Heap H] in
theorem Follows.of_waiting_eq {m worked after : Machine H} (h : Follows worked after)
    (hwaiting : worked.waiting = m.waiting) : Follows m after := by
  cases h with
  | nextLane hqueue hlane hstatus => exact .nextLane (hwaiting ▸ hqueue) hlane hstatus
  | complete hlane hempty hreason => exact .complete hlane hempty (hwaiting ▸ hreason)

theorem Follows.drops {m : Machine H} (h : Follows m m.step.2) (hne : m.lane ≠ []) : m.Drops 0 := by
  refine ⟨List.length_pos_iff.mpr hne, ?_⟩
  cases h with
  | nextLane hwaiting hlane hstatus => exact .inr ⟨_, hwaiting, hlane⟩
  | complete hlane hwaiting hreason =>
    rw [depth, hlane]
    exact .inl (Nat.le_refl 0)

/-- What a step does to the queue and to the output. -/
inductive Turn (m : Machine H) : Prop
  | stays (hspawned : m.spawnedFrame? = none) (hlane : m.step.2.lane ≠ [])
      (hwaiting : m.step.2.waiting = m.waiting) (houtput : m.step.2.output = m.output)
  | spawns {frame : Frame} (hspawned : m.spawnedFrame? = some frame) (hlane : m.step.2.lane ≠ [])
      (hwaiting : m.step.2.waiting = m.waiting ++ [frame]) (houtput : m.step.2.output = m.output)
  | ends (hspawned : m.spawnedFrame? = none) (houtput : m.step.2.output = m.output ++ m.handedDown)
      (hreturns : m.step.2.status = .noError ↔ m.Returns) (hfollows : Follows m m.step.2)

theorem follows_unwound {m worked : Machine H} (hwaiting : worked.waiting = m.waiting)
    (dropped : Lane) (count : Nat) (status : Status) :
    Follows m (worked.unwound dropped [] count status) := by
  cases worked.onward status [] with
  | next hstatus hqueue =>
    rw [unwound_next worked dropped count hstatus hqueue]
    exact .nextLane (hwaiting.symm.trans hqueue) rfl (by simpa [Status.isError] using hstatus)
  | last hends =>
    rw [unwound_last worked dropped count hends]
    refine .complete rfl rfl ?_
    rw [← hwaiting]
    simpa [Status.isError] using hends

theorem output_unwound_nil (m : Machine H) (dropped : Lane) (count : Nat) (status : Status) :
    (m.unwound dropped [] count status).output = m.output ++ payload dropped count := by
  cases m.onward status [] with
  | next hstatus hwaiting => rw [unwound_next m dropped count hstatus hwaiting]
  | last hends => rw [unwound_last m dropped count hends]

/-- A return or a throw stays in the lane, or ends it and hands its bytes to the output. -/
theorem turn_of_unwound {m worked : Machine H} {dropped kept : Lane} {count : Nat} {status : Status}
    (hstep : m.step.2 = worked.unwound dropped kept count status)
    (hwaiting : worked.waiting = m.waiting) (houtput : worked.output = m.output)
    (hspawned : m.spawnedFrame? = none) (hpayload : payload dropped count = m.handedDown)
    (hreturns : status = .noError ↔ m.Returns) : m.Turn := by
  cases kept with
  | cons caller rest =>
    rw [unwound_caller] at hstep
    refine .stays hspawned ?_ ?_ ?_
    · rw [hstep]
      exact List.cons_ne_nil _ rest
    · rw [hstep]
      exact hwaiting
    · rw [hstep]
      exact houtput
  | nil =>
    refine .ends hspawned ?_ ?_ ?_
    · rw [hstep, output_unwound_nil, houtput, hpayload]
    · rw [hstep, status_unwound]
      exact hreturns
    · rw [hstep]
      exact follows_unwound hwaiting dropped count status

theorem turn_of_fault {m : Machine H} (hbounded : m.Bounded) {fault : Fault}
    (h : m.fault? = some fault) : m.Turn := by
  obtain ⟨left, hrun⟩ := (m.fault?_eq_some_iff fault).mp h
  have hwork := evolves_of_fault hrun
  refine turn_of_unwound (step_of_fault hbounded hrun) hwork.waiting hwork.output ?_ ?_ ?_
  · simp only [spawnedFrame?, h]
  · rw [payload_zero]
    simp only [handedDown, h]
  · refine iff_of_false (fault_status_ne_noError h) ?_
    intro hreturns
    rw [hreturns.1] at h
    cases h

/-- A completed instruction that neither spawns nor unwinds leaves queue and output alone. -/
theorem turn_of_quiet {m after : Machine H} (hstep : m.step.2 = after) {role : Opcode.Role}
    (hrole : m.role? = some role) (hspawn : role ≠ .spawn) (hlane : after.lane ≠ [])
    (hwaiting : after.waiting = m.waiting) (houtput : after.output = m.output) : m.Turn := by
  subst hstep
  refine .stays ?_ hlane hwaiting houtput
  unfold spawnedFrame?
  split
  · rename_i hspawns _
    rw [hrole, Option.some.injEq] at hspawns
    exact absurd hspawns hspawn
  · rfl

theorem turn_of_running {m : Machine H} (hbounded : m.Bounded) (hne : m.lane ≠ []) : m.Turn := by
  cases hfault : m.fault? with
  | some fault => exact turn_of_fault hbounded hfault
  | none =>
    obtain ⟨role, top, rest, worked, hrole, hworked, hdoes⟩ := exists_does hfault hne
    generalize hstep : m.step.2 = after at hdoes
    cases hdoes with
    | work hwork =>
      have hlane : worked.lane ≠ [] := by
        rw [hworked.lane]
        exact List.cons_ne_nil _ rest
      exact turn_of_quiet hstep hrole nofun (hwork.lane_ne_nil hlane)
        (hwork.waiting.trans hworked.waiting) (hwork.output.trans hworked.output)
    | enter hfree =>
      exact turn_of_quiet hstep hrole nofun (List.cons_ne_nil _ rest) hworked.waiting hworked.output
    | call hpop context app method =>
      exact turn_of_quiet hstep hrole nofun (List.cons_ne_nil _ _) hworked.waiting hworked.output
    | callIndependent hpop context app method =>
      exact turn_of_quiet hstep hrole nofun (List.cons_ne_nil _ _) hworked.waiting hworked.output
    | @spawn word stack hpop =>
      have hframe : worked.newFrame ⟨word⟩ ⟨word⟩ .dispatcher =
          m.newFrame ⟨word⟩ ⟨word⟩ .dispatcher := by
        rw [newFrame, newFrame, hworked.limits, hworked.arguments]
      have hspawned : m.spawnedFrame? = some (worked.newFrame ⟨word⟩ ⟨word⟩ .dispatcher) := by
        simp only [spawnedFrame?, hfault, hrole, hworked.before, hframe]
        rw [hpop]
      refine .spawns hspawned ?_ ?_ ?_
      · rw [hstep]
        exact List.cons_ne_nil _ rest
      · rw [hstep, ← hworked.waiting]
        rfl
      · rw [hstep]
        exact hworked.output
    | @ret count hfits =>
      refine turn_of_unwound hstep hworked.waiting hworked.output ?_ ?_ ?_
      · simp only [spawnedFrame?, hfault, hrole]
      · simp only [handedDown, hfault, hrole, hworked.before]
        rfl
      · exact iff_of_true rfl (returns_of_role? hfault hrole)
    | @throw count hsize hfits =>
      refine turn_of_unwound hstep hworked.waiting hworked.output ?_ ?_ ?_
      · simp only [spawnedFrame?, hfault, hrole]
      · obtain ⟨more, hmore⟩ := Lane.split_cons { top with pc := top.pc + 1 } rest
        rw [hworked.lane, hmore]
        simp only [handedDown, hfault, hrole, hworked.before]
        rw [hsize]
        rfl
      · refine iff_of_false (by decide) ?_
        intro hreturns
        obtain ⟨count, hret⟩ := hreturns.exists_role?
        rw [hrole] at hret
        cases hret

/-- Of the ways in which a lane can end, a return is the only one that is no failure. -/
theorem Turn.returns_iff {m : Machine H} (h : m.Turn) (hdrops : m.Drops 0) :
    m.step.2.status = .noError ↔ m.Returns := by
  cases h with
  | stays hspawned hlane hwaiting houtput =>
    have hstays := not_drops_of_grows (List.length_pos_iff.mpr hlane) (hwaiting ▸ List.prefix_rfl)
    exact absurd hdrops hstays
  | spawns hspawned hlane hwaiting houtput =>
    have hstays :=
      not_drops_of_grows (List.length_pos_iff.mpr hlane) (hwaiting ▸ List.prefix_append _ _)
    exact absurd hdrops hstays
  | ends hspawned houtput hreturns hfollows => exact hreturns

end Machine

/-! ## The record -/

/-- What lanes have put out, one after the other. -/
def LaneEnd.concat : List LaneEnd → Bytes
  | [] => #[]
  | lane :: later => lane.payload ++ concat later

theorem LaneEnd.concat_append (earlier later : List LaneEnd) :
    concat (earlier ++ later) = concat earlier ++ concat later := by
  induction earlier with
  | nil => rw [List.nil_append, concat, Array.empty_append]
  | cons lane earlier ih => rw [List.cons_append, concat, concat, ih, Array.append_assoc]

theorem LaneEnd.concat_append_singleton (ends : List LaneEnd) (last : LaneEnd) :
    concat (ends ++ [last]) = concat ends ++ last.payload := by
  rw [concat_append, concat, concat, Array.append_empty]

namespace History

variable {H : Type} [Heap H] {m : Machine H}

/-- The record once the next step of the machine is taken. -/
def record (history : History) (m : Machine H) : History where
  spawned := history.spawned ++ m.spawnedFrame?.toList
  started := history.started ++ m.startedFrame?.toList
  ended := history.ended ++ m.laneEnd?.toList

theorem record_of_lane_eq_nil (history : History) (h : m.lane = []) : history.record m = history := by
  have hspawned : m.spawnedFrame? = none := by
    unfold Machine.spawnedFrame?
    split
    · rename_i hlane
      rw [h] at hlane
      cases hlane
    · rfl
  have hdrops : ¬ m.Drops 0 := by
    rintro ⟨hdepth, -⟩
    rw [Machine.depth, h] at hdepth
    exact Nat.lt_irrefl 0 hdepth
  have hstarts : ¬ m.StartsLane := fun hstarts => hdrops hstarts.drops
  simp only [record, hspawned, Machine.startedFrame?, hstarts, Machine.laneEnd?, hdrops, if_false,
    Option.toList_none, List.append_nil]

theorem record_of_grows (history : History) (hlane : m.step.2.lane ≠ [])
    (hgrows : m.waiting <+: m.step.2.waiting) :
    history.record m = { history with spawned := history.spawned ++ m.spawnedFrame?.toList } := by
  have hstarts := Machine.not_startsLane_of_grows hgrows
  have hdrops : ¬ m.Drops 0 :=
    Machine.not_drops_of_grows (List.length_pos_iff.mpr hlane) hgrows
  simp only [record, Machine.startedFrame?, hstarts, Machine.laneEnd?, hdrops, if_false,
    Option.toList_none, List.append_nil]

theorem record_of_nextLane (history : History) (hspawned : m.spawnedFrame? = none)
    {next : Frame} (hwaiting : m.waiting = next :: m.step.2.waiting) (hlane : m.step.2.lane = [next]) :
    history.record m =
      { history with
        started := history.started ++ [next]
        ended := history.ended ++ [⟨m.handedDown, m.step.2.status⟩] } := by
  have hstarts : m.StartsLane := ⟨next, hwaiting, hlane⟩
  have hdrops := hstarts.drops
  have hhead : m.waiting.head? = some next := by rw [hwaiting, List.head?_cons]
  simp only [record, hspawned, Machine.startedFrame?, hstarts, hhead, Machine.laneEnd?, hdrops, if_true,
    Option.toList_none, Option.toList_some, List.append_nil]

theorem record_of_completes (history : History) (hne : m.lane ≠ [])
    (hspawned : m.spawnedFrame? = none) (hlane : m.step.2.lane = []) :
    history.record m =
      { history with ended := history.ended ++ [⟨m.handedDown, m.step.2.status⟩] } := by
  have hstarts : ¬ m.StartsLane := by
    rintro ⟨next, -, hnext⟩
    rw [hlane] at hnext
    cases hnext
  have hdrops : m.Drops 0 := by
    refine ⟨List.length_pos_iff.mpr hne, .inl ?_⟩
    rw [Machine.depth, hlane]
    exact Nat.le_refl 0
  simp only [record, hspawned, Machine.startedFrame?, hstarts, Machine.laneEnd?, hdrops, if_true,
    if_false, Option.toList_none, Option.toList_some, List.append_nil]

end History

namespace Session

variable {H : Type} [Heap H] (session : Session H)

/-- The lanes that the session has spawned, started and ended in its first `n` steps. -/
def history : Nat → History
  | 0 => ⟨[], [], []⟩
  | n + 1 => (history n).record (session.state n)

theorem mem_spawned {n : Nat} {frame : Frame} (h : frame ∈ (session.history n).spawned) :
    ∃ i < n, (session.state i).spawnedFrame? = some frame := by
  induction n with
  | zero => cases h
  | succ n ih =>
    rcases List.mem_append.mp h with h | h
    · obtain ⟨i, hi, hspawned⟩ := ih h
      exact ⟨i, Nat.lt_succ_of_lt hi, hspawned⟩
    · exact ⟨n, Nat.lt_succ_self n, Option.mem_toList.mp h⟩

theorem mem_ended {n k : Nat} {lane : LaneEnd} (hk : k < n)
    (h : (session.state k).laneEnd? = some lane) : lane ∈ (session.history n).ended := by
  induction hk with
  | refl => exact List.mem_append_right _ (Option.mem_toList.mpr h)
  | step hk ih => exact List.mem_append_left _ ih

theorem turn_state {n : Nat} (hne : (session.state n).lane ≠ []) : (session.state n).Turn :=
  Machine.turn_of_running (session.bounded_state n) hne

/-- The session runs, the lanes before the running one ended well, and each of them made way for the
lane that was next. -/
structure OnTrack (n : Nat) : Prop where
  running : (session.state n).lane ≠ []
  queue : (session.history n).started ++ (session.state n).waiting = (session.history n).spawned
  ended : (session.history n).ended.length = (session.history n).started.length
  well : ∀ lane ∈ (session.history n).ended, lane.status = .noError

theorem onTrack_zero : session.OnTrack 0 := by
  obtain ⟨frame, hlane, -⟩ := session.exists_lane_first
  refine ⟨?_, ?_, rfl, ?_⟩
  · rw [state_zero, hlane]
    exact List.cons_ne_nil frame []
  · rw [state_zero, waiting_first]
    rfl
  · intro lane hmem
    cases hmem

variable {session}

/-- A session that goes on stays on track. -/
theorem OnTrack.succ {n : Nat} (h : session.OnTrack n) (hne : (session.state (n + 1)).lane ≠ []) :
    session.OnTrack (n + 1) := by
  have hhistory : session.history (n + 1) = (session.history n).record (session.state n) := rfl
  cases session.turn_state h.running with
  | stays hspawned hlane hwaiting houtput =>
    rw [History.record_of_grows _ hlane (hwaiting ▸ List.prefix_rfl), hspawned, Option.toList_none,
      List.append_nil] at hhistory
    refine ⟨hne, ?_, ?_, ?_⟩
    · rw [hhistory, state_succ, hwaiting]
      exact h.queue
    · rw [hhistory]
      exact h.ended
    · rw [hhistory]
      exact h.well
  | @spawns frame hspawned hlane hwaiting houtput =>
    rw [History.record_of_grows _ hlane (hwaiting ▸ List.prefix_append _ _), hspawned,
      Option.toList_some] at hhistory
    refine ⟨hne, ?_, ?_, ?_⟩
    · rw [hhistory, state_succ, hwaiting, ← List.append_assoc, h.queue]
    · rw [hhistory]
      exact h.ended
    · rw [hhistory]
      exact h.well
  | ends hspawned houtput hreturns hfollows =>
    cases hfollows with
    | @nextLane next hwaiting hlane hstatus =>
      rw [History.record_of_nextLane _ hspawned hwaiting hlane] at hhistory
      refine ⟨hne, ?_, ?_, ?_⟩
      · rw [hhistory, state_succ, List.append_assoc, List.singleton_append, ← hwaiting]
        exact h.queue
      · rw [hhistory, List.length_append, List.length_append, h.ended]
        rfl
      · intro lane hmem
        rw [hhistory] at hmem
        rcases List.mem_append.mp hmem with hmem | hmem
        · exact h.well lane hmem
        · rw [List.mem_singleton.mp hmem]
          exact hstatus
    | complete hlane hwaiting hreason =>
      rw [state_succ] at hne
      exact absurd hlane hne

variable (session)

/-- Step `k` is the last one that the session took. -/
structure Completes (k : Nat) : Prop where
  onTrack : session.OnTrack k
  lane : (session.state (k + 1)).lane = []

variable {session}

/-- Nothing happens any more. -/
theorem Completes.settled {k n : Nat} (h : session.Completes k) (hlt : k < n) :
    session.state n = session.state (k + 1) ∧ session.history n = session.history (k + 1) := by
  induction hlt with
  | refl => exact ⟨rfl, rfl⟩
  | @step n hlt ih =>
    have hlane : (session.state n).lane = [] := by rw [ih.1, h.lane]
    constructor
    · rw [state_succ, Machine.step_of_complete _ hlane, ih.1]
    · rw [history, History.record_of_lane_eq_nil _ hlane, ih.2]

theorem Completes.not_startsLane {k n : Nat} (h : session.Completes k) (hle : k ≤ n) :
    ¬ (session.state n).StartsLane := by
  apply session.not_startsLane_of_lane_eq_nil
  rw [(h.settled (Nat.lt_succ_of_le hle)).1, h.lane]

/-- The last step ends the running lane and starts none; it leaves lanes that wait only if it fails. -/
theorem Completes.history_eq {k : Nat} (h : session.Completes k) :
    session.history (k + 1) =
      { session.history k with
        ended := (session.history k).ended ++
          [⟨(session.state k).handedDown, (session.state (k + 1)).status⟩] } ∧
    (session.state (k + 1)).waiting = [] ∧
    ((session.state (k + 1)).status ≠ .noError ∨ (session.state k).waiting = []) := by
  have hlane := h.lane
  rw [state_succ] at hlane ⊢
  cases session.turn_state h.onTrack.running with
  | stays hspawned hstays hwaiting houtput => exact absurd hlane hstays
  | spawns hspawned hstays hwaiting houtput => exact absurd hlane hstays
  | ends hspawned houtput hreturns hfollows =>
    refine ⟨History.record_of_completes _ h.onTrack.running hspawned hlane, ?_⟩
    cases hfollows with
    | nextLane hwaiting hnext hstatus =>
      rw [hlane] at hnext
      cases hnext
    | complete hlane hwaiting hreason => exact ⟨hwaiting, hreason⟩

variable (session)

/-- A session is on track, or it was until its last step. -/
theorem onTrack_or_completes (n : Nat) :
    session.OnTrack n ∨ ∃ k < n, session.Completes k := by
  induction n with
  | zero => exact .inl session.onTrack_zero
  | succ n ih =>
    rcases ih with h | ⟨k, hk, h⟩
    -- the step after a state on track is the last one exactly if it empties the lane
    · by_cases hlane : (session.state (n + 1)).lane = []
      · exact .inr ⟨n, Nat.lt_succ_self n, h, hlane⟩
      · exact .inl (h.succ hlane)
    · exact .inr ⟨k, Nat.lt_succ_of_lt hk, h⟩

theorem onTrack_of_lane_ne_nil {n : Nat} (h : (session.state n).lane ≠ []) : session.OnTrack n := by
  rcases session.onTrack_or_completes n with honTrack | ⟨k, hk, hcompletes⟩
  · exact honTrack
  · rw [(hcompletes.settled hk).1, hcompletes.lane] at h
    exact absurd rfl h

theorem completes_of_lane_eq_nil {n : Nat} (h : (session.state n).lane = []) :
    ∃ k < n, session.Completes k := by
  rcases session.onTrack_or_completes n with honTrack | hcompletes
  · exact absurd h honTrack.running
  · exact hcompletes

theorem output_state (n : Nat) :
    (session.state n).output = LaneEnd.concat (session.history n).ended := by
  induction n with
  | zero =>
    obtain ⟨buffer, -, -, hfirst⟩ := session.exists_first_eq
    rw [state_zero, hfirst]
    rfl
  | succ n ih =>
    rw [state_succ, history]
    by_cases hne : (session.state n).lane = []
    · rw [History.record_of_lane_eq_nil _ hne, Machine.step_of_complete _ hne, ih]
    · cases session.turn_state hne with
      | stays hspawned hlane hwaiting houtput =>
        rw [History.record_of_grows _ hlane (hwaiting ▸ List.prefix_rfl), houtput, ih]
      | spawns hspawned hlane hwaiting houtput =>
        rw [History.record_of_grows _ hlane (hwaiting ▸ List.prefix_append _ _), houtput, ih]
      | ends hspawned houtput hreturns hfollows =>
        cases hfollows with
        | nextLane hwaiting hlane hstatus =>
          rw [History.record_of_nextLane _ hspawned hwaiting hlane, houtput, ih,
            LaneEnd.concat_append_singleton]
        | complete hlane hwaiting hreason =>
          rw [History.record_of_completes _ hne hspawned hlane, houtput, ih,
            LaneEnd.concat_append_singleton]

theorem ended_prefix {n later : Nat} (h : n ≤ later) :
    (session.history n).ended <+: (session.history later).ended := by
  induction h with
  | refl => exact List.prefix_rfl
  | step h ih => exact ih.trans (List.prefix_append _ _)

theorem exists_output_append {n later : Nat} (h : n ≤ later) :
    ∃ more, (session.state later).output = (session.state n).output ++ more := by
  obtain ⟨since, hsince⟩ := session.ended_prefix h
  refine ⟨LaneEnd.concat since, ?_⟩
  rw [output_state, output_state, ← hsince, LaneEnd.concat_append]

theorem returns_of_well {n k : Nat}
    (hwell : ∀ lane ∈ (session.history n).ended, lane.status = .noError) (hk : k < n)
    (hdrops : (session.state k).Drops 0) : (session.state k).Returns := by
  have hne : (session.state k).lane ≠ [] := List.length_pos_iff.mp hdrops.1
  have hend : (session.state k).laneEnd? =
      some ⟨(session.state k).handedDown, (session.state k).step.2.status⟩ := if_pos hdrops
  have hstatus := hwell _ (session.mem_ended hk hend)
  exact ((session.turn_state hne).returns_iff hdrops).mp hstatus

theorem waiting_spawned {n : Nat} {frame : Frame} (h : frame ∈ (session.state n).waiting) :
    ∃ i < n, (session.state i).spawnedFrame? = some frame := by
  rcases session.onTrack_or_completes n with honTrack | ⟨k, hk, hcompletes⟩
  · apply session.mem_spawned
    rw [← honTrack.queue]
    exact List.mem_append_right _ h
  · rw [(hcompletes.settled hk).1, hcompletes.history_eq.2.1] at h
    cases h

variable {session}

/-- A session that ends well has run every lane it spawned. -/
theorem Completes.of_noError {k : Nat} (h : session.Completes k)
    (hstatus : (session.state (k + 1)).status = .noError) :
    (session.history (k + 1)).started = (session.history (k + 1)).spawned ∧
    (session.history (k + 1)).ended.length = (session.history (k + 1)).started.length + 1 ∧
    ∀ lane ∈ (session.history (k + 1)).ended, lane.status = .noError := by
  obtain ⟨hhistory, -, hreason⟩ := h.history_eq
  have hwaiting : (session.state k).waiting = [] := hreason.resolve_left (absurd hstatus)
  have hqueue := h.onTrack.queue
  rw [hwaiting, List.append_nil] at hqueue
  rw [hhistory]
  refine ⟨hqueue, ?_, ?_⟩
  · rw [List.length_append, h.onTrack.ended, List.length_singleton]
  · intro lane hmem
    rcases List.mem_append.mp hmem with hmem | hmem
    · exact h.onTrack.well lane hmem
    · rw [List.mem_singleton.mp hmem]
      exact hstatus

variable (session)

/-- As long as no lane has failed, the lanes started so far and those that wait are the lanes that were
spawned, in that order, and what waits is as it was spawned.  The output is what the bottom frames of the
ended lanes handed down; it only grows, at its end.  A session that completes well has run every
lane, and each of them returned; in one that fails, the last lane is the one that failed, its payload
stands last, and the lanes that waited never run. -/
theorem lanes_in_order (n : Nat) :
    ((∀ lane ∈ (session.history n).ended, lane.status = .noError) →
      (session.history n).started ++ (session.state n).waiting = (session.history n).spawned) ∧
    (∀ frame ∈ (session.state n).waiting, ∃ i < n, (session.state i).spawnedFrame? = some frame ∧
      frame.pc = 0 ∧ frame.stack.contents = #[] ∧ frame.independent = false ∧ frame.lock = none ∧
      frame.locals = (session.state i).arguments) ∧
    (session.state n).output = LaneEnd.concat (session.history n).ended ∧
    (∀ later, n ≤ later → ∃ more, (session.state later).output = (session.state n).output ++ more) ∧
    ((session.state n).lane ≠ [] →
      (session.history n).ended.length = (session.history n).started.length ∧
      ∀ lane ∈ (session.history n).ended, lane.status = .noError) ∧
    ((session.state n).lane = [] → (session.state n).status = .noError →
      (session.history n).started = (session.history n).spawned ∧
      (session.history n).ended.length = (session.history n).started.length + 1 ∧
      ∀ k < n, (session.state k).Drops 0 → (session.state k).Returns) ∧
    ((session.state n).lane = [] → (session.state n).status ≠ .noError →
      ∃ k < n, ∃ earlier last, (session.history n).ended = earlier ++ [last] ∧
        earlier.length = (session.history n).started.length ∧
        (∀ lane ∈ earlier, lane.status = .noError) ∧
        last.status = (session.state n).status ∧
        (session.state n).output = LaneEnd.concat earlier ++ last.payload ∧
        (session.history n).spawned = (session.history n).started ++ (session.state k).waiting ∧
        ∀ j, k ≤ j → ¬ (session.state j).StartsLane) := by
  refine ⟨?_, ?_, session.output_state n, fun later => session.exists_output_append, ?_, ?_, ?_⟩
  · intro hwell
    rcases session.onTrack_or_completes n with honTrack | ⟨k, hk, hcompletes⟩
    · exact honTrack.queue
    · obtain ⟨hstate, hhistory⟩ := hcompletes.settled hk
      obtain ⟨hended, hwaiting, -⟩ := hcompletes.history_eq
      rw [hhistory] at hwell ⊢
      have hstatus : (session.state (k + 1)).status = .noError := by
        rw [hended] at hwell
        exact hwell _ (List.mem_append_right _ List.mem_cons_self)
      rw [hstate, hwaiting, List.append_nil]
      exact (hcompletes.of_noError hstatus).1
  · intro frame hmem
    obtain ⟨i, hi, hspawned⟩ := session.waiting_spawned hmem
    obtain ⟨app, rfl⟩ := Machine.spawnedFrame?_eq_some hspawned
    exact ⟨i, hi, hspawned, rfl, rfl, rfl, rfl, rfl⟩
  · intro hne
    have honTrack := session.onTrack_of_lane_ne_nil hne
    exact ⟨honTrack.ended, honTrack.well⟩
  · intro hlane hstatus
    obtain ⟨k, hk, hcompletes⟩ := session.completes_of_lane_eq_nil hlane
    obtain ⟨hstate, hhistory⟩ := hcompletes.settled hk
    rw [hstate] at hstatus
    obtain ⟨hstarted, hended, hwell⟩ := hcompletes.of_noError hstatus
    rw [hhistory]
    refine ⟨hstarted, hended, ?_⟩
    intro j hj hdrops
    rw [← hhistory] at hwell
    exact session.returns_of_well hwell hj hdrops
  · intro hlane hstatus
    obtain ⟨k, hk, hcompletes⟩ := session.completes_of_lane_eq_nil hlane
    obtain ⟨hstate, hhistory⟩ := hcompletes.settled hk
    rw [output_state, hstate, hhistory, hcompletes.history_eq.1]
    exact ⟨k, hk, (session.history k).ended, _, rfl, hcompletes.onTrack.ended,
      hcompletes.onTrack.well, rfl, LaneEnd.concat_append_singleton _ _,
      hcompletes.onTrack.queue.symm, fun j => hcompletes.not_startsLane⟩

end Session

end LaneMachine
