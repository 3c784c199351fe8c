import LaneMachine.Heap.Visits
import LaneMachine.Proofs.Lanes
import LaneMachine.Proofs.Likeness
import LaneMachine.Proofs.Locks
set_option autoImplicit false

/-!
# A spawned lane runs like a session of its own

A lane that is started from the queue finds a machine with a past: other lanes wait, the
output is not empty, the heap has been worked on.  None of this reaches the lane.  A session
that is set up for the same application and the same local frame goes through the same
frames, step by step, until the lane ends.

The two are kept together by `Parallel`.  `Goes` says what a step makes of two such machines:
they go on in parallel, or both lanes end, with the same payload and the same status.  The one
thing that could drive them apart is the limit on lanes (`RefusesLane`), since only one of
the two has lanes ahead in its queue.
-/

namespace LaneMachine

namespace Machine

variable {H K : Type}

section

variable {marked : Prop} {ahead : List Frame} {printed : Bytes} {m : Machine H} {own : Machine K}

/-! ## Calls, locks and spawns -/

theorem Parallel.alike_newFrame (h : Parallel marked ahead printed m own)
    (context app method : Identifier) :
    (m.newFrame context app method).Alike True (own.newFrame context app method) where
  pc := rfl
  context := rfl
  app := rfl
  method := rfl
  independent _ := rfl
  lock := rfl
  stack := ⟨rfl, congrArg UInt64.toNat h.limits.maxOperandStack⟩
  locals := h.arguments

theorem alike_freshArguments {limits limits' : Limits} (h : limits.Alike limits') :
    (freshArguments limits).Alike (freshArguments limits') := by
  rw [freshArguments, freshArguments, h.initialLocalFrame, h.maxLocalFrame]
  exact .refl _

theorem Parallel.alike_freshArguments (h : Parallel marked ahead printed m own) :
    (freshArguments m.limits).Alike (freshArguments own.limits) :=
  Machine.alike_freshArguments h.limits

theorem Parallel.spawned (h : Parallel marked ahead printed m own) (app : Identifier) :
    Parallel marked ahead printed (m.spawned app) (own.spawned app) := by
  obtain ⟨since, hwaiting, hsince⟩ := h.waiting
  refine { h with waiting := ?_, arguments := h.alike_freshArguments }
  refine ⟨since ++ [m.newFrame app app .dispatcher], ?_, ?_⟩
  · rw [← List.append_assoc, ← hwaiting]
    rfl
  · exact hsince.append_singleton (h.alike_newFrame app app .dispatcher)

/-- Where `own` refuses a lane, `m` does too.  If it is `m` that has lanes ahead in its queue, it may
refuse one that `own` takes. -/
theorem Parallel.spawn (h : Parallel marked ahead printed m own) (app : Identifier)
    (hroom : ahead ≠ [] → spawn app m ≠ .error (.signal .maxCallStackDepthExceeded) m) :
    EndAlike (Parallel marked ahead printed) (Parallel marked ahead printed) (spawn app m)
      (spawn app own) := by
  obtain ⟨since, hwaiting, hsince⟩ := h.waiting
  have hlength : m.waiting.length = ahead.length + own.waiting.length := by
    rw [hwaiting, List.length_append, hsince.length_eq]
  unfold Machine.spawn at hroom ⊢
  rw [h.lane.insideIndependent_eq, h.limits.maxLanes] at hroom ⊢
  split
  · exact .error _ h
  · rename_i houtside
    rw [if_neg houtside] at hroom
    -- the queue of `m` is the longer one, so `own` has room wherever `m` has
    by_cases hfull : own.limits.maxLanes.toNat ≤ m.waiting.length + 1
    · rw [if_pos hfull] at hroom ⊢
      by_cases hahead : ahead = []
      · rw [hahead, List.length_nil, Nat.zero_add] at hlength
        rw [if_pos (hlength ▸ hfull)]
        exact .error _ h
      · exact absurd rfl (hroom hahead)
    · rw [if_neg hfull, if_neg (by omega)]
      exact .ok () (h.spawned app)

theorem Parallel.spawnDispatcher (h : Parallel marked ahead printed m own)
    (hroom : ahead ≠ [] →
      ∀ left, spawnDispatcher m ≠ .error (.signal .maxCallStackDepthExceeded) left) :
    EndAlike (Parallel marked ahead printed) (Parallel marked ahead printed) (spawnDispatcher m)
      (spawnDispatcher own) := by
  refine (tracks_popIdentifier marked ahead printed m own h).bind ?_
  intro app middle middle' hpop _ hmiddle
  refine hmiddle.spawn app ?_
  intro hahead hrefused
  apply hroom hahead middle
  simp only [Machine.spawnDispatcher, bind, EStateM.bind, hpop]
  exact hrefused

theorem tracks_enter : Tracks (enter : Exec H Unit) (enter : Exec K Unit) := by
  intro marked ahead printed m own h
  unfold enter
  rcases h.lane_cases with ⟨hm, hown⟩ | ⟨top, top', rest, rest', hm, hown, hframe, hrest⟩
  · rw [hm, hown]
    exact .error _ h
  · rw [hm, hown]
    have hlocked : m.isLocked top.context = own.isLocked top'.context := by
      rw [isLocked, isLocked, h.locks, hframe.context]
    dsimp only
    rw [hlocked]
    split
    · exact .error _ h
    · exact .ok () { h with
        lane := .cons { hframe with lock := congrArg some hframe.context } hrest
        locks := congr (congrArg List.cons hframe.context) h.locks }

variable [Heap H] [Heap K]

theorem Parallel.called (h : Parallel marked ahead printed m own) (context app method : Identifier) :
    Parallel marked ahead printed (m.called context app method) (own.called context app method) where
  limits := h.limits
  lane := .cons ((h.alike_newFrame context app method).weaken fun _ => trivial) h.lane
  waiting := h.waiting
  status := rfl
  locks := h.locks
  arguments := h.alike_freshArguments
  output := h.output
  methods := Store.alike_select h.methods.chunk? app method

theorem tracks_call (context app method : Identifier) :
    Tracks (call context app method : Exec H Unit) (call context app method : Exec K Unit) := by
  intro marked ahead printed m own h
  unfold call
  rw [depth, depth, h.lane.length_eq, h.limits.maxCallStackDepth]
  split
  · exact .error _ h
  · exact .ok () (h.called context app method)

theorem tracks_markIndependent :
    Tracks (markIndependent : Exec H Unit) (markIndependent : Exec K Unit) := by
  intro marked ahead printed m own h
  unfold markIndependent
  rcases h.lane_cases with ⟨hm, hown⟩ | ⟨top, top', rest, rest', hm, hown, hframe, hrest⟩
  · rw [hm, hown]
    exact .error _ h
  · rw [hm, hown]
    exact .ok () { h with lane := .cons { hframe with independent := fun _ => rfl } hrest }

theorem tracks_invokeDispatcher :
    Tracks (invokeDispatcher : Exec H Unit) (invokeDispatcher : Exec K Unit) :=
  tracks_bind tracks_popIdentifier fun app => tracks_call app app .dispatcher

theorem tracks_invokeInternal :
    Tracks (invokeInternal : Exec H Unit) (invokeInternal : Exec K Unit) := by
  refine tracks_bind tracks_popIdentifier fun method => ?_
  intro marked ahead printed
  apply mirrors_get_bind
  intro m own h
  rcases h.lane_cases with ⟨hm, hown⟩ | ⟨top, top', rest, rest', hm, hown, hframe, hrest⟩
  · rw [hm, hown]
    exact .error _ h
  · rw [hm, hown]
    dsimp only
    rw [hframe.context, hframe.app]
    exact tracks_call _ _ _ _ _ _ m own h

end

/-! ## Returns and throws -/

theorem payload_eq_of_alike {dropped dropped' : Lane} (h : dropped.Alike False dropped') (count : Nat) :
    payload dropped count = payload dropped' count := by
  cases h with
  | nil => rfl
  | cons hframe hrest => rw [payload, payload, hframe.stack.contents]

theorem locksWithout_eq_of_alike {dropped dropped' : Lane} (h : dropped.Alike False dropped')
    (locks : List Identifier) : locksWithout locks dropped = locksWithout locks dropped' := by
  have hany (context : Identifier) :
      (dropped.any fun frame => frame.lock == some context) =
        dropped'.any fun frame => frame.lock == some context := by
    induction h with
    | nil => rfl
    | cons hframe hrest ih => rw [List.any_cons, List.any_cons, hframe.lock, ih]
  simp only [locksWithout, hany]

theorem deliveryFault?_eq_of_alike {marked : Prop} {dropped dropped' kept kept' : Lane}
    (hdropped : dropped.Alike False dropped') (hkept : kept.Alike marked kept') (count : Nat) :
    deliveryFault? dropped kept count = deliveryFault? dropped' kept' count := by
  cases hdropped with
  | nil => rfl
  | cons hsource hmore =>
    cases hkept with
    | nil => simp only [deliveryFault?, hsource.stack.size_eq]
    | cons hcaller hrest =>
      simp only [deliveryFault?, hsource.stack.size_eq, hcaller.stack.canGrowBy_eq,
        hcaller.stack.size_eq, hcaller.stack.ceiling]

/-- What becomes of the machines `m` and `own`: the lanes go on in parallel and nothing leaves the
queues, or both lanes end, with the same output and the same status. -/
inductive Goes (marked : Prop) (ahead : List Frame) (printed : Bytes) (m : Machine H) (own : Machine K)
    (after : Machine H) (after' : Machine K) : Prop
  | on (h : Parallel marked ahead printed after after') (hlane : after.lane ≠ [])
      (hqueue : m.waiting <+: after.waiting) (hqueue' : own.waiting <+: after'.waiting)
  | ends (hfollows : Follows m after) (hfollows' : Follows own after')
      (hstatus : after.status = after'.status) (houtput : after.output = printed ++ after'.output)

section

variable {marked : Prop} {ahead : List Frame} {printed : Bytes} {m : Machine H} {own : Machine K}

theorem Goes.of_evolves {worked after : Machine H} {worked' after' : Machine K}
    (h : Goes marked ahead printed worked worked' after after') (hm : m.Evolves worked)
    (hown : own.Evolves worked') : Goes marked ahead printed m own after after' := by
  cases h with
  | on h hlane hqueue hqueue' =>
    exact .on h hlane (hm.waiting ▸ hqueue) (hown.waiting ▸ hqueue')
  | ends hfollows hfollows' hstatus houtput =>
    exact .ends (hfollows.of_waiting_eq hm.waiting) (hfollows'.of_waiting_eq hown.waiting) hstatus
      houtput

variable [Heap H] [Heap K]

theorem Parallel.unwound (h : Parallel marked ahead printed m own) {dropped dropped' kept kept' : Lane}
    (hdropped : dropped.Alike False dropped') (hkept : kept.Alike marked kept') (count : Nat)
    (status : Status) :
    Goes marked ahead printed m own (m.unwound dropped kept count status)
      (own.unwound dropped' kept' count status) := by
  cases hkept with
  | nil =>
    refine .ends (follows_unwound rfl dropped count status) (follows_unwound rfl dropped' count status)
      ?_ ?_
    · rw [status_unwound, status_unwound]
    · rw [output_unwound_nil, output_unwound_nil, h.output, payload_eq_of_alike hdropped,
        Array.append_assoc]
  | @cons caller caller' rest rest' hcaller hrest =>
    have hlocks : locksWithout m.locks dropped = locksWithout own.locks dropped' := by
      rw [h.locks, locksWithout_eq_of_alike hdropped]
    have hmethods : ((m.methods.selectRoot caller.app).selectChild caller.method).Alike
        ((own.methods.selectRoot caller'.app).selectChild caller'.method) := by
      rw [hcaller.app, hcaller.method]
      exact Store.alike_select h.methods.chunk? _ _
    rw [unwound_caller, unwound_caller, payload_eq_of_alike hdropped]
    refine .on ?_ (List.cons_ne_nil _ rest) List.prefix_rfl List.prefix_rfl
    exact ⟨h.limits, .cons { hcaller with stack := hcaller.stack.append _ } hrest, h.waiting, rfl, hlocks,
      h.alike_freshArguments, h.output, hmethods⟩

theorem Parallel.unwind (h : Parallel marked ahead printed m own) {dropped dropped' kept kept' : Lane}
    (hdropped : dropped.Alike False dropped') (hkept : kept.Alike marked kept') (count : Nat)
    (status : Status) :
    EndAlike (Goes marked ahead printed m own) (Parallel marked ahead printed)
      (unwind dropped kept count status m) (unwind dropped' kept' count status own) := by
  unfold Machine.unwind
  rw [deliveryFault?_eq_of_alike hdropped hkept]
  split
  · exact .error _ h
  · exact .ok () (h.unwound hdropped hkept count status)

theorem Parallel.returnBytes (h : Parallel marked ahead printed m own) (count : Nat)
    (status : Status) :
    EndAlike (Goes marked ahead printed m own) (Parallel marked ahead printed)
      (returnBytes count status m) (returnBytes count status own) := by
  unfold Machine.returnBytes
  rcases h.lane_cases with ⟨hm, hown⟩ | ⟨top, top', rest, rest', hm, hown, hframe, hrest⟩
  · rw [hm, hown]
    exact .error _ h
  · rw [hm, hown]
    exact h.unwind (.cons (hframe.weaken (by simp)) .nil) hrest count status

theorem Parallel.throwTop (h : Parallel marked ahead printed m own) :
    EndAlike (Goes marked ahead printed m own) (Parallel marked ahead printed) (throwTop m)
      (throwTop own) := by
  refine (tracks_onStack Buffer.mirrors_thrownSize marked ahead printed m own h).bind ?_
  intro count middle middle' hm hown hmiddle
  have hwork := (keeps_onStack Buffer.keeps_thrownSize).of_ok hm
  have hwork' := (keeps_onStack Buffer.keeps_thrownSize).of_ok hown
  obtain ⟨hdropped, hkept⟩ := hmiddle.lane.split
  refine (hmiddle.unwind hdropped hkept count .softwareError).mono ?_
  intro after after' hgoes
  exact hgoes.of_evolves hwork hwork'

/-! ## Steps -/

theorem Parallel.goes_of_endAlike (h : Parallel marked ahead printed m own) (hne : m.lane ≠ [])
    {opcode : Opcode} (hret : ∀ count, opcode.role ≠ .ret count) (hthrow : opcode.role ≠ .throw)
    (hend : EndAlike (Parallel marked ahead printed) (Parallel marked ahead printed)
      (execute opcode m) (execute opcode own)) :
    EndAlike (Goes marked ahead printed m own) (Parallel marked ahead printed) (execute opcode m)
      (execute opcode own) := by
  rcases h.lane_cases with ⟨hm, -⟩ | ⟨top, top', rest, rest', hm, hown, -, -⟩
  · exact absurd hm hne
  · generalize hrun : execute opcode m = left, hrun' : execute opcode own = right at hend
    cases hend with
    | error e hleft => exact .error e hleft
    | ok value hafter =>
      obtain ⟨hdepth, hqueue⟩ := (does_of_execute hm hrun).grows hm hret hthrow
      obtain ⟨-, hqueue'⟩ := (does_of_execute hown hrun').grows hown hret hthrow
      have hlane := List.length_pos_iff.mp (Nat.lt_of_lt_of_le (List.length_pos_iff.mpr hne) hdepth)
      exact .ok value (.on hafter hlane hqueue hqueue')

/-- Every instruction does the same in two lanes that run in parallel, unless it is a spawn that is
refused in the one because of the lanes ahead in its queue. -/
theorem Parallel.execute (h : Parallel marked ahead printed m own) (hne : m.lane ≠ [])
    (opcode : Opcode) (hroom : ahead ≠ [] → opcode = .spawnDispatcher →
      ∀ left, execute opcode m ≠ .error (.signal .maxCallStackDepthExceeded) left) :
    EndAlike (Goes marked ahead printed m own) (Parallel marked ahead printed) (execute opcode m)
      (execute opcode own) := by
  have hstays {opcode : Opcode}
      (htracks : Tracks (Machine.execute opcode : Exec H Unit) (Machine.execute opcode : Exec K Unit))
      (hret : ∀ count, opcode.role ≠ .ret count) (hthrow : opcode.role ≠ .throw) :=
    h.goes_of_endAlike hne hret hthrow (htracks marked ahead printed m own h)
  cases opcode with
  | noOp => exact hstays (tracks_pure ()) nofun nofun
  | invokeDispatcher => exact hstays tracks_invokeDispatcher nofun nofun
  | indInvokeDispatcher =>
    exact hstays (tracks_bind tracks_invokeDispatcher fun _ => tracks_markIndependent) nofun nofun
  | spawnDispatcher =>
    refine h.goes_of_endAlike hne nofun nofun (h.spawnDispatcher ?_)
    intro hahead
    exact hroom hahead rfl
  | invokeInternal => exact hstays tracks_invokeInternal nofun nofun
  | indInvokeInternal =>
    exact hstays (tracks_bind tracks_invokeInternal fun _ => tracks_markIndependent) nofun nofun
  | ret0 => exact h.returnBytes 0 .noError
  | ret64 => exact h.returnBytes wordSize .noError
  | throw => exact h.throwTop
  | enter => exact hstays tracks_enter nofun nofun
  | pushC64 => exact hstays tracks_pushImmediate nofun nofun
  | pop =>
    exact hstays (tracks_bind (tracks_onStack Buffer.mirrors_pop) fun _ => tracks_pure ()) nofun nofun
  | iAdd => exact hstays (tracks_onStack (Buffer.mirrors_combineTwo _)) nofun nofun
  | iSub => exact hstays (tracks_onStack (Buffer.mirrors_combineTwo _)) nofun nofun
  | argC16 => exact hstays tracks_passArgument nofun nofun
  | lfLoadC16 => exact hstays tracks_loadLocal nofun nofun
  | lfStoreC16 => exact hstays tracks_storeLocal nofun nofun
  | jmpEqC16 => exact hstays tracks_jumpIfEqual nofun nofun

/-- The next step is a spawn that the limit on lanes refuses. -/
def RefusesLane (m : Machine H) : Prop :=
  m.opcode? = some .spawnDispatcher ∧ m.fault? = some (.signal .maxCallStackDepthExceeded)

instance (m : Machine H) : Decidable m.RefusesLane :=
  inferInstanceAs (Decidable (_ ∧ _))

theorem Parallel.instruction (h : Parallel marked ahead printed m own) (hne : m.lane ≠ [])
    (hroom : ahead ≠ [] → ¬ m.RefusesLane) :
    EndAlike (Goes marked ahead printed m own) (Parallel marked ahead printed) (instruction m)
      (instruction own) := by
  refine (tracks_fetch marked ahead printed m own h).bind ?_
  intro fetched worked worked' hfetch hfetch' hworked
  have hwork := keeps_fetch.of_ok hfetch
  have hwork' := keeps_fetch.of_ok hfetch'
  cases fetched with
  | none =>
    -- only a complete machine has nothing to fetch
    obtain ⟨top, rest, hlane⟩ := List.exists_cons_of_ne_nil hne
    rcases fetch_cases hlane with ⟨error, hnone⟩ | ⟨byte, read, hsome, -⟩
    · rw [hfetch] at hnone
      cases hnone
    · rw [hfetch] at hsome
      cases hsome
  | some byte =>
    dsimp only
    cases hopcode : Opcode.ofByte? byte with
    | none => exact .error _ hworked
    | some opcode =>
      refine (tracks_announce opcode marked ahead printed worked worked' hworked).bind ?_
      intro _ ready ready' hready hready' hparallel
      have hbegun : m.Evolves ready := hwork.trans ((keeps_announce opcode).of_ok hready)
      have hbegun' : own.Evolves ready' := hwork'.trans ((keeps_announce opcode).of_ok hready')
      have hend := hparallel.execute (hbegun.lane_ne_nil hne) opcode ?_
      · refine EndAlike.bind hend ?_
        intro _ after after' _ _ hgoes
        exact .ok false (hgoes.of_evolves hbegun hbegun')
      · intro hahead hspawn left hrefused
        refine hroom hahead ⟨?_, ?_⟩
        · simp only [opcode?, byte?, hfetch, Option.bind_some, hopcode, hspawn]
        · refine (m.fault?_eq_some_iff _).mpr ⟨left, ?_⟩
          simp only [Machine.instruction, bind, EStateM.bind, hfetch, hopcode, hready, hrefused]

theorem Parallel.step (h : Parallel marked ahead printed m own) (hne : m.lane ≠ [])
    (hbounded : m.Bounded) (hbounded' : own.Bounded) (hroom : ahead ≠ [] → ¬ m.RefusesLane) :
    Goes marked ahead printed m own m.step.2 own.step.2 := by
  have hend := h.instruction hne hroom
  generalize hrun : Machine.instruction m = left, hrun' : Machine.instruction own = right at hend
  cases hend with
  | ok finished hgoes =>
    simp only [Machine.step, hrun, hrun']
    exact hgoes
  | @error fault left left' hleft =>
    -- both throw from where the instruction failed, and there they are still parallel
    rw [step_of_fault hbounded hrun, step_of_fault hbounded' hrun']
    have hfailed := hleft.emit (.failed fault) (.failed fault)
    obtain ⟨hdropped, hkept⟩ := hleft.lane.split
    refine (hfailed.unwound hdropped hkept 0 fault.status).of_evolves ?_ ?_
    · exact (evolves_of_fault hrun).trans (evolves_emit left _)
    · exact (evolves_of_fault hrun').trans (evolves_emit left' _)

/-- Either both lanes end in a step or neither does. -/
theorem Goes.drops_iff (h : Goes marked ahead printed m own m.step.2 own.step.2) (hne : m.lane ≠ [])
    (hne' : own.lane ≠ []) : m.Drops 0 ↔ own.Drops 0 := by
  cases h with
  | on h hlane hqueue hqueue' =>
    have hlane' : own.step.2.lane ≠ [] := fun hnil => hlane (h.lane.eq_nil_iff.mpr hnil)
    exact iff_of_false (not_drops_of_grows (List.length_pos_iff.mpr hlane) hqueue)
      (not_drops_of_grows (List.length_pos_iff.mpr hlane') hqueue')
  | ends hfollows hfollows' hstatus houtput =>
    exact iff_of_true (hfollows.drops hne) (hfollows'.drops hne')

end

/-! ## Where a lane starts -/

section

variable [Heap H]

/-- A machine that has just turned to `frame`, the first frame of a lane. -/
structure Fresh (m : Machine H) (frame : Frame) : Prop where
  lane : m.lane = [frame]
  status : m.status = .noError
  arguments : m.arguments = freshArguments m.limits
  root : m.methods.root = some frame.app
  child : m.methods.child = some frame.method

theorem fresh_of_startsLane {m : Machine H} (hbounded : m.Bounded) (h : m.StartsLane) :
    ∃ frame, m.waiting = frame :: m.step.2.waiting ∧ m.step.2.Fresh frame := by
  have heffect := step_effect hbounded
  have hgrows (hqueue : m.waiting <+: m.step.2.waiting) : False := not_startsLane_of_grows hqueue h
  obtain ⟨next, hnext, hlane⟩ := h
  generalize m.step.2 = after at heffect hgrows hnext hlane
  cases heffect with
  | work hwork => exact (hgrows hwork.grows).elim
  | enter hwork htop hfree => exact (hgrows hwork.grows).elim
  | call hwork context app method hroom => exact (hgrows hwork.grows).elim
  | callIndependent hwork context app method hroom => exact (hgrows hwork.grows).elim
  | spawn hwork app houtside hroom =>
    exact (hgrows (hwork.grows.trans (List.prefix_append _ _))).elim
  | @unwind worked hwork dropped kept count status hcut hfits =>
    cases worked.onward status kept with
    | caller caller rest =>
      rw [unwound_caller] at hgrows
      exact (hgrows hwork.grows).elim
    | @next hstatus frame waiting hwaiting =>
      have hqueue := hwork.waiting.symm.trans hwaiting
      rw [unwound_next worked dropped count hstatus hwaiting]
      exact ⟨frame, hqueue, rfl, by simpa [Status.isError] using hstatus, rfl, rfl, rfl⟩
    | last hends =>
      rw [unwound_last worked dropped count hends] at hlane
      cases hlane

end

end Machine

namespace Session

section

variable {H : Type} [Heap H] (session : Session H)

/-- No lane starts before the running one ends. -/
theorem started_eq_of_not_drops {n k : Nat} (h : ∀ j < k, ¬ (session.state (n + j)).Drops 0) :
    (session.history (n + k)).started = (session.history n).started := by
  induction k with
  | zero => rfl
  | succ k ih =>
    have hnone : (session.state (n + k)).startedFrame? = none := by
      refine if_neg fun hstarts => ?_
      exact h k (Nat.lt_succ_self k) hstarts.drops
    rw [← Nat.add_assoc, history, History.record, hnone, Option.toList_none, List.append_nil]
    exact ih fun j hj => h j (Nat.lt_succ_of_lt hj)

/-- A lane starts with a frame that was spawned, on a machine that has just turned to it. -/
theorem fresh_of_startedFrame? {n : Nat} {frame : Frame}
    (h : (session.state n).startedFrame? = some frame) :
    (session.state (n + 1)).Fresh frame ∧ ∃ i < n, (session.state i).spawnedFrame? = some frame := by
  obtain ⟨hstarts, hhead⟩ := Machine.startedFrame?_eq_some h
  obtain ⟨next, hwaiting, hfresh⟩ := Machine.fresh_of_startsLane (session.bounded_state n) hstarts
  rw [hwaiting, List.head?_cons, Option.some.injEq] at hhead
  subst hhead
  rw [state_succ]
  refine ⟨hfresh, session.waiting_spawned ?_⟩
  rw [hwaiting]
  exact List.mem_cons_self

variable {K : Type} [Heap K]

/-- A session of its own starts in parallel with the lane, if it is set up for the same application and
local frame. -/
theorem parallel_first {n : Nat} {frame : Frame} (h : (session.state n).startedFrame? = some frame)
    (own : Session K) (hlimits : own.limits = session.limits) (happ : own.app = frame.app)
    (harguments : own.arguments = frame.locals.contents)
    (hmethods : ∀ root child, own.methods.chunk? root child = session.methods.chunk? root child) :
    Machine.Parallel False (session.state (n + 1)).waiting (session.state (n + 1)).output
      (session.state (n + 1)) own.first := by
  obtain ⟨hfresh, i, -, hspawned⟩ := session.fresh_of_startedFrame? h
  obtain ⟨hstarts, -⟩ := Machine.startedFrame?_eq_some h
  obtain ⟨hfixed, hchunks, -⟩ := session.fixed_state (n + 1)
  have hbounded := (session.bounded_state (n + 1)).lane frame (hfresh.lane ▸ List.mem_cons_self)
  have hlocks := session.locks_eq_nil_of_drops hstarts.drops
  obtain ⟨app, rfl⟩ := Machine.spawnedFrame?_eq_some hspawned
  obtain ⟨buffer, hbuffer, -, hfirst⟩ := own.exists_first_eq
  have hceiling := (Buffer.bounded_of_ofBytes hbuffer).ceiling_eq
  have hcontents := (Buffer.contents_of_ofBytes hbuffer).trans harguments
  rw [hlimits, ← hfixed] at hceiling
  rw [hfirst, hlimits, ← hfixed, happ]
  refine ⟨⟨rfl, rfl, rfl, rfl, rfl⟩, ?lane, ⟨[], (List.append_nil _).symm, .nil⟩, hfresh.status,
    hlocks, ?arguments, Array.append_empty.symm, ?methods⟩
  case lane =>
    rw [hfresh.lane]
    have hlocals := hbounded.locals.ceiling_eq.trans hceiling.symm
    exact .cons ⟨rfl, rfl, rfl, rfl, by simp, rfl, ⟨rfl, hbounded.stack.ceiling_eq⟩,
      ⟨hcontents.symm, hlocals⟩⟩ .nil
  case arguments =>
    rw [hfresh.arguments]
    exact .refl _
  case methods =>
    refine ⟨?_, hfresh.root, hfresh.child⟩
    intro root child
    rw [Store.chunk?, hchunks]
    exact (hmethods root child).symm

variable {session} {own : Session K} {n : Nat} {ahead : List Frame} {printed : Bytes}

theorem goes_state {k : Nat}
    (h : Machine.Parallel False ahead printed (session.state (n + k)) (own.state k))
    (hne : (session.state (n + k)).lane ≠ []) (hroom : ¬ (session.state (n + k)).RefusesLane) :
    Machine.Goes False ahead printed (session.state (n + k)) (own.state k)
      (session.state (n + k)).step.2 (own.state k).step.2 :=
  h.step hne (session.bounded_state _) (own.bounded_state k) fun _ => hroom

/-- Sessions that run in parallel do so until the lane ends or is refused a lane. -/
theorem parallel_state (h : Machine.Parallel False ahead printed (session.state n) own.first)
    (hne : (session.state n).lane ≠ []) {k : Nat}
    (hrun : ∀ j < k, ¬ (session.state (n + j)).Drops 0 ∧ ¬ (session.state (n + j)).RefusesLane) :
    Machine.Parallel False ahead printed (session.state (n + k)) (own.state k) ∧
      (session.state (n + k)).lane ≠ [] := by
  induction k with
  | zero => exact ⟨h, hne⟩
  | succ k ih =>
    obtain ⟨hparallel, hlane⟩ := ih fun j hj => hrun j (Nat.lt_succ_of_lt hj)
    obtain ⟨hstays, hroom⟩ := hrun k (Nat.lt_succ_self k)
    rw [← Nat.add_assoc, state_succ, state_succ]
    cases goes_state hparallel hlane hroom with
    | on hafter hlane hqueue hqueue' => exact ⟨hafter, hlane⟩
    | ends hfollows hfollows' hstatus houtput => exact absurd (hfollows.drops hlane) hstays

theorem drops_state_iff {k : Nat}
    (h : Machine.Parallel False ahead printed (session.state (n + k)) (own.state k))
    (hne : (session.state (n + k)).lane ≠ []) (hroom : ¬ (session.state (n + k)).RefusesLane) :
    (session.state (n + k)).Drops 0 ↔ (own.state k).Drops 0 := by
  refine (goes_state h hne hroom).drops_iff hne ?_
  intro hnil
  exact hne (h.lane.eq_nil_iff.mpr hnil)

/-- Sessions that run in parallel have spawned the same frames since. -/
theorem exists_spawned_of_parallel
    (h : Machine.Parallel False (session.state n).waiting printed (session.state n) own.first)
    (hne : (session.state n).lane ≠ []) {k : Nat}
    (hrun : ∀ j < k, ¬ (session.state (n + j)).Drops 0 ∧ ¬ (session.state (n + j)).RefusesLane) :
    ∃ since, (session.history (n + k)).spawned = (session.history n).spawned ++ since ∧
      Lane.Alike True since (own.history k).spawned := by
  obtain ⟨hparallel, hlane⟩ := parallel_state h hne hrun
  obtain ⟨since, hwaiting, hsince⟩ := hparallel.waiting
  have hlane' : (own.state k).lane ≠ [] := fun hnil => hlane (hparallel.lane.eq_nil_iff.mpr hnil)
  have hstarted := session.started_eq_of_not_drops fun j hj => (hrun j hj).1
  -- the session of its own is still in its first lane
  have hstarted' : (own.history k).started = [] := by
    rw [← Nat.zero_add k, own.started_eq_of_not_drops, history]
    intro j hj
    obtain ⟨hbefore, hlane⟩ := parallel_state h hne fun i hi => hrun i (Nat.lt_trans hi hj)
    rw [Nat.zero_add, ← drops_state_iff hbefore hlane (hrun j hj).2]
    exact (hrun j hj).1
  refine ⟨since, ?_, ?_⟩
  · rw [← (session.onTrack_of_lane_ne_nil hlane).queue, ← (session.onTrack_of_lane_ne_nil hne).queue,
      hstarted, hwaiting, List.append_assoc]
  · rw [← (own.onTrack_of_lane_ne_nil hlane').queue, hstarted', List.nil_append]
    exact hsince

/-- When the lane ends, both sessions have put out the same bytes. -/
theorem exists_output_of_drops {k : Nat}
    (h : Machine.Parallel False ahead printed (session.state (n + k)) (own.state k))
    (hne : (session.state (n + k)).lane ≠ []) (hroom : ¬ (session.state (n + k)).RefusesLane)
    (hdrops : (own.state k).Drops 0) :
    (session.state (n + k + 1)).status = (own.state (k + 1)).status ∧
      ∃ bytes, (session.state (n + k + 1)).output = (session.state (n + k)).output ++ bytes ∧
        (own.state (k + 1)).output = (own.state k).output ++ bytes := by
  rw [state_succ, state_succ]
  have hne' : (own.state k).lane ≠ [] := List.length_pos_iff.mp hdrops.1
  have hgoes := goes_state h hne hroom
  have hdrops' := (hgoes.drops_iff hne hne').mpr hdrops
  cases hgoes with
  | on hafter hlane hqueue hqueue' =>
    exact absurd hdrops' (Machine.not_drops_of_grows (List.length_pos_iff.mpr hlane) hqueue)
  | ends hfollows hfollows' hstatus houtput =>
    obtain ⟨bytes, hbytes⟩ := own.exists_output_append (Nat.le_succ k)
    rw [state_succ] at hbytes
    refine ⟨hstatus, bytes, ?_, hbytes⟩
    rw [houtput, hbytes, h.output, Array.append_assoc]

variable (session)

/-- For a lane that is started with a spawned frame, a session of its own can be set up: the same limits
and code, the application and the local frame of that frame, and any heap.  As long as the lane has not
ended and no spawn of it was refused for want of lanes, the two run in parallel and have spawned the
same frames; the session's first lane ends in the same step as the spawned one, with the same bytes and
the same status. -/
theorem lane_runs_alone {n : Nat} {frame : Frame}
    (hstarts : (session.state n).startedFrame? = some frame) (methods : Store)
    (hmethods : ∀ root child, methods.chunk? root child = session.methods.chunk? root child)
    (heap : K) :
    (∃ i < n, (session.state i).spawnedFrame? = some frame) ∧
    ∃ own : Session K, own.limits = session.limits ∧ own.app = frame.app ∧
      own.arguments = frame.locals.contents ∧ own.methods = methods ∧ own.heap = heap ∧
      ∀ k, (∀ j < k, ¬ (session.state (n + 1 + j)).Drops 0 ∧
          ¬ (session.state (n + 1 + j)).RefusesLane) →
        Machine.Parallel False (session.state (n + 1)).waiting (session.state (n + 1)).output
          (session.state (n + 1 + k)) (own.state k) ∧
        (∃ since, (session.history (n + 1 + k)).spawned = (session.history (n + 1)).spawned ++ since ∧
          Lane.Alike True since (own.history k).spawned) ∧
        (¬ (session.state (n + 1 + k)).RefusesLane →
          ((session.state (n + 1 + k)).Drops 0 ↔ (own.state k).Drops 0) ∧
          ((own.state k).Drops 0 →
            (session.state (n + 1 + k + 1)).status = (own.state (k + 1)).status ∧
            ∃ bytes, (session.state (n + 1 + k + 1)).output =
                (session.state (n + 1 + k)).output ++ bytes ∧
              (own.state (k + 1)).output = (own.state k).output ++ bytes)) := by
  obtain ⟨hfresh, hspawned⟩ := session.fresh_of_startedFrame? hstarts
  have hbounded := (session.bounded_state (n + 1)).lane frame (hfresh.lane ▸ List.mem_cons_self)
  have hfits := hbounded.locals.size_le
  rw [(session.fixed_state (n + 1)).1] at hfits
  obtain ⟨-, -, hdepth, -⟩ := session.exists_first_eq
  let own : Session K := .setUp session.limits frame.app frame.locals.contents 0 methods heap hfits
    hdepth session.allocatesFresh_limits
  refine ⟨hspawned, own, rfl, rfl, rfl, rfl, rfl, ?_⟩
  intro k hrun
  have hfirst := session.parallel_first hstarts own rfl rfl rfl hmethods
  have hne : (session.state (n + 1)).lane ≠ [] := by
    rw [hfresh.lane]
    exact List.cons_ne_nil frame []
  obtain ⟨hparallel, hlane⟩ := parallel_state hfirst hne hrun
  refine ⟨hparallel, exists_spawned_of_parallel hfirst hne hrun, fun hroom => ⟨?_, ?_⟩⟩
  · exact drops_state_iff hparallel hlane hroom
  · exact exists_output_of_drops hparallel hlane hroom

end

/-- A session whose first lane spawns a second one with the number 7, which that one returns. -/
def answering : Session Store :=
  let caller := Opcode.pushC64.byte :: bytesOfWord 7 ++ [Opcode.argC16.byte, 0, 0] ++
    Opcode.pushC64.byte :: bytesOfWord 0x12 ++ [Opcode.spawnDispatcher.byte, Opcode.ret0.byte]
  let callee := [Opcode.lfLoadC16.byte, 0, 0, Opcode.ret64.byte]
  let methods := Store.empty.insertChunk ⟨0x11⟩ .dispatcher caller.toArray
  .setUp { initialLocalFrame := 0 } ⟨0x11⟩ #[] 0
    (methods.insertChunk ⟨0x12⟩ .dispatcher callee.toArray) .empty (by decide) (by decide) (by decide)

/-- A session of the second application alone returns the number, too, on a heap of another kind. -/
theorem lane_runs_alone_answering :
    (answering.state 4).startedFrame?.isSome = true ∧
    ∃ own : Session VisitedStore, own.app = ⟨0x12⟩ ∧ own.arguments = (bytesOfWord 7).toArray ∧
      own.methods = answering.methods.save ∧ own.heap = ⟨Store.empty.save⟩ ∧
      (own.state 1).Drops 0 ∧ (own.state 2).status = .noError ∧
      (own.state 2).output = (bytesOfWord 7).toArray := by
  have hsome : (answering.state 4).startedFrame?.isSome = true := by decide +kernel
  have hframe : ∀ frame ∈ (answering.state 4).startedFrame?, frame.app = ⟨0x12⟩ ∧
      frame.locals.contents = (bytesOfWord 7).toArray := by decide +kernel
  have hstays : ¬ (answering.state 5).Drops 0 ∧ ¬ (answering.state 5).RefusesLane := by decide +kernel
  have hends : (answering.state 6).Drops 0 ∧ ¬ (answering.state 6).RefusesLane := by decide +kernel
  have hprinted : (answering.state 6).output = #[] := by decide +kernel
  have hanswer : (answering.state 7).output = (bytesOfWord 7).toArray := by decide +kernel
  have hwell : (answering.state 7).status = .noError := by decide +kernel
  obtain ⟨frame, hstarts⟩ := Option.isSome_iff_exists.mp hsome
  obtain ⟨happ, hlocals⟩ := hframe frame hstarts
  obtain ⟨-, own, -, hown, harguments, hmethods, hheap, hrun⟩ :=
    lane_runs_alone answering hstarts answering.methods.save (fun _ _ => rfl)
      (VisitedStore.mk Store.empty.save)
  obtain ⟨hparallel, -, hlast⟩ := hrun 1 fun j hj => by
    rw [Nat.lt_one_iff.mp hj]
    exact hstays
  obtain ⟨hiff, hsame⟩ := hlast hends.2
  have hdrops := hiff.mp hends.1
  obtain ⟨hstatus, bytes, hlane, hbytes⟩ := hsame hdrops
  have hempty : (own.state 1).output = #[] := by
    have houtput := hparallel.output
    rw [show (answering.state (4 + 1 + 1)).output = #[] from hprinted] at houtput
    exact (Array.append_eq_empty_iff.mp houtput.symm).2
  refine ⟨hsome, own, hown.trans happ, harguments.trans hlocals, hmethods, hheap, hdrops,
    hstatus.symm.trans hwell, ?_⟩
  rw [hbytes, hempty, ← hprinted, ← hanswer]
  exact hlane.symm

end Session

end LaneMachine
