import LaneMachine.Heap.Visits
import LaneMachine.Proofs.Report
import LaneMachine.Proofs.Run
set_option autoImplicit false

/-!
# The trace tells what happened

Events are written while the machine changes, some before and some after the change that they
report, and each branch of an unwind writes its own.  Here they are read back.  Following the
events of a session one after the other gives a `Summary` of it: how deep its lane is, how many
lanes wait, and how the last return or throw ended.  The summary is right at the end of every
step (`Session.trace_faithful`).

A step first works inside the running frame, which shows in the trace only as an announcement
and, if the step fails, as a fault.  Then come the changes.  `Machine.Tells` says of each of them
that the events tell it as it is, and this composes, from the single event to the whole session.
-/

namespace LaneMachine

/-! ## Reading events -/

/-- What the events of a session say about its machine. -/
structure Summary where
  /-- number of frames in the running lane -/
  depth : Nat
  /-- number of lanes that wait -/
  pending : Nat
  /-- how the last return or throw ended -/
  status : Status
  deriving DecidableEq, Repr, Inhabited

namespace Summary

/-- Before anything has happened. -/
def blank : Summary :=
  { depth := 0, pending := 0, status := .noError }

/-- The summary after one more event. -/
def follow (summary : Summary) : Event → Summary
  | .call _ _ _ depth => { summary with depth, status := .noError }
  | .spawned _ lanes => { summary with pending := lanes - 1 }
  | .returned status _ depth => { summary with depth, status }
  | .laneStarted _ remaining => { depth := 1, pending := remaining, status := .noError }
  | .complete status _ => { depth := 0, pending := 0, status }
  | _ => summary

/-- The summary of the changes among the events, first event first. -/
def ofEvents (events : List Event) : Summary :=
  (events.filter fun event => event.level = .debug).foldl follow blank

/-- Announcements and faults change nothing. -/
theorem follow_eq_self {event : Event} (h : event.level ≠ .debug) (summary : Summary) :
    summary.follow event = summary := by
  cases event with
  | execute opcode pc depth => rfl
  | failed fault => rfl
  | _ => exact absurd rfl h

theorem ofEvents_eq_foldl (events : List Event) : ofEvents events = events.foldl follow blank := by
  rw [ofEvents, List.foldl_filter]
  congr 1
  funext summary event
  split
  · rfl
  · rename_i hlevel
    rw [decide_eq_true_eq] at hlevel
    exact (follow_eq_self hlevel summary).symm

end Summary

/-- The status with which an event reports that frames were dropped. -/
def Event.unwinding? : Event → Option Status
  | .returned status _ _ => some status
  | .complete status _ => some status
  | .laneStarted _ _ => some .noError
  | _ => none

/-- The entry in the access log of the heap that goes with an event. -/
def Event.access? : Event → Option Access
  | .restored => some .restore
  | .discarded => some .discard
  | _ => none

/-- Whether an entry of an access log resolves a checkpoint. -/
def Access.resolves : Access → Bool
  | .restore | .discard => true
  | _ => false

/-! ## Heaps that keep a log -/

/-- A heap that logs what the machine does to it, latest access first. -/
class LoggedHeap (H : Type) [Heap H] where
  /-- the log -/
  log : H → List Access
  /-- selecting is logged -/
  log_selectRoot (heap : H) (id : Identifier) : log (Heap.selectRoot heap id) = .root id :: log heap
  /-- saving is logged -/
  log_save (heap : H) : log (Heap.save heap) = .save :: log heap
  /-- discarding is logged -/
  log_discard (heap : H) : log (Heap.discard heap) = .discard :: log heap
  /-- restoring is logged -/
  log_restore (heap : H) : log (Heap.restore heap) = .restore :: log heap

instance : LoggedHeap Store where
  log := Store.log
  log_selectRoot _ _ := rfl
  log_save _ := rfl
  log_discard _ := rfl
  log_restore store := by
    simp only [Heap.restore, Store.restore]
    split <;> rfl

instance : LoggedHeap VisitedStore where
  log heap := heap.store.log
  log_selectRoot _ _ := rfl
  log_save _ := rfl
  log_discard _ := rfl
  log_restore heap := LoggedHeap.log_restore heap.store

namespace LoggedHeap

variable {H : Type} [Heap H] [LoggedHeap H]

/-- What was added to the log in between resolved checkpoints as these entries say, latest first. -/
def Adds (resolutions : List Access) (before after : H) : Prop :=
  ∃ added, log after = added ++ log before ∧ added.filter Access.resolves = resolutions

theorem Adds.refl (heap : H) : Adds [] heap heap :=
  ⟨[], rfl, rfl⟩

theorem Adds.trans {first second third : H} {earlier later : List Access}
    (hfirst : Adds earlier first second) (hsecond : Adds later second third) :
    Adds (later ++ earlier) first third := by
  obtain ⟨added, hlog, rfl⟩ := hfirst
  obtain ⟨more, hmore, rfl⟩ := hsecond
  refine ⟨more ++ added, ?_, List.filter_append more added⟩
  rw [hmore, hlog, List.append_assoc]

theorem adds_selectRoot (heap : H) (id : Identifier) : Adds [] heap (Heap.selectRoot heap id) :=
  ⟨[.root id], log_selectRoot heap id, rfl⟩

theorem adds_save (heap : H) : Adds [] heap (Heap.save heap) :=
  ⟨[.save], log_save heap, rfl⟩

/-- An unwind logs what it reports. -/
theorem adds_resolveHeap (status : Status) (closes : Bool) (heap : H) :
    Adds ((Machine.resolution status closes).filterMap Event.access?) heap
      (Machine.resolveHeap status closes heap) := by
  unfold Machine.resolution Machine.resolveHeap
  split
  · exact ⟨[.restore], log_restore heap, rfl⟩
  · split
    · exact ⟨[.discard], log_discard heap, rfl⟩
    · exact .refl heap

end LoggedHeap

namespace Machine

variable {H : Type}

/-- The summary that a right trace gives of the machine. -/
def summary (m : Machine H) : Summary :=
  { depth := m.depth, pending := m.waiting.length, status := m.status }

variable [Heap H]

/-! ## What the events say -/

/-- The events, first one first, are what is reported on the way from `m` to `after`, and they tell it
as it is. -/
structure Tells (m : Machine H) (events : List Event) (after : Machine H) : Prop where
  trace : after.trace = events.reverse ++ m.trace
  summary : events.foldl Summary.follow m.summary = after.summary
  dropped : ∀ before later status count, events = before ++ .complete status count :: later →
    count = (before.foldl Summary.follow m.summary).pending
  log : ∀ [LoggedHeap H],
    LoggedHeap.Adds (events.reverse.filterMap Event.access?) m.heap after.heap

section

variable {m worked after : Machine H}

/-- Where nothing is reported, nothing has changed that a report is about. -/
theorem tells_nil (htrace : after.trace = m.trace) (hsummary : after.summary = m.summary)
    (hheap : after.heap = m.heap) : m.Tells [] after where
  trace := htrace
  summary := hsummary.symm
  dropped := by
    intro before later status count hnil
    simp at hnil
  log := by
    rw [hheap]
    exact .refl m.heap

theorem tells_single {event : Event} (htrace : after.trace = event :: m.trace)
    (hsummary : m.summary.follow event = after.summary)
    (hdropped : ∀ status count, event = .complete status count → count = m.waiting.length)
    (hlog : ∀ [LoggedHeap H], LoggedHeap.Adds ([event].filterMap Event.access?) m.heap after.heap) :
    m.Tells [event] after where
  trace := htrace
  summary := hsummary
  dropped := by
    intro before later status count hsplit
    cases before with
    | nil =>
      rw [List.nil_append] at hsplit
      exact hdropped status count (List.cons.inj hsplit).1
    | cons first more => simp at hsplit
  log := hlog

theorem Tells.trans {earlier later : List Event} (hearlier : m.Tells earlier worked)
    (hlater : worked.Tells later after) : m.Tells (earlier ++ later) after where
  trace := by rw [hlater.trace, hearlier.trace, List.reverse_append, List.append_assoc]
  summary := by rw [List.foldl_append, hearlier.summary, hlater.summary]
  dropped := by
    intro before rest status count hsplit
    rcases List.append_eq_append_iff.mp hsplit with ⟨more, rfl, hmore⟩ | ⟨more, hmore, hrest⟩
    · -- the session completes in the later part
      rw [List.foldl_append, hearlier.summary]
      exact hlater.dropped more rest status count hmore
    · cases more with
      | nil =>
        rw [List.append_nil] at hmore
        rw [← hmore, hearlier.summary]
        exact hlater.dropped [] rest status count hrest.symm
      | cons event more =>
        obtain ⟨rfl, -⟩ := List.cons.inj hrest
        exact hearlier.dropped before more status count hmore
  log := by
    rw [List.reverse_append, List.filterMap_append]
    exact hearlier.log.trans hlater.log

/-! ## Calls, spawns and unwinds -/

theorem tells_called (m : Machine H) (context app method : Identifier) :
    m.Tells [.call context app method (m.depth + 1)] (m.called context app method) :=
  tells_single rfl rfl nofun (LoggedHeap.adds_selectRoot m.heap context)

theorem tells_calledIndependently (m : Machine H) (context app method : Identifier) :
    m.Tells [.call context app method (m.depth + 1)] (m.calledIndependently context app method) :=
  tells_single rfl rfl nofun
    ((LoggedHeap.adds_selectRoot m.heap context).trans (LoggedHeap.adds_save _))

theorem tells_spawned (m : Machine H) (app : Identifier) :
    m.Tells [.spawned app (m.waiting.length + 2)] (m.spawned app) := by
  refine tells_single rfl ?_ nofun (.refl m.heap)
  simp [Summary.follow, summary, spawned, depth]

theorem tells_resolution {status : Status} {closes : Bool}
    (htrace : after.trace = resolution status closes ++ m.trace) (hsummary : after.summary = m.summary)
    (hlog : ∀ [LoggedHeap H],
      LoggedHeap.Adds ((resolution status closes).filterMap Event.access?) m.heap after.heap) :
    m.Tells (resolution status closes) after := by
  cases herror : status.isError with
  | true =>
    simp only [resolution, herror] at htrace hlog ⊢
    exact tells_single htrace hsummary.symm nofun hlog
  | false =>
    cases closes with
    | true =>
      simp only [resolution, herror] at htrace hlog ⊢
      exact tells_single htrace hsummary.symm nofun hlog
    | false =>
      simp only [resolution, herror] at htrace hlog ⊢
      exact ⟨htrace, hsummary.symm, by simp, hlog⟩

/-- An unwind reports first where it goes on, and then what became of the heap's checkpoint. -/
theorem tells_unwinding {event : Event} {status : Status} {closes : Bool}
    (htrace : after.trace = resolution status closes ++ event :: m.trace)
    (hsummary : m.summary.follow event = after.summary)
    (hdropped : ∀ status count, event = .complete status count → count = m.waiting.length)
    (hunwinds : event.unwinding? = some status)
    (hlog : ∀ [LoggedHeap H],
      LoggedHeap.Adds ((resolution status closes).filterMap Event.access?) m.heap after.heap) :
    m.Tells (event :: resolution status closes) after := by
  have hunread : [event].filterMap Event.access? = [] := by
    cases event with
    | restored => cases hunwinds
    | discarded => cases hunwinds
    | _ => rfl
  -- between the two reports the heap is not touched yet
  let settled : Machine H := { after with heap := m.heap, trace := event :: m.trace }
  have hsettled : m.Tells [event] settled := by
    refine tells_single rfl hsummary hdropped ?_
    rw [hunread]
    exact .refl m.heap
  exact hsettled.trans (tells_resolution htrace rfl hlog)

omit [Heap H] in
theorem level_of_mem_resolution {status : Status} {closes : Bool} {event : Event}
    (h : event ∈ resolution status closes) : event.level = .debug := by
  unfold resolution at h
  split at h
  · rw [List.mem_singleton.mp h]
    rfl
  · split at h
    · rw [List.mem_singleton.mp h]
      rfl
    · cases h

/-- Each branch of an unwind reports the branch that was taken. -/
theorem exists_tells_unwound (m : Machine H) (dropped kept : Lane) (count : Nat) (status : Status) :
    ∃ event more, m.Tells (event :: more) (m.unwound dropped kept count status) ∧
      event.unwinding? = some status ∧ ∀ change ∈ event :: more, change.level = .debug := by
  have hlevel {event : Event} (hdebug : event.level = .debug) (closes : Bool) :
      ∀ change ∈ event :: resolution status closes, change.level = .debug := by
    intro change hmem
    rcases List.mem_cons.mp hmem with rfl | hmem
    · exact hdebug
    · exact level_of_mem_resolution hmem
  cases m.onward status kept with
  | caller caller rest =>
    have hlog [LoggedHeap H] (closes : Bool) :=
      (LoggedHeap.adds_resolveHeap status closes m.heap).trans
        (LoggedHeap.adds_selectRoot _ caller.context)
    rw [unwound_caller]
    refine ⟨.returned status count (rest.length + 1), _, tells_unwinding rfl rfl ?_ rfl (hlog _), rfl,
      hlevel rfl _⟩
    intro found dropped hcomplete
    cases hcomplete
  | @next hstatus next waiting hwaiting =>
    have hwell : status = .noError := by simpa [Status.isError] using hstatus
    have hlog [LoggedHeap H] (closes : Bool) :=
      (LoggedHeap.adds_resolveHeap status closes m.heap).trans
        (LoggedHeap.adds_selectRoot _ next.context)
    rw [unwound_next m dropped count hstatus hwaiting]
    subst hwell
    refine ⟨.laneStarted next.app waiting.length, _, tells_unwinding rfl rfl ?_ rfl (hlog _), rfl,
      hlevel rfl _⟩
    intro found dropped hcomplete
    cases hcomplete
  | last hends =>
    have hlog [LoggedHeap H] := LoggedHeap.adds_resolveHeap status true m.heap
    rw [unwound_last m dropped count hends]
    refine ⟨.complete status m.waiting.length, _, tells_unwinding rfl rfl ?_ rfl hlog, rfl,
      hlevel rfl _⟩
    intro found dropped hcomplete
    cases hcomplete
    rfl

end

/-! ## Steps -/

omit [Heap H] in
theorem Evolves.summary_eq {m worked : Machine H} (h : m.Evolves worked) : worked.summary = m.summary := by
  rw [summary, summary, h.depth_eq, h.waiting, h.status]

theorem tells_announced {m : Machine H} {top : Frame} {rest : Lane} (hlane : m.lane = top :: rest)
    (opcode : Opcode) (methods : Store) (frame : Frame) :
    m.Tells [.execute opcode top.pc m.depth]
      { m.announced top rest opcode methods with lane := frame :: rest } := by
  refine tells_single rfl ?_ nofun (.refl m.heap)
  simp only [Summary.follow, summary, depth, hlane, announced, List.length_cons]

/-- The events of a step: the instruction is announced and may turn out to fail, and then come the
changes.  After a fault the first change is the throw. -/
structure Reports (m : Machine H) (lead changes : List Event) : Prop where
  tells : m.Tells (lead ++ (m.fault?.map Event.failed).toList ++ changes) m.step.2
  lead_level : ∀ event ∈ lead, event.level = .trace
  changes_level : ∀ event ∈ changes, event.level = .debug
  thrown : ∀ fault, m.fault? = some fault → ∃ event more, changes = event :: more ∧
    event.unwinding? = some fault.status

/-- A step warns exactly if it fails. -/
theorem Reports.filter_warn {m : Machine H} {lead changes : List Event} (h : m.Reports lead changes) :
    (lead ++ (m.fault?.map Event.failed).toList ++ changes).filter (fun event => event.level = .warn) =
      (m.fault?.map Event.failed).toList := by
  have hlead : lead.filter (fun event => event.level = .warn) = [] := by
    simp +contextual [List.filter_eq_nil_iff, h.lead_level]
  have hchanges : changes.filter (fun event => event.level = .warn) = [] := by
    simp +contextual [List.filter_eq_nil_iff, h.changes_level]
  rw [List.filter_append, List.filter_append, hlead, hchanges, List.nil_append, List.append_nil]
  cases m.fault? with
  | none => rfl
  | some fault => rfl

theorem exists_reports_of_fault {m : Machine H} (hbounded : m.Bounded) {fault : Fault}
    (hfault : m.fault? = some fault) : ∃ lead changes, m.Reports lead changes := by
  obtain ⟨left, hrun⟩ := (m.fault?_eq_some_iff fault).mp hfault
  have hwork := evolves_of_fault hrun
  obtain ⟨lead, hlead, htells⟩ : ∃ lead, (∀ event ∈ lead, event.level = .trace) ∧ m.Tells lead left := by
    rcases trace_of_fault hrun with htrace | ⟨opcode, pc, htrace⟩
    · exact ⟨[], nofun, tells_nil htrace hwork.summary_eq hwork.heap⟩
    · refine ⟨[.execute opcode pc m.depth], by simp [Event.level], ?_⟩
      refine tells_single htrace hwork.summary_eq.symm nofun ?_
      rw [hwork.heap]
      exact .refl m.heap
  have hfailed : left.Tells [.failed fault] (left.emit (.failed fault)) :=
    tells_single rfl rfl nofun (.refl left.heap)
  obtain ⟨event, more, hthrown, hunwinds, hlevel⟩ := exists_tells_unwound
    (left.emit (.failed fault)) left.lane.split.1 left.lane.split.2 0 fault.status
  rw [← step_of_fault hbounded hrun] at hthrown
  refine ⟨lead, event :: more, ?_, hlead, hlevel, ?_⟩
  · rw [hfault]
    exact (htells.trans hfailed).trans hthrown
  · intro found hfound
    rw [hfault, Option.some.injEq] at hfound
    subst hfound
    exact ⟨event, more, rfl, hunwinds⟩

/-- An instruction that completes may have worked on the running frame first, and then it reports what it
does. -/
theorem Does.exists_tells {m after : Machine H} {top : Frame} {rest : Lane} {role : Opcode.Role}
    (h : Does m top rest role after) (hlane : m.lane = top :: rest)
    (hsilent : role = .work → m.Silent after) :
    ∃ frame changes, Tells { m with lane := frame :: rest } changes after ∧
      ∀ change ∈ changes, change.level = .debug := by
  have hsame : { m with lane := top :: rest } = m := by rw [← hlane]
  cases h with
  | work hwork =>
    refine ⟨top, [], ?_, nofun⟩
    rw [hsame]
    exact tells_nil (hsilent rfl) hwork.summary_eq hwork.heap
  | enter hfree => exact ⟨_, [], tells_nil rfl rfl rfl, nofun⟩
  | call hpop context app method =>
    exact ⟨_, _, tells_called _ context app method, by simp [Event.level]⟩
  | callIndependent hpop context app method =>
    exact ⟨_, _, tells_calledIndependently _ context app method, by simp [Event.level]⟩
  | spawn hpop => exact ⟨_, _, tells_spawned _ _, by simp [Event.level]⟩
  | ret hfits =>
    obtain ⟨event, more, htells, -, hlevel⟩ := exists_tells_unwound m [top] rest _ .noError
    refine ⟨top, event :: more, ?_, hlevel⟩
    rw [hsame]
    exact htells
  | throw hsize hfits =>
    obtain ⟨event, more, htells, -, hlevel⟩ :=
      exists_tells_unwound m m.lane.split.1 m.lane.split.2 _ .softwareError
    refine ⟨top, event :: more, ?_, hlevel⟩
    rw [hsame]
    exact htells

theorem exists_reports {m : Machine H} (hbounded : m.Bounded) :
    ∃ lead changes, m.Reports lead changes := by
  cases hfault : m.fault? with
  | some fault => exact exists_reports_of_fault hbounded hfault
  | none =>
    have hthrown {changes : List Event} : ∀ fault, m.fault? = some fault →
        ∃ event more, changes = event :: more ∧ event.unwinding? = some fault.status := by
      intro fault hsome
      rw [hfault] at hsome
      cases hsome
    by_cases hne : m.lane = []
    · refine ⟨[], [], ?_, nofun, nofun, hthrown⟩
      rw [hfault, step_of_complete m hne]
      exact tells_nil rfl rfl rfl
    · obtain ⟨opcode, hopcode⟩ := exists_opcode_of_fault?_eq_none hfault hne
      obtain ⟨top, rest, methods, hlane, -, hexecute⟩ := exists_executed hfault hopcode
      obtain ⟨frame, changes, htells, hlevel⟩ := (does_of_execute rfl hexecute).exists_tells rfl
        fun hrole => (silent_execute hrole).of_ok hexecute
      refine ⟨[.execute opcode top.pc m.depth], changes, ?_, by simp [Event.level], hlevel, hthrown⟩
      rw [hfault]
      exact (tells_announced hlane opcode methods frame).trans htells

end Machine

/-! ## Sessions -/

namespace Session

variable {H : Type} [Heap H] (session : Session H)

/-- From before the set-up on, the trace tells what happened. -/
theorem exists_tells_state (n : Nat) :
    ∃ idle : Machine H, idle.summary = .blank ∧ idle.heap = session.heap ∧
      idle.Tells (session.state n).trace.reverse (session.state n) := by
  induction n with
  | zero =>
    obtain ⟨buffer, -, -, hfirst⟩ := session.exists_first_eq
    refine ⟨Machine.idle session.limits buffer session.methods session.heap, rfl, rfl, ?_⟩
    rw [state_zero, hfirst]
    exact Machine.tells_calledIndependently _ _ _ _
  | succ n ih =>
    obtain ⟨idle, hblank, hheap, htells⟩ := ih
    obtain ⟨lead, changes, hreports⟩ := Machine.exists_reports (session.bounded_state n)
    have hstep := hreports.tells
    refine ⟨idle, hblank, hheap, ?_⟩
    rw [state_succ, hstep.trace, List.reverse_append, List.reverse_reverse]
    exact htells.trans hstep

/-- A step reports a fault exactly if it fails, and then right after it the throw of the fault's
status. -/
theorem exists_events (n : Nat) :
    ∃ events, (session.state (n + 1)).trace.reverse = (session.state n).trace.reverse ++ events ∧
      events.filter (fun event => event.level = .warn) =
        ((session.state n).fault?.map Event.failed).toList ∧
      ∀ fault, (session.state n).fault? = some fault → ∃ before event later,
        events = before ++ .failed fault :: event :: later ∧ event.unwinding? = some fault.status := by
  obtain ⟨lead, changes, hreports⟩ := Machine.exists_reports (session.bounded_state n)
  refine ⟨lead ++ ((session.state n).fault?.map Event.failed).toList ++ changes, ?_,
    hreports.filter_warn, ?_⟩
  · rw [state_succ, hreports.tells.trace, List.reverse_append, List.reverse_reverse]
  · intro fault hfault
    obtain ⟨event, more, rfl, hunwinds⟩ := hreports.thrown fault hfault
    refine ⟨lead, event, more, ?_, hunwinds⟩
    rw [hfault]
    simp

/-- The trace is a faithful account of a session.  The summary of the events so far is that of the machine;
the number of lanes that the end of the session drops is the number that the events before it leave
waiting; a step warns exactly if it fails, and reports the throw of that fault next; and what the events
say about checkpoints is what the log of the heap says, if it keeps one. -/
theorem trace_faithful (n : Nat) :
    Summary.ofEvents (session.state n).trace.reverse = (session.state n).summary ∧
      (∀ before later status dropped,
        (session.state n).trace.reverse = before ++ .complete status dropped :: later →
          dropped = (Summary.ofEvents before).pending) ∧
      (∃ events, (session.state (n + 1)).trace.reverse = (session.state n).trace.reverse ++ events ∧
        events.filter (fun event => event.level = .warn) =
          ((session.state n).fault?.map Event.failed).toList ∧
        ∀ fault, (session.state n).fault? = some fault → ∃ before event later,
          events = before ++ .failed fault :: event :: later ∧
            event.unwinding? = some fault.status) ∧
      ∀ [LoggedHeap H], ∃ added,
        LoggedHeap.log (session.state n).heap = added ++ LoggedHeap.log session.heap ∧
          added.filter Access.resolves = (session.state n).trace.filterMap Event.access? := by
  obtain ⟨idle, hblank, hheap, htells⟩ := session.exists_tells_state n
  refine ⟨?_, ?_, session.exists_events n, ?_⟩
  · rw [Summary.ofEvents_eq_foldl, ← hblank]
    exact htells.summary
  · intro before later status dropped hsplit
    rw [Summary.ofEvents_eq_foldl, ← hblank]
    exact htells.dropped before later status dropped hsplit
  · intro _
    have hlog := htells.log
    rw [List.reverse_reverse, hheap] at hlog
    exact hlog

end Session

end LaneMachine
