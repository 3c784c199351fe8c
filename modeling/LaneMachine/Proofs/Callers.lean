import LaneMachine.Proofs.Checkpoints
import LaneMachine.Proofs.Lanes
set_option autoImplicit false

/-!
# Calls leave their callers alone

Between a call and the step that drops the callee lies a run of any length, in which frames
come and go above the callee and throws drop many of them at once.  None of it reaches the
frames below the callee: a step changes the running frame only, or it drops frames and
hands bytes to the first frame that stays.

`Lane.Stands` says that a lane still has the callee on top of its callers.  A step that does
not drop the callee keeps it standing (`Machine.stands_of_not_drops`).  The step that drops it
either drops the caller as well, or it leaves the caller as it was but for the bytes that
`Machine.Answers` describes (`Session.callers_undisturbed`).
-/

namespace LaneMachine

/-! ## Lanes that stand on others -/

namespace Lane

theorem Retouched.retop {lane rest : Lane} {top top' : Frame} (h : Retouched lane (top :: rest))
    (hmark : top'.independent = top.independent) : Retouched lane (top' :: rest) := by
  cases h with
  | cons htop => exact .cons (hmark.trans htop) rest

theorem Evolves.insideIndependent_eq {before after : Lane} (h : Evolves before after) :
    after.insideIndependent = before.insideIndependent := by
  rw [insideIndependent, insideIndependent, h.split_eq.2]

/-- The same lane but for the running frame, which keeps its mark and may have called. -/
inductive Extends : Lane → Lane → Prop
  | stays {before after : Lane} (h : Retouched before after) : Extends before after
  | calls {before middle : Lane} (h : Retouched before middle) (callee : Frame) :
      Extends before (callee :: middle)

/-- The lane has a frame with this mark on top of `below`. -/
def Stands (lane : Lane) (mark : Bool) (below : Lane) : Prop :=
  ∃ above frame, lane = above ++ frame :: below ∧ frame.independent = mark

variable {lane below : Lane} {mark : Bool}

theorem Stands.length_lt (h : lane.Stands mark below) : below.length < lane.length := by
  obtain ⟨above, frame, rfl, -⟩ := h
  rw [List.length_append, List.length_cons]
  omega

theorem Stands.cons (h : lane.Stands mark below) (top : Frame) :
    Stands (top :: lane) mark below := by
  obtain ⟨above, frame, rfl, hmark⟩ := h
  exact ⟨top :: above, frame, rfl, hmark⟩

theorem Stands.retouched {after : Lane} (h : lane.Stands mark below)
    (htouch : Retouched lane after) : after.Stands mark below := by
  obtain ⟨above, frame, hlane, hmark⟩ := h
  cases htouch with
  | nil => exact ⟨above, frame, hlane, hmark⟩
  | @cons top top' htop rest =>
    cases above with
    | nil =>
      obtain ⟨rfl, rfl⟩ := List.cons.inj hlane
      exact ⟨[], top', rfl, htop.trans hmark⟩
    | cons first above =>
      obtain ⟨-, rfl⟩ := List.cons.inj hlane
      exact ⟨top' :: above, frame, rfl, hmark⟩

theorem Stands.extends {after : Lane} (h : lane.Stands mark below)
    (hextends : lane.Extends after) : after.Stands mark below := by
  cases hextends with
  | stays htouch => exact h.retouched htouch
  | calls htouch callee => exact (h.retouched htouch).cons callee

/-- Dropping frames from the top leaves the frame standing, or goes down at least to it. -/
theorem Stands.of_append {dropped kept : Lane} (h : Stands (dropped ++ kept) mark below) :
    kept.Stands mark below ∨ kept.length ≤ below.length := by
  obtain ⟨above, frame, hlane, hmark⟩ := h
  rcases List.append_eq_append_iff.mp hlane with ⟨middle, -, hkept⟩ | ⟨middle, -, hbelow⟩
  · exact .inl ⟨middle, frame, hkept, hmark⟩
  · cases middle with
    | nil => exact .inl ⟨[], frame, hbelow.symm, hmark⟩
    | cons first middle =>
      rw [List.cons_append, List.cons.injEq] at hbelow
      refine .inr ?_
      rw [hbelow.2, List.length_append]
      omega

/-- A throw that leaves a frame in the lane stops at an independent one. -/
theorem independent_of_split {above rest : Lane} {callee caller : Frame}
    (hdropped : lane.split.1 = above ++ [callee]) (hkept : lane.split.2 = caller :: rest) :
    callee.independent = true := by
  have hlowest := independent_getLast?_split lane (by simp [hkept])
  rw [hdropped, List.getLast?_concat] at hlowest
  exact hlowest

end Lane

namespace Machine

variable {H : Type} [Heap H]

/-! ## While the callee stands -/

/-- An effect that is no unwind extends the lane, and leaves the queue alone unless it is a spawn outside
of all independent calls. -/
theorem Effect.extends_or_unwinds {m after : Machine H} (heffect : Effect m after) :
    (m.lane.Extends after.lane ∧ (after.waiting = m.waiting ∨ m.lane.insideIndependent = false)) ∨
      ∃ (worked : Machine H) (dropped kept : Lane) (count : Nat) (status : Status),
        m.Evolves worked ∧ worked.lane.Cut dropped kept status ∧
        after = worked.unwound dropped kept count status := by
  cases heffect with
  | work hwork => exact .inl ⟨.stays hwork.lane.retouched, .inl hwork.waiting⟩
  | @enter worked hwork top rest hlane hfree =>
    have htouch := hwork.lane.retouched
    rw [hlane] at htouch
    refine .inl ⟨.stays (htouch.retop ?_), .inl hwork.waiting⟩
    rfl
  | call hwork context app method hroom =>
    exact .inl ⟨.calls hwork.lane.retouched _, .inl hwork.waiting⟩
  | callIndependent hwork context app method hroom =>
    exact .inl ⟨.calls hwork.lane.retouched _, .inl hwork.waiting⟩
  | spawn hwork app houtside hroom =>
    rw [hwork.lane.insideIndependent_eq] at houtside
    exact .inl ⟨.stays hwork.lane.retouched, .inr houtside⟩
  | unwind hwork hcut hfits => exact .inr ⟨_, _, _, _, _, hwork, hcut, rfl⟩

/-- A frame stands on its callers until an unwind drops it or the next lane starts. -/
theorem Effect.stands {m after : Machine H} (heffect : Effect m after) {mark : Bool} {below : Lane}
    (h : m.lane.Stands mark below) :
    after.lane.Stands mark below ∨ after.depth ≤ below.length ∨
      ∃ next, m.waiting = next :: after.waiting ∧ after.lane = [next] := by
  rcases heffect.extends_or_unwinds with ⟨hextends, -⟩ |
    ⟨worked, dropped, kept, count, status, hwork, hcut, rfl⟩
  · exact .inl (h.extends hextends)
  · have hworked := h.retouched hwork.lane.retouched
    rw [← hcut.append_eq] at hworked
    cases worked.onward status kept with
    | caller caller rest =>
      rw [unwound_caller]
      rcases hworked.of_append with hcaller | hlength
      · refine .inl (hcaller.retouched (.cons ?_ rest))
        rfl
      · exact .inr (.inl hlength)
    | next hstatus hwaiting =>
      rw [unwound_next worked dropped count hstatus hwaiting]
      exact .inr (.inr ⟨_, hwork.waiting.symm.trans hwaiting, rfl⟩)
    | last hends =>
      rw [unwound_last worked dropped count hends]
      exact .inr (.inl (Nat.zero_le _))

theorem stands_of_not_drops {m : Machine H} (hbounded : m.Bounded) {mark : Bool} {below : Lane}
    (h : m.lane.Stands mark below) (hstays : ¬ m.Drops below.length) :
    m.step.2.lane.Stands mark below := by
  rcases (step_effect hbounded).stands h with hstands | hdropped
  · exact hstands
  · exact absurd ⟨h.length_lt, hdropped⟩ hstays

/-! ## Calls that complete -/

/-- The next step is an independent call that completes. -/
def CallsIndependently (m : Machine H) : Prop :=
  m.fault? = none ∧ m.role? = some .callIndependent

/-- The next step is a call, independent or not, that completes. -/
def Calls (m : Machine H) : Prop :=
  m.fault? = none ∧ (m.role? = some .call ∨ m.role? = some .callIndependent)

instance (m : Machine H) : Decidable m.CallsIndependently :=
  inferInstanceAs (Decidable (_ ∧ _))

instance (m : Machine H) : Decidable m.Calls :=
  inferInstanceAs (Decidable (_ ∧ _))

theorem CallsIndependently.calls {m : Machine H} (h : m.CallsIndependently) : m.Calls :=
  ⟨h.1, .inr h.2⟩

/-- A call puts the callee on top of its caller and leaves the frames further down and the lanes that
wait as they are. -/
theorem Calls.exists_lane {m : Machine H} (h : m.Calls) :
    ∃ callee caller top rest, m.lane = top :: rest ∧ m.step.2.lane = callee :: caller :: rest ∧
      (callee.independent = true ↔ m.CallsIndependently) ∧ m.step.2.waiting = m.waiting := by
  obtain ⟨hfault, hcalls⟩ := h
  have hne : m.lane ≠ [] := by
    rcases hcalls with hrole | hrole
    · exact lane_ne_nil_of_role? hrole
    · exact lane_ne_nil_of_role? hrole
  obtain ⟨role, top, rest, worked, hrole, hworked, hdoes⟩ := exists_does hfault hne
  generalize hstep : m.step.2 = after at hdoes
  rw [hrole] at hcalls
  cases hdoes with
  | @call word stack hpop context app method =>
    refine ⟨_, _, top, rest, hworked.before, rfl, ?_, hworked.waiting⟩
    refine iff_of_false Bool.false_ne_true ?_
    rintro ⟨-, hindependent⟩
    rw [hrole] at hindependent
    cases hindependent
  | @callIndependent word stack hpop context app method =>
    exact ⟨_, _, top, rest, hworked.before, rfl, iff_of_true rfl ⟨hfault, hrole⟩, hworked.waiting⟩
  | work hwork => simp at hcalls
  | enter hfree => simp at hcalls
  | spawn hpop => simp at hcalls
  | ret hfits => simp at hcalls
  | throw hsize hfits => simp at hcalls

/-! ## How a callee answers -/

/-- How the next step drops the callee and hands bytes to its caller, and with which status.  The
callee returns and then nothing is left above it; or it was called independently, and the running frame,
perhaps far above it, throws or fails. -/
inductive Answers (m : Machine H) (above : Lane) (callee : Frame) : Bytes → Status → Prop
  | ret0 (hfault : m.fault? = none) (hopcode : m.opcode? = some .ret0) (habove : above = []) :
      Answers m above callee #[] .noError
  | ret64 (hfault : m.fault? = none) (hopcode : m.opcode? = some .ret64) (habove : above = [])
      (hsize : wordSize ≤ callee.stack.size) :
      Answers m above callee (Bytes.suffix callee.stack.contents wordSize) .noError
  | throw (hfault : m.fault? = none) (hopcode : m.opcode? = some .throw)
      (hmark : callee.independent = true) {top : Frame} (htop : m.lane.head? = some top) {n : Nat}
      (hn : natOfBytes (Bytes.suffix top.stack.contents 2).toList = n)
      (hsize : n + 2 ≤ top.stack.size) :
      Answers m above callee (Bytes.suffix top.stack.contents (n + 2)) .softwareError
  | fault {fault : Fault} (hfault : m.fault? = some fault) (hmark : callee.independent = true)
      (hstatus : fault.status.isError = true) : Answers m above callee #[] fault.status

omit [Heap H] in
theorem size_of_deliveryFault? {source : Frame} {more kept : Lane} {count : Nat}
    (h : deliveryFault? (source :: more) kept count = none) : count ≤ source.stack.size := by
  rcases Nat.lt_or_ge source.stack.size count with hfew | henough
  · rw [(deliveryFault?_eq_some_iff source more kept count _).mpr (.tooFew hfew)] at h
    cases h
  · exact henough

/-- An unwind that drops the callee and leaves its caller cuts the lane between the two. -/
theorem cut_of_drops {m worked : Machine H} {dropped dropped' kept : Lane} {count : Nat}
    {status : Status} (hstep : m.step.2 = worked.unwound dropped' kept count status)
    (hwaiting : worked.waiting = m.waiting) (hcut : dropped ++ kept = m.lane)
    {above rest : Lane} {callee caller : Frame} (hlane : m.lane = above ++ callee :: caller :: rest)
    (hdrops : m.Drops (rest.length + 1)) (hstays : ¬ m.Drops rest.length) :
    dropped = above ++ [callee] ∧ kept = caller :: rest := by
  have hdeep : rest.length < m.depth := Nat.lt_of_succ_lt hdrops.1
  have hstarts : ¬ m.StartsLane := fun hstarts => hstays ⟨hdeep, .inr hstarts⟩
  have hafter : rest.length < m.step.2.depth :=
    Nat.not_le.mp fun hshort => hstays ⟨hdeep, .inl hshort⟩
  have hdepth : m.step.2.depth = rest.length + 1 :=
    Nat.le_antisymm (hdrops.2.resolve_right hstarts) hafter
  have hlength : kept.length = rest.length + 1 := by
    cases kept with
    | cons first more =>
      rw [hstep, unwound_caller] at hdepth
      exact hdepth
    | nil =>
      have hfollows : Follows m m.step.2 := hstep ▸ follows_unwound hwaiting dropped' count status
      cases hfollows with
      | nextLane hqueue hnext hstatus => exact absurd ⟨_, hqueue, hnext⟩ hstarts
      | complete hempty hqueue hreason =>
        rw [depth, hempty] at hdepth
        cases hdepth
  have hboth : dropped ++ kept = (above ++ [callee]) ++ caller :: rest := by
    rw [hcut, hlane, List.append_assoc]
    rfl
  exact List.append_inj' hboth hlength

theorem answers_of_fault {m : Machine H} (hbounded : m.Bounded) {fault : Fault}
    (hfault : m.fault? = some fault) {above rest : Lane} {callee caller : Frame}
    (hlane : m.lane = above ++ callee :: caller :: rest) (hdrops : m.Drops (rest.length + 1))
    (hstays : ¬ m.Drops rest.length) :
    ∃ bytes, m.step.2.lane = { caller with stack := caller.stack.append bytes } :: rest ∧
      m.Answers above callee bytes m.step.2.status := by
  obtain ⟨left, hrun⟩ := (m.fault?_eq_some_iff fault).mp hfault
  have hstep := step_of_fault hbounded hrun
  have hwork := evolves_of_fault hrun
  rw [hwork.lane.split_eq.2] at hstep
  obtain ⟨hdropped, hkept⟩ :=
    cut_of_drops hstep hwork.waiting m.lane.split_append hlane hdrops hstays
  have hmark := Lane.independent_of_split hdropped hkept
  rw [hkept, unwound_caller, payload_zero] at hstep
  refine ⟨#[], by rw [hstep], ?_⟩
  rw [hstep]
  refine .fault hfault hmark ?_
  simpa [Status.isError] using fault_status_ne_noError hfault

/-- A step that drops the callee and leaves its caller hands the caller what `Answers` says, and changes
nothing else in the lane. -/
theorem answers_of_drops {m : Machine H} (hbounded : m.Bounded) {above rest : Lane}
    {callee caller : Frame} (hlane : m.lane = above ++ callee :: caller :: rest)
    (hdrops : m.Drops (rest.length + 1)) (hstays : ¬ m.Drops rest.length) :
    ∃ bytes, m.step.2.lane = { caller with stack := caller.stack.append bytes } :: rest ∧
      m.Answers above callee bytes m.step.2.status := by
  cases hfault : m.fault? with
  | some fault => exact answers_of_fault hbounded hfault hlane hdrops hstays
  | none =>
    have hne : m.lane ≠ [] := by simp [hlane]
    obtain ⟨role, top, below, worked, hrole, hworked, hdoes⟩ := exists_does hfault hne
    -- the lane gets shorter, so the instruction is a return or a throw
    have hquiet (hret : ∀ count, role ≠ .ret count) (hthrow : role ≠ .throw) : False := by
      obtain ⟨hdepth, hqueue⟩ := hdoes.grows hworked.lane hret hthrow
      rw [hworked.evolves.depth_eq] at hdepth
      rw [hworked.waiting] at hqueue
      exact not_drops_of_grows (Nat.lt_of_lt_of_le hdrops.1 hdepth) hqueue hdrops
    generalize hstep : m.step.2 = after at hdoes
    cases hdoes with
    | @ret count hfits =>
      have hcut : [top] ++ below = m.lane := hworked.before.symm
      obtain ⟨hdropped, hkept⟩ := cut_of_drops hstep hworked.waiting hcut hlane hdrops hstays
      -- a return drops one frame, so the callee is the frame that returns
      obtain ⟨rfl, htop⟩ | ⟨-, hnone⟩ := List.append_eq_singleton_iff.mp hdropped.symm
      · obtain rfl := List.singleton_inj.mp htop
        have hsize := size_of_deliveryFault? hfits
        rw [hkept, unwound_caller]
        refine ⟨_, rfl, ?_⟩
        rcases ret_cases hrole with ⟨hopcode, rfl⟩ | ⟨hopcode, rfl⟩
        · rw [payload_zero]
          exact .ret0 hfault hopcode rfl
        · exact .ret64 hfault hopcode rfl hsize
      · cases hnone
    | @throw count hsize hfits =>
      rw [hworked.evolves.lane.split_eq.2] at hstep ⊢
      obtain ⟨hdropped, hkept⟩ :=
        cut_of_drops hstep hworked.waiting m.lane.split_append hlane hdrops hstays
      obtain ⟨more, hmore⟩ := Lane.split_cons { top with pc := top.pc + 1 } below
      obtain ⟨-, rfl, hcount⟩ := Buffer.thrownSize_eq_ok hsize
      rw [hworked.lane, hmore, hkept, unwound_caller]
      refine ⟨_, rfl, ?_⟩
      have htop : m.lane.head? = some top := by rw [hworked.before, List.head?_cons]
      exact .throw hfault (throw_of_role? hrole) (Lane.independent_of_split hdropped hkept) htop rfl hcount
    | work | enter | call | callIndependent | spawn => exact (hquiet nofun nofun).elim

end Machine

namespace Session

variable {H : Type} [Heap H] (session : Session H)

theorem stands_state {i j : Nat} {mark : Bool} {below : Lane} (hle : i ≤ j)
    (h : (session.state i).lane.Stands mark below)
    (hstays : ∀ k, i ≤ k → k < j → ¬ (session.state k).Drops below.length) :
    (session.state j).lane.Stands mark below := by
  induction hle with
  | refl => exact h
  | @step j hle ih =>
    have hstands : (session.state j).lane.Stands mark below := by
      apply ih
      intro k hik hkj
      exact hstays k hik (Nat.lt_succ_of_lt hkj)
    rw [state_succ]
    exact Machine.stands_of_not_drops (session.bounded_state j) hstands
      (hstays j hle (Nat.lt_succ_self j))

/-- A call puts a callee on top of the frame that made it.  As long as the callee is not dropped, that
frame and those below it are what they were right after the call.  If the step that drops the callee
leaves its caller in the lane, then the caller has taken bytes onto its stack, and nothing else has
changed: the bytes that the callee returned or, if it was called independently, those that the running
frame threw. -/
theorem callers_undisturbed {i : Nat} (hcalls : (session.state i).Calls) :
    ∃ callee caller top rest, (session.state i).lane = top :: rest ∧
      (session.state (i + 1)).lane = callee :: caller :: rest ∧
      ∀ j, i < j → (∀ k, i < k → k < j → ¬ (session.state k).Drops (rest.length + 1)) →
        ∃ above callee, (session.state j).lane = above ++ callee :: caller :: rest ∧
          (callee.independent = true ↔ (session.state i).CallsIndependently) ∧
          ((session.state j).Drops (rest.length + 1) → ¬ (session.state j).Drops rest.length →
            ∃ bytes,
              (session.state (j + 1)).lane =
                { caller with stack := caller.stack.append bytes } :: rest ∧
              (session.state j).Answers above callee bytes (session.state (j + 1)).status) := by
  obtain ⟨callee, caller, top, rest, hbefore, hlane, hmark, -⟩ := hcalls.exists_lane
  rw [← state_succ] at hlane
  refine ⟨callee, caller, top, rest, hbefore, hlane, ?_⟩
  intro j hij hstays
  have hcalled : (session.state (i + 1)).lane.Stands callee.independent (caller :: rest) :=
    ⟨[], callee, hlane, rfl⟩
  obtain ⟨above, callee', hstands, hsame⟩ := session.stands_state hij hcalled hstays
  refine ⟨above, callee', hstands, by rw [hsame, hmark], ?_⟩
  intro hdrops hleaves
  rw [state_succ]
  exact Machine.answers_of_drops (session.bounded_state j) hstands hdrops hleaves

/-- A session whose second frame, called independently, calls a third one that has no code. -/
def strayCall : Session Store :=
  .ofPair (Opcode.pushC64.byte :: bytesOfWord 0x12 ++ [Opcode.indInvokeDispatcher.byte])
    (Opcode.pushC64.byte :: bytesOfWord 0x13 ++ [Opcode.invokeDispatcher.byte]) .empty

/-- The failure of the third frame takes the second one with it and leaves the first as it was. -/
theorem callers_undisturbed_strayCall :
    (strayCall.state 1).Calls ∧ (strayCall.state 4).depth = 3 ∧
      ∃ above callee caller, (strayCall.state 4).lane = above ++ [callee, caller] ∧
        ∃ bytes, (strayCall.state 5).lane = [{ caller with stack := caller.stack.append bytes }] ∧
          (strayCall.state 4).Answers above callee bytes .invalidReference := by
  have hcalls : (strayCall.state 1).Calls := by decide +kernel
  have hdepth : (strayCall.state 1).depth = 1 := by decide +kernel
  have hstays : ∀ k < 4, 1 < k → ¬ (strayCall.state k).Drops 1 := by decide +kernel
  have hdrops : (strayCall.state 4).Drops 1 ∧ ¬ (strayCall.state 4).Drops 0 := by decide +kernel
  have hstatus : (strayCall.state 5).status = .invalidReference := by decide +kernel
  obtain ⟨-, caller, top, rest, hbefore, -, hrun⟩ := callers_undisturbed strayCall hcalls
  rw [Machine.depth, hbefore] at hdepth
  obtain rfl : rest = [] := List.length_eq_zero_iff.mp (Nat.succ.inj hdepth)
  obtain ⟨above, callee, hlane, -, hanswers⟩ := hrun 4 (by decide) fun k hk hlt => hstays k hlt hk
  obtain ⟨bytes, hafter, hanswer⟩ := hanswers hdrops.1 hdrops.2
  rw [show 4 + 1 = 5 from rfl] at hafter hanswer
  rw [hstatus] at hanswer
  exact ⟨hcalls, by decide +kernel, above, callee, caller, hlane, bytes, hafter, hanswer⟩

end Session

end LaneMachine
