import LaneMachine.Proofs.Effect
set_option autoImplicit false

/-!
# Limits

Every buffer of a machine is under the ceiling that the limits set for it, the lane is no
deeper than they allow, and the queue no longer.  Effects keep all of that.

Because a caller's stack is never above its ceiling, it can always take zero bytes; so the
throw that answers a fault is never refused (`deliveryFault?_split`), and every step is an
effect (`step_effect`).
-/

namespace LaneMachine

/-- The buffer has this ceiling and is not above it. -/
structure Buffer.Bounded (ceiling : Nat) (buffer : Buffer) : Prop where
  ceiling_eq : buffer.ceiling = ceiling
  size_le : buffer.size ≤ ceiling

namespace Buffer

variable {ceiling : Nat}

theorem Evolves.bounded {before after : Buffer} (h : before.Evolves after)
    (hbefore : before.Bounded ceiling) : after.Bounded ceiling := by
  have hceiling : after.ceiling = ceiling := h.ceiling.trans hbefore.ceiling_eq
  have hfits := h.fits (by rw [hbefore.ceiling_eq]; exact hbefore.size_le)
  rw [hceiling] at hfits
  exact ⟨hceiling, hfits⟩

theorem bounded_withCapacity (capacity : Nat) : (withCapacity capacity ceiling).Bounded ceiling :=
  ⟨rfl, Nat.zero_le ceiling⟩

theorem bounded_zeroed (length : Nat) : (zeroed length ceiling).Bounded ceiling := by
  refine ⟨rfl, ?_⟩
  simp only [zeroed, size, Array.size_replicate]
  exact Nat.min_le_right length ceiling

theorem bounded_of_ofBytes {bytes : Bytes} {spare : Nat} {buffer : Buffer}
    (h : ofBytes bytes spare ceiling = .ok buffer) : buffer.Bounded ceiling := by
  unfold ofBytes at h
  split at h
  · cases h
  · cases h
    exact ⟨rfl, by simp only [size]; omega⟩

theorem contents_of_ofBytes {bytes : Bytes} {spare : Nat} {buffer : Buffer}
    (h : ofBytes bytes spare ceiling = .ok buffer) : buffer.contents = bytes := by
  unfold ofBytes at h
  split at h
  · cases h
  · cases h
    rfl

end Buffer

/-- Both buffers of the frame are under their ceilings. -/
structure Frame.Bounded (limits : Limits) (frame : Frame) : Prop where
  stack : frame.stack.Bounded limits.maxOperandStack.toNat
  locals : frame.locals.Bounded limits.maxLocalFrame.toNat

theorem Frame.Evolves.bounded {limits : Limits} {before after : Frame} (h : before.Evolves after)
    (hbefore : before.Bounded limits) : after.Bounded limits :=
  ⟨h.stack.bounded hbefore.stack, h.locals.bounded hbefore.locals⟩

namespace Machine

variable {H : Type}

/-- The machine is within its limits. -/
structure Bounded (m : Machine H) : Prop where
  lane : ∀ frame ∈ m.lane, frame.Bounded m.limits
  waiting : ∀ frame ∈ m.waiting, frame.Bounded m.limits
  arguments : m.arguments.Bounded m.limits.maxLocalFrame.toNat
  depth : m.depth ≤ m.limits.maxCallStackDepth.toNat
  lanes : m.waiting.length + 1 ≤ max 1 m.limits.maxLanes.toNat

theorem Evolves.depth_eq {before after : Machine H} (h : before.Evolves after) :
    after.depth = before.depth := by
  have hlane := h.lane
  unfold depth
  generalize before.lane = first at hlane
  generalize after.lane = second at hlane
  cases hlane with
  | nil => rfl
  | cons hframe => rfl

theorem Evolves.bounded {before after : Machine H} (h : before.Evolves after)
    (hbefore : before.Bounded) : after.Bounded where
  lane := by
    intro frame hmem
    rw [h.limits]
    have hlane := h.lane
    have hframes := hbefore.lane
    generalize before.lane = first at hlane hframes
    generalize after.lane = second at hlane hmem
    cases hlane with
    | nil => exact hframes frame hmem
    | cons hframe =>
      rcases List.mem_cons.mp hmem with rfl | hmem
      · exact hframe.bounded (hframes _ List.mem_cons_self)
      · exact hframes frame (List.mem_cons_of_mem _ hmem)
  waiting := by
    rw [h.waiting, h.limits]
    exact hbefore.waiting
  arguments := by
    rw [h.limits]
    exact h.arguments.bounded hbefore.arguments
  depth := by
    rw [h.depth_eq, h.limits]
    exact hbefore.depth
  lanes := by
    rw [h.waiting, h.limits]
    exact hbefore.lanes

theorem bounded_newFrame {m : Machine H} (h : m.Bounded) (context app method : Identifier) :
    (m.newFrame context app method).Bounded m.limits :=
  ⟨Buffer.bounded_withCapacity _, h.arguments⟩

theorem bounded_freshArguments (limits : Limits) :
    (freshArguments limits).Bounded limits.maxLocalFrame.toNat :=
  Buffer.bounded_zeroed _

/-! ## Effects keep the limits -/

section

variable [Heap H]

theorem bounded_called {m : Machine H} (h : m.Bounded)
    (hroom : m.depth < m.limits.maxCallStackDepth.toNat) (context app method : Identifier) :
    (m.called context app method).Bounded where
  lane := by
    intro frame hmem
    rcases List.mem_cons.mp hmem with rfl | hmem
    · exact bounded_newFrame h context app method
    · exact h.lane frame hmem
  waiting := h.waiting
  arguments := bounded_freshArguments m.limits
  depth := hroom
  lanes := h.lanes

theorem bounded_calledIndependently {m : Machine H} (h : m.Bounded)
    (hroom : m.depth < m.limits.maxCallStackDepth.toNat) (context app method : Identifier) :
    (m.calledIndependently context app method).Bounded where
  lane := by
    intro frame hmem
    have hframe := bounded_newFrame h context app method
    rcases List.mem_cons.mp hmem with rfl | hmem
    · exact ⟨hframe.stack, hframe.locals⟩
    · exact h.lane frame hmem
  waiting := h.waiting
  arguments := bounded_freshArguments m.limits
  depth := hroom
  lanes := h.lanes

omit [Heap H] in
theorem bounded_spawned {m : Machine H} (h : m.Bounded)
    (hroom : m.waiting.length + 1 < m.limits.maxLanes.toNat) (app : Identifier) :
    (m.spawned app).Bounded where
  lane := h.lane
  waiting := by
    intro frame hmem
    rcases List.mem_append.mp hmem with hmem | hmem
    · exact h.waiting frame hmem
    · rw [List.mem_singleton.mp hmem]
      exact bounded_newFrame h app app .dispatcher
  arguments := bounded_freshArguments m.limits
  depth := h.depth
  lanes := by
    have hlength : (m.spawned app).waiting.length = m.waiting.length + 1 := by simp [spawned]
    have hlimits : (m.spawned app).limits = m.limits := rfl
    rw [hlength, hlimits]
    omega

omit [Heap H] in
theorem bounded_entered {m : Machine H} (h : m.Bounded) {top : Frame} {rest : Lane}
    (hlane : m.lane = top :: rest) : (m.entered top rest).Bounded where
  lane := by
    intro frame hmem
    have hframes := h.lane
    rw [hlane] at hframes
    rcases List.mem_cons.mp hmem with rfl | hmem
    · have htop := hframes top List.mem_cons_self
      exact ⟨htop.stack, htop.locals⟩
    · exact hframes frame (List.mem_cons_of_mem _ hmem)
  waiting := h.waiting
  arguments := h.arguments
  depth := by
    have hdepth := h.depth
    rw [depth, hlane] at hdepth
    exact hdepth
  lanes := h.lanes

omit [Heap H] in
theorem size_payload_le (dropped : Lane) (count : Nat) : (payload dropped count).size ≤ count := by
  unfold payload
  split
  · exact Nat.zero_le count
  · rw [Bytes.size_suffix]
    exact Nat.min_le_left _ _

omit [Heap H] in
theorem canGrowBy_of_deliveryFault? {dropped rest : Lane} {caller : Frame} {count : Nat}
    (h : deliveryFault? dropped (caller :: rest) count = none) :
    caller.stack.size + count ≤ caller.stack.ceiling := by
  unfold deliveryFault? at h
  split at h
  · cases h
  · split at h
    · cases h
    · dsimp only at h
      split at h
      · rename_i hgrow
        exact of_decide_eq_true hgrow
      · cases h

omit [Heap H] in
theorem bounded_append_payload {limits : Limits} {dropped rest : Lane} {caller : Frame}
    {count : Nat} (hcaller : caller.Bounded limits)
    (hfits : deliveryFault? dropped (caller :: rest) count = none) :
    Frame.Bounded limits
      { caller with stack := caller.stack.append (payload dropped count) } := by
  refine ⟨?_, hcaller.locals⟩
  have hroom := canGrowBy_of_deliveryFault? hfits
  have hsize := size_payload_le dropped count
  have hstack : caller.stack.Evolves (caller.stack.append (payload dropped count)) :=
    Buffer.evolves_append (by omega)
  exact hstack.bounded hcaller.stack

theorem bounded_unwound {m : Machine H} (h : m.Bounded) {dropped kept : Lane} {count : Nat}
    {status : Status} (hcut : m.lane.Cut dropped kept status)
    (hfits : deliveryFault? dropped kept count = none) :
    (m.unwound dropped kept count status).Bounded := by
  have hframes := h.lane
  have hdepth := h.depth
  have hlength : 0 < dropped.length := List.length_pos_iff.mpr hcut.ne_nil
  rw [depth, ← hcut.append_eq, List.length_append] at hdepth
  rw [← hcut.append_eq] at hframes
  cases m.onward status kept with
  | caller caller rest =>
    rw [unwound_caller]
    rw [List.length_cons] at hdepth
    refine ⟨?_, h.waiting, bounded_freshArguments m.limits, ?_, h.lanes⟩
    · intro frame hmem
      rcases List.mem_cons.mp hmem with rfl | hmem
      · exact bounded_append_payload (hframes caller (by simp)) hfits
      · exact hframes frame (by simp [hmem])
    · simp only [depth, List.length_cons]
      omega
  | @next hstatus next waiting hwaiting =>
    have hqueued := h.waiting
    have hlanes := h.lanes
    rw [hwaiting] at hqueued hlanes
    rw [List.length_cons] at hlanes
    rw [unwound_next m dropped count hstatus hwaiting]
    refine ⟨?_, ?_, bounded_freshArguments m.limits, ?_, ?_⟩
    · intro frame hmem
      rw [List.mem_singleton.mp hmem]
      exact hqueued next List.mem_cons_self
    · intro frame hmem
      exact hqueued frame (List.mem_cons_of_mem _ hmem)
    · simp only [depth, List.length_singleton]
      omega
    · dsimp only
      omega
  | last hends =>
    rw [unwound_last m dropped count hends]
    exact ⟨by simp, by simp, h.arguments, by simp [depth], Nat.le_max_left 1 _⟩

theorem Effect.bounded {m after : Machine H} (heffect : Effect m after) (h : m.Bounded) :
    after.Bounded := by
  cases heffect with
  | work hwork => exact hwork.bounded h
  | enter hwork hlane hfree => exact bounded_entered (hwork.bounded h) hlane
  | call hwork context app method hroom =>
    exact bounded_called (hwork.bounded h) hroom context app method
  | callIndependent hwork context app method hroom =>
    exact bounded_calledIndependently (hwork.bounded h) hroom context app method
  | spawn hwork app houtside hroom => exact bounded_spawned (hwork.bounded h) hroom app
  | unwind hwork hcut hfits => exact bounded_unwound (hwork.bounded h) hcut hfits

/-! ## Every step is an effect -/

omit [Heap H] in
/-- The throw of a fault carries no bytes, so a frame to throw from is all it needs. -/
theorem deliveryFault?_split {m : Machine H} (h : m.Bounded) (hne : m.lane ≠ []) :
    deliveryFault? m.lane.split.1 m.lane.split.2 0 = none := by
  obtain ⟨top, rest, hlane⟩ := List.exists_cons_of_ne_nil hne
  obtain ⟨more, hmore⟩ := Lane.split_cons top rest
  rw [← hlane] at hmore
  have hmem : ∀ frame ∈ m.lane.split.2, frame ∈ m.lane := by
    intro frame hkept
    rw [← Lane.split_append m.lane]
    exact List.mem_append_right _ hkept
  rw [hmore]
  cases hkept : m.lane.split.2 with
  | nil => rfl
  | cons caller below =>
    have hcaller := (h.lane caller (hmem caller (by simp [hkept]))).stack
    have hgrow : caller.stack.canGrowBy 0 = true := by
      simp only [Buffer.canGrowBy, decide_eq_true_eq, hcaller.ceiling_eq]
      exact hcaller.size_le
    simp [deliveryFault?, hgrow]

/-- A fault is answered by a throw, never by an abort. -/
theorem throwBytes_zero {m : Machine H} (h : m.Bounded) (hne : m.lane ≠ []) (status : Status) :
    throwBytes 0 status m = .ok () (m.unwound m.lane.split.1 m.lane.split.2 0 status) := by
  simp only [throwBytes, unwind, deliveryFault?_split h hne]

theorem lane_ne_nil_of_fault {m left : Machine H} {fault : Fault}
    (h : instruction m = .error fault left) : m.lane ≠ [] := by
  intro hlane
  have hstep := step_of_complete m hlane
  simp only [step, h] at hstep
  cases hstep

omit [Heap H] in
theorem Evolves.lane_ne_nil {before after : Machine H} (h : before.Evolves after)
    (hne : before.lane ≠ []) : after.lane ≠ [] := by
  intro hafter
  have hdepth := h.depth_eq
  rw [depth, depth, hafter] at hdepth
  exact hne (List.length_eq_zero_iff.mp hdepth.symm)

theorem step_of_fault {m left : Machine H} {fault : Fault} (hbounded : m.Bounded)
    (h : instruction m = .error fault left) :
    m.step.2 = (left.emit (.failed fault)).unwound left.lane.split.1 left.lane.split.2 0
      fault.status := by
  have hwork : m.Evolves (left.emit (.failed fault)) :=
    (evolves_of_fault h).trans (evolves_emit left _)
  have hne := hwork.lane_ne_nil (lane_ne_nil_of_fault h)
  simp only [step, h, recover, throwBytes_zero (hwork.bounded hbounded) hne]
  rfl

theorem step_effect {m : Machine H} (hbounded : m.Bounded) : Effect m m.step.2 := by
  cases hrun : instruction m with
  | ok finished after =>
    have heffect := performs_instruction m
    rw [hrun] at heffect
    simp only [step, hrun]
    exact heffect
  | error fault left =>
    have hleft : m.Evolves left := evolves_of_fault hrun
    have hne := hleft.lane_ne_nil (lane_ne_nil_of_fault hrun)
    have hfits := deliveryFault?_split (hleft.bounded hbounded) hne
    rw [step_of_fault hbounded hrun]
    exact .unwind (hleft.trans (evolves_emit left _)) (.byThrow hne _) hfits

theorem bounded_step {m : Machine H} (h : m.Bounded) : m.step.2.Bounded :=
  (step_effect h).bounded h

end

end Machine

end LaneMachine
