import LaneMachine.Proofs.Instruction
set_option autoImplicit false

/-!
# Entrance locks

A lock is kept twice: the machine lists the contexts that are locked, and the frame that
locked one remembers it.  The two never drift apart.  `LocksKept` says that the machine's
list is the list of what the frames of the lane hold, from the running frame down, with no
context twice; every effect keeps that, because only a context that is not listed can be
entered, and an unwind releases what its own frames hold and nothing else.

So a context stays locked for exactly as long as the frame that entered it stays in the lane
(`Lane.Holds`), and a lane that ends leaves no lock behind (`Session.locks_exclusive`).
-/

namespace LaneMachine

/-! ## What the frames of a lane hold -/

namespace Lane

/-- The contexts that the frames of a lane hold, from the running frame down. -/
def held (lane : Lane) : List Identifier :=
  lane.filterMap Frame.lock

theorem mem_held {lane : Lane} {context : Identifier} :
    context ∈ lane.held ↔ ∃ frame ∈ lane, frame.lock = some context :=
  List.mem_filterMap

theorem held_cons_of_none {frame : Frame} (lane : Lane) (h : frame.lock = none) :
    held (frame :: lane) = held lane :=
  List.filterMap_cons_none h

theorem held_cons_of_some {frame : Frame} {context : Identifier} (lane : Lane)
    (h : frame.lock = some context) : held (frame :: lane) = context :: held lane :=
  List.filterMap_cons_some h

theorem held_append (dropped kept : Lane) :
    held (dropped ++ kept) = held dropped ++ held kept :=
  List.filterMap_append

theorem held_cons_congr {before after : Frame} (rest : Lane) (h : after.lock = before.lock) :
    held (after :: rest) = held (before :: rest) := by
  simp only [held, List.filterMap_cons, h]

theorem Evolves.held_eq {before after : Lane} (h : before.Evolves after) :
    after.held = before.held := by
  cases h with
  | nil => rfl
  | cons hframe => exact held_cons_congr _ hframe.lock

/-- Locks on distinct contexts belong to distinct frames. -/
theorem pairwise_of_nodup_held {lane : Lane} (h : lane.held.Nodup) :
    lane.Pairwise fun above below => ∀ context, above.lock = some context →
      below.lock ≠ some context := by
  rw [held, List.Nodup, List.pairwise_filterMap] at h
  refine h.imp ?_
  intro above below hne context habove hbelow
  exact hne context habove context hbelow rfl

/-- Every frame of the lane that holds a lock holds that of its own context. -/
def HoldsOwn (lane : Lane) : Prop :=
  ∀ frame ∈ lane, ∀ context, frame.lock = some context → frame.context = context

theorem HoldsOwn.evolves {before after : Lane} (h : before.HoldsOwn)
    (hwork : before.Evolves after) : after.HoldsOwn := by
  cases hwork with
  | nil => exact h
  | @cons top top' rest hframe =>
    intro frame hmem context hlock
    rcases List.mem_cons.mp hmem with rfl | hmem
    · rw [hframe.lock] at hlock
      rw [hframe.context]
      exact h top List.mem_cons_self context hlock
    · exact h frame (List.mem_cons_of_mem top hmem) context hlock

/-- The lane has a frame on top of `below` that holds the lock of `context`. -/
def Holds (lane below : Lane) (context : Identifier) : Prop :=
  ∃ above frame, lane = above ++ frame :: below ∧ frame.lock = some context

variable {lane below : Lane} {context : Identifier}

theorem Holds.mem_held (h : lane.Holds below context) : context ∈ lane.held := by
  obtain ⟨above, frame, rfl, hlock⟩ := h
  exact Lane.mem_held.mpr ⟨frame, List.mem_append_right above List.mem_cons_self, hlock⟩

theorem Holds.cons (h : lane.Holds below context) (top : Frame) : Holds (top :: lane) below context := by
  obtain ⟨above, frame, rfl, hlock⟩ := h
  exact ⟨top :: above, frame, rfl, hlock⟩

/-- A change of the running frame that leaves it its lock takes no lock from anybody. -/
theorem Holds.retop {top top' : Frame} (h : Holds (top :: lane) below context)
    (htop : top.lock = some context → top'.lock = some context) :
    Holds (top' :: lane) below context := by
  obtain ⟨above, frame, hlane, hlock⟩ := h
  cases above with
  | nil =>
    obtain ⟨rfl, rfl⟩ := List.cons.inj hlane
    exact ⟨[], top', rfl, htop hlock⟩
  | cons first above =>
    obtain ⟨rfl, rfl⟩ := List.cons.inj hlane
    exact ⟨top' :: above, frame, rfl, hlock⟩

theorem Holds.evolves {after : Lane} (h : lane.Holds below context) (hwork : lane.Evolves after) :
    after.Holds below context := by
  cases hwork with
  | nil => exact h
  | cons hframe =>
    refine h.retop ?_
    intro hlock
    rw [hframe.lock, hlock]

/-- Dropping frames from the top leaves the holder, or goes down at least to it. -/
theorem Holds.of_append {dropped kept : Lane} (h : Holds (dropped ++ kept) below context) :
    kept.Holds below context ∨ kept.length ≤ below.length := by
  obtain ⟨above, frame, hlane, hlock⟩ := h
  rcases List.append_eq_append_iff.mp hlane with ⟨middle, -, hkept⟩ | ⟨middle, -, hbelow⟩
  · exact .inl ⟨middle, frame, hkept, hlock⟩
  · cases middle with
    | nil => exact .inl ⟨[], frame, hbelow.symm, hlock⟩
    | cons first middle =>
      rw [List.cons_append, List.cons.injEq] at hbelow
      refine .inr ?_
      rw [hbelow.2, List.length_append]
      omega

end Lane

namespace Machine

variable {H : Type}

/-- Releasing the locks of the dropped frames leaves those of the kept ones. -/
theorem locksWithout_held {dropped kept : Lane} (h : Lane.held (dropped ++ kept) |>.Nodup) :
    locksWithout (Lane.held (dropped ++ kept)) dropped = Lane.held kept := by
  have hdropped : ∀ context,
      (dropped.any fun frame => frame.lock == some context) = true ↔ context ∈ dropped.held := by
    intro context
    rw [Lane.mem_held, List.any_eq_true]
    simp only [beq_iff_eq]
  rw [Lane.held_append] at h ⊢
  have hdisjoint := (List.nodup_append.mp h).2.2
  unfold locksWithout
  rw [List.filter_append]
  have hgone : dropped.held.filter
      (fun context => !dropped.any fun frame => frame.lock == some context) = [] := by
    rw [List.filter_eq_nil_iff]
    intro context hmem
    simp only [(hdropped context).mpr hmem, Bool.not_true, Bool.false_eq_true, not_false_iff]
  have hstay : kept.held.filter
      (fun context => !dropped.any fun frame => frame.lock == some context) = kept.held := by
    rw [List.filter_eq_self]
    intro context hmem
    rw [Bool.not_eq_true', Bool.eq_false_iff, ne_eq, hdropped]
    intro hother
    exact hdisjoint context hother context hmem rfl
  rw [hgone, hstay, List.nil_append]

/-- The machine's locks are what the frames of its lane hold: no context twice, each frame its own, and
the frames that wait none. -/
structure LocksKept (m : Machine H) : Prop where
  locks_eq : m.locks = m.lane.held
  nodup : m.lane.held.Nodup
  own : m.lane.HoldsOwn
  waiting : ∀ frame ∈ m.waiting, frame.lock = none

theorem LocksKept.isLocked_iff {m : Machine H} (h : m.LocksKept) (context : Identifier) :
    m.isLocked context = true ↔ ∃ frame ∈ m.lane, frame.lock = some context := by
  rw [isLocked, List.contains_iff_mem, h.locks_eq, Lane.mem_held]

theorem LocksKept.evolves {m worked : Machine H} (h : m.LocksKept) (hwork : m.Evolves worked) :
    worked.LocksKept where
  locks_eq := by rw [hwork.locks, hwork.lane.held_eq, h.locks_eq]
  nodup := by
    rw [hwork.lane.held_eq]
    exact h.nodup
  own := h.own.evolves hwork.lane
  waiting := by
    rw [hwork.waiting]
    exact h.waiting

/-- A frame whose context is free holds nothing: all it could hold is that context. -/
theorem LocksKept.lock_eq_none {m : Machine H} (h : m.LocksKept) {top : Frame} {rest : Lane}
    (hlane : m.lane = top :: rest) (hfree : m.isLocked top.context = false) : top.lock = none := by
  have hmem : top ∈ m.lane := by
    rw [hlane]
    exact List.mem_cons_self
  cases hlock : top.lock with
  | none => rfl
  | some context =>
    have hown := h.own top hmem context hlock
    have hlocked := (h.isLocked_iff top.context).mpr ⟨top, hmem, by rw [hlock, hown]⟩
    rw [hfree] at hlocked
    cases hlocked

theorem LocksKept.entered {m : Machine H} (h : m.LocksKept) {top : Frame} {rest : Lane}
    (hlane : m.lane = top :: rest) (hfree : m.isLocked top.context = false) :
    (m.entered top rest).LocksKept := by
  have hnone := h.lock_eq_none hlane hfree
  have hlocks := h.locks_eq
  have hnodup := h.nodup
  have hown := h.own
  rw [hlane, Lane.held_cons_of_none rest hnone] at hlocks hnodup
  rw [hlane] at hown
  have hheld : Lane.held ({ top with lock := some top.context } :: rest) =
      top.context :: rest.held := Lane.held_cons_of_some rest rfl
  refine ⟨?_, ?_, ?_, h.waiting⟩
  · simp only [Machine.entered]
    rw [hheld, hlocks]
  · simp only [Machine.entered]
    rw [hheld, List.nodup_cons, ← hlocks]
    refine ⟨?_, hlocks ▸ hnodup⟩
    intro hmem
    rw [isLocked, Bool.eq_false_iff, ne_eq, List.contains_iff_mem] at hfree
    exact hfree hmem
  · intro frame hmem context hlock
    rcases List.mem_cons.mp hmem with rfl | hmem
    · exact Option.some.inj hlock
    · exact hown frame (List.mem_cons_of_mem top hmem) context hlock

theorem LocksKept.push {m : Machine H} (h : m.LocksKept) {frame : Frame} (hlock : frame.lock = none)
    {after : Machine H} (hlane : after.lane = frame :: m.lane) (hlocks : after.locks = m.locks)
    (hwaiting : after.waiting = m.waiting) : after.LocksKept := by
  have hheld : after.lane.held = m.lane.held := by
    rw [hlane, Lane.held_cons_of_none m.lane hlock]
  refine ⟨?_, hheld ▸ h.nodup, ?_, hwaiting ▸ h.waiting⟩
  · rw [hlocks, hheld, h.locks_eq]
  · rw [hlane]
    intro other hmem context hother
    rcases List.mem_cons.mp hmem with rfl | hmem
    · rw [hlock] at hother
      cases hother
    · exact h.own other hmem context hother

variable [Heap H]

theorem LocksKept.unwound {m : Machine H} (h : m.LocksKept) {dropped kept : Lane} {status : Status}
    (hcut : m.lane.Cut dropped kept status) (count : Nat) :
    (m.unwound dropped kept count status).LocksKept := by
  have hnodup := h.nodup
  have hown := h.own
  have hlocks : locksWithout m.locks dropped = kept.held := by
    rw [h.locks_eq, ← hcut.append_eq]
    rw [← hcut.append_eq] at hnodup
    exact locksWithout_held hnodup
  rw [← hcut.append_eq] at hnodup hown
  rw [Lane.held_append] at hnodup
  have hkept : kept.held.Nodup := (List.nodup_append.mp hnodup).2.1
  have hownKept : kept.HoldsOwn := fun frame hmem =>
    hown frame (List.mem_append_right dropped hmem)
  cases m.onward status kept with
  | caller caller rest =>
    rw [unwound_caller]
    have hheld (stack : Buffer) :
        Lane.held ({ caller with stack } :: rest) = Lane.held (caller :: rest) :=
      Lane.held_cons_congr rest rfl
    refine ⟨?_, ?_, ?_, h.waiting⟩
    · simp only [hlocks, hheld]
    · simp only [hheld]
      exact hkept
    · intro frame hmem context hlock
      rcases List.mem_cons.mp hmem with rfl | hmem
      · exact hownKept caller List.mem_cons_self context hlock
      · exact hownKept frame (List.mem_cons_of_mem caller hmem) context hlock
  | @next hstatus next waiting hwaiting =>
    have hqueued := h.waiting
    rw [hwaiting] at hqueued
    have hnext := hqueued next List.mem_cons_self
    rw [unwound_next m dropped count hstatus hwaiting]
    have hheld : Lane.held [next] = [] := Lane.held_cons_of_none [] hnext
    refine ⟨?_, ?_, ?_, ?_⟩
    · simp only [hlocks, hheld]
      rfl
    · simp only [hheld]
      exact List.nodup_nil
    · intro frame hmem context hlock
      rw [List.mem_singleton.mp hmem, hnext] at hlock
      cases hlock
    · intro frame hmem
      exact hqueued frame (List.mem_cons_of_mem next hmem)
  | last hends =>
    rw [unwound_last m dropped count hends]
    refine ⟨hlocks, List.nodup_nil, ?_, ?_⟩
    · intro frame hmem
      cases hmem
    · intro frame hmem
      cases hmem

/-- No effect lets the machine's locks and those of its frames drift apart. -/
theorem Effect.locksKept {m after : Machine H} (heffect : Effect m after) (h : m.LocksKept) :
    after.LocksKept := by
  cases heffect with
  | work hwork => exact h.evolves hwork
  | enter hwork hlane hfree => exact (h.evolves hwork).entered hlane hfree
  | call hwork context app method hroom => exact (h.evolves hwork).push rfl rfl rfl rfl
  | callIndependent hwork context app method hroom => exact (h.evolves hwork).push rfl rfl rfl rfl
  | @spawn worked hwork app houtside hroom =>
    have hworked := h.evolves hwork
    refine ⟨hworked.locks_eq, hworked.nodup, hworked.own, ?_⟩
    intro frame hmem
    rcases List.mem_append.mp hmem with hmem | hmem
    · exact hworked.waiting frame hmem
    · rw [List.mem_singleton.mp hmem]
      rfl
  | unwind hwork hcut hfits => exact (h.evolves hwork).unwound hcut _

/-! ## How long a lock is held -/

/-- A frame keeps its lock until an unwind drops it or the next lane starts. -/
theorem Effect.holds {m after : Machine H} (heffect : Effect m after) (hkept : m.LocksKept)
    {below : Lane} {context : Identifier} (h : m.lane.Holds below context) :
    after.lane.Holds below context ∨ after.depth ≤ below.length ∨
      ∃ next, m.waiting = next :: after.waiting ∧ after.lane = [next] := by
  cases heffect with
  | work hwork => exact .inl (h.evolves hwork.lane)
  | @enter worked hwork top rest hlane hfree =>
    have hworked := h.evolves hwork.lane
    rw [hlane] at hworked
    refine .inl (hworked.retop ?_)
    intro hlock
    rw [(hkept.evolves hwork).lock_eq_none hlane hfree] at hlock
    cases hlock
  | call hwork context app method hroom => exact .inl ((h.evolves hwork.lane).cons _)
  | callIndependent hwork context app method hroom => exact .inl ((h.evolves hwork.lane).cons _)
  | @spawn worked hwork app houtside hroom =>
    have hworked : (worked.spawned app).lane.Holds below context := h.evolves hwork.lane
    exact .inl hworked
  | @unwind worked hwork dropped kept count status hcut hfits =>
    have hworked := h.evolves hwork.lane
    rw [← hcut.append_eq] at hworked
    cases worked.onward status kept with
    | caller caller rest =>
      rw [unwound_caller]
      rcases hworked.of_append with hcaller | hlength
      · exact .inl (hcaller.retop id)
      · exact .inr (.inl hlength)
    | next hstatus hwaiting =>
      rw [unwound_next worked dropped count hstatus hwaiting]
      exact .inr (.inr ⟨_, hwork.waiting.symm.trans hwaiting, rfl⟩)
    | last hends =>
      rw [unwound_last worked dropped count hends]
      exact .inr (.inl (Nat.zero_le _))

theorem holds_of_not_drops {m : Machine H} (hkept : m.LocksKept) (hbounded : m.Bounded)
    {below : Lane} {context : Identifier} (h : m.lane.Holds below context)
    (hstays : ¬ m.Drops below.length) : m.step.2.lane.Holds below context := by
  have hlength : below.length < m.depth := by
    obtain ⟨above, frame, hlane, -⟩ := h
    rw [depth, hlane, List.length_append, List.length_cons]
    omega
  rcases (step_effect hbounded).holds hkept h with hholds | hdropped
  · exact hholds
  · exact absurd ⟨hlength, hdropped⟩ hstays

/-! ## Instructions that enter -/

theorem instruction_enter {m : Machine H} {top : Frame} {rest : Lane}
    (hlane : m.lane = top :: rest) (hopcode : m.opcode? = some .enter) :
    ∃ worked, m.Decoded top rest worked ∧
      instruction m = if m.isLocked top.context
        then .error (.signal .reentrancy) worked
        else .ok false (worked.entered { top with pc := top.pc + 1 } rest) := by
  obtain ⟨top', rest', worked, hworked, hrun⟩ := exists_decoded hopcode
  obtain ⟨rfl, rfl⟩ := List.cons.inj (hlane.symm.trans hworked.before)
  refine ⟨worked, hworked, ?_⟩
  have hlocked : worked.isLocked top.context = m.isLocked top.context := by
    rw [isLocked, isLocked, hworked.locks]
  simp only [hrun, execute, enter, bind, EStateM.bind, hworked.lane, hlocked]
  cases m.isLocked top.context with
  | true => rfl
  | false => rfl

/-- An `enter` fails exactly if its context is locked. -/
theorem fault?_enter {m : Machine H} {top : Frame} {rest : Lane} (hlane : m.lane = top :: rest)
    (hopcode : m.opcode? = some .enter) :
    m.fault? = if m.isLocked top.context then some (.signal .reentrancy) else none := by
  obtain ⟨worked, -, hrun⟩ := instruction_enter hlane hopcode
  rw [fault?, hrun]
  cases m.isLocked top.context with
  | true => rfl
  | false => rfl

/-- An `enter` that completes gives the running frame the lock of its context. -/
theorem holds_of_enter {m : Machine H} {top : Frame} {rest : Lane} (hlane : m.lane = top :: rest)
    (hopcode : m.opcode? = some .enter) (hfault : m.fault? = none) :
    m.step.2.lane.Holds rest top.context := by
  obtain ⟨worked, -, hrun⟩ := instruction_enter hlane hopcode
  rw [fault?_enter hlane hopcode] at hfault
  cases hlocked : m.isLocked top.context with
  | true =>
    rw [hlocked] at hfault
    cases hfault
  | false =>
    rw [hlocked] at hrun
    simp only [step, hrun]
    exact ⟨[], _, rfl, rfl⟩

end Machine

namespace Session

variable {H : Type} [Heap H] (session : Session H)

theorem locksKept_first : session.first.LocksKept := by
  obtain ⟨buffer, -, -, hfirst⟩ := session.exists_first_eq
  have hidle : (Machine.idle session.limits buffer session.methods session.heap).LocksKept := by
    refine ⟨rfl, List.nodup_nil, ?_, ?_⟩
    · intro frame hmem
      cases hmem
    · intro frame hmem
      cases hmem
  rw [hfirst]
  exact hidle.push rfl rfl rfl rfl

theorem locksKept_state (n : Nat) : (session.state n).LocksKept := by
  induction n with
  | zero => exact session.locksKept_first
  | succ n ih => exact (session.effect_state n).locksKept ih

theorem holds_state {n j : Nat} {below : Lane} {context : Identifier} (hle : n ≤ j)
    (h : (session.state n).lane.Holds below context)
    (hstays : ∀ k, n ≤ k → k < j → ¬ (session.state k).Drops below.length) :
    (session.state j).lane.Holds below context := by
  induction hle with
  | refl => exact h
  | @step j hle ih =>
    have hholds : (session.state j).lane.Holds below context := by
      apply ih
      intro k hnk hkj
      exact hstays k hnk (Nat.lt_succ_of_lt hkj)
    rw [state_succ]
    exact Machine.holds_of_not_drops (session.locksKept_state j) (session.bounded_state j) hholds
      (hstays j hle (Nat.lt_succ_self j))

/-- The bottom frame goes only with its whole lane, and no lock outlives that. -/
theorem locks_eq_nil_of_drops {n : Nat} (h : (session.state n).Drops 0) :
    (session.state (n + 1)).locks = [] := by
  have hkept := session.locksKept_state (n + 1)
  rw [hkept.locks_eq]
  rcases h.2 with hdepth | hstarts
  · rw [state_succ, List.length_eq_zero_iff.mp (Nat.le_zero.mp hdepth)]
    rfl
  · obtain ⟨next, hwaiting, hlane⟩ := hstarts
    have hnext := (session.locksKept_state n).waiting next (hwaiting ▸ List.mem_cons_self)
    rw [state_succ, hlane]
    exact Lane.held_cons_of_none [] hnext

/-- A context is locked exactly if a frame of the running lane holds its lock; no two frames hold the same
one, a frame holds only that of its own context, and frames that wait hold none.  A frame that enters a
context takes its lock and, as long as the frame is not dropped, keeps it: the context stays locked and
everyone who enters it fails.  The end of a lane releases every lock. -/
theorem locks_exclusive (n : Nat) :
    (∀ context, (session.state n).isLocked context = true ↔
      ∃ frame ∈ (session.state n).lane, frame.lock = some context) ∧
    ((session.state n).lane.Pairwise fun above below => ∀ context, above.lock = some context →
      below.lock ≠ some context) ∧
    (∀ frame ∈ (session.state n).lane, ∀ context, frame.lock = some context →
      frame.context = context) ∧
    (∀ frame ∈ (session.state n).waiting, frame.lock = none) ∧
    (∀ top rest, (session.state n).lane = top :: rest → (session.state n).opcode? = some .enter →
      (session.state n).fault? = none →
      (session.state (n + 1)).lane.Holds rest top.context) ∧
    (∀ below context, (session.state n).lane.Holds below context → ∀ j, n ≤ j →
      (∀ k, n ≤ k → k < j → ¬ (session.state k).Drops below.length) →
      (session.state j).lane.Holds below context ∧ (session.state j).isLocked context = true ∧
      ∀ top rest, (session.state j).lane = top :: rest → top.context = context →
        (session.state j).opcode? = some .enter →
        (session.state j).fault? = some (.signal .reentrancy)) ∧
    ((session.state n).Drops 0 → (session.state (n + 1)).locks = []) ∧
    ((session.state n).lane = [] → (session.state n).locks = []) := by
  have hkept := session.locksKept_state n
  refine ⟨hkept.isLocked_iff, Lane.pairwise_of_nodup_held hkept.nodup, hkept.own, hkept.waiting,
    ?_, ?_, session.locks_eq_nil_of_drops, ?_⟩
  · intro top rest hlane hopcode hfault
    rw [state_succ]
    exact Machine.holds_of_enter hlane hopcode hfault
  · intro below context hholds j hle hstays
    have hlater := session.holds_state hle hholds hstays
    have hlocked : (session.state j).isLocked context = true := by
      rw [(session.locksKept_state j).isLocked_iff]
      exact Lane.mem_held.mp hlater.mem_held
    refine ⟨hlater, hlocked, ?_⟩
    intro top rest hlane hcontext hopcode
    rw [Machine.fault?_enter hlane hopcode, hcontext, hlocked]
    rfl
  · intro hlane
    rw [hkept.locks_eq, hlane]
    rfl

-- an application that enters its context and then calls itself
example : ((ofPair (Opcode.enter.byte :: Opcode.pushC64.byte :: bytesOfWord 0x11 ++
    [Opcode.invokeDispatcher.byte]) [] Store.empty).state 3).fault? =
      some (.signal .reentrancy) := by
  decide +kernel

end Session

end LaneMachine
