import LaneMachine.Proofs.Callers
set_option autoImplicit false

/-!
# No lane is spawned under an independent call

Rolling an independent call back takes the heap back to where it was, but nothing takes a
queued lane off the queue again.  Nothing has to: as long as a frame above the bottom of the
lane is independent, every spawn is refused, whoever tries it and however many calls and
throws lie in between.

The same frames decide where a throw stops and whether a spawn is refused.  An unwind never
passes one of them (`Lane.Stands.cut`), so it stays in the lane until the unwind of which it is
the lowest frame; and while it stays, the queue does not move (`Machine.Effect.confined`).
-/

namespace LaneMachine

namespace Lane

variable {lane dropped kept below : Lane} {mark : Bool} {status : Status}

theorem Stands.exists_accounts (h : lane.Stands mark below) :
    ∃ saved : List Unit, Accounts mark below [] lane saved := by
  obtain ⟨above, frame, hlane, hmark⟩ := h
  exact ⟨_, above, frame, List.replicate (above.countP Frame.independent) (), hlane, hmark, rfl,
    List.length_replicate⟩

/-- An independent frame outlasts an unwind, or it is the lowest frame that the unwind drops. -/
theorem Stands.cut (h : lane.Stands true below) (hcut : Cut lane dropped kept status) :
    kept.Stands true below ∨ kept = below := by
  obtain ⟨saved, haccounts⟩ := h.exists_accounts
  rcases haccounts.cut (.inl rfl) hcut with ⟨-, above, frame, -, hkept, hmark, -⟩ | ⟨hkept, -⟩
  · exact .inl ⟨above, frame, hkept, hmark⟩
  · exact .inr hkept

/-- Whoever runs above an independent frame that is not at the bottom is inside an independent call. -/
theorem Stands.insideIndependent {caller : Frame} {rest : Lane}
    (h : lane.Stands true (caller :: rest)) : lane.insideIndependent = true := by
  have hne : lane ≠ [] := List.length_pos_iff.mp (Nat.zero_lt_of_lt h.length_lt)
  have hkept : lane.split.2 ≠ [] := by
    rcases h.cut (.byThrow hne .softwareError) with hstands | hcaller
    · exact List.length_pos_iff.mp (Nat.zero_lt_of_lt hstands.length_lt)
    · rw [hcaller]
      exact List.cons_ne_nil caller rest
  simp [Lane.insideIndependent, hkept]

end Lane

namespace Machine

variable {H : Type} [Heap H]

/-- Under an independent call an effect leaves the queue alone; it keeps the callee, or drops it and
nothing below it. -/
theorem Effect.confined {m after : Machine H} (heffect : Effect m after) {caller : Frame}
    {rest : Lane} (h : m.lane.Stands true (caller :: rest)) :
    after.waiting = m.waiting ∧ (after.lane.Stands true (caller :: rest) ∨
      ∃ bytes, after.lane = { caller with stack := caller.stack.append bytes } :: rest) := by
  rcases heffect.extends_or_unwinds with ⟨hextends, hsame | houtside⟩ |
    ⟨worked, dropped, kept, count, status, hwork, hcut, rfl⟩
  · exact ⟨hsame, .inl (h.extends hextends)⟩
  · -- a spawn gets through outside of all independent calls only
    rw [h.insideIndependent] at houtside
    cases houtside
  · rcases (h.retouched hwork.lane.retouched).cut hcut with hkept | rfl
    · have hne := List.length_pos_iff.mp (Nat.zero_lt_of_lt hkept.length_lt)
      obtain ⟨first, more, rfl⟩ := List.exists_cons_of_ne_nil hne
      rw [unwound_caller]
      refine ⟨hwork.waiting, .inl (hkept.retouched (.cons ?_ more))⟩
      rfl
    · rw [unwound_caller]
      exact ⟨hwork.waiting, .inr ⟨_, rfl⟩⟩

/-! ## Spawns that are refused -/

/-- Inside an independent call a spawn fails, whether or not the stack holds the identifier that it asks
for. -/
theorem fault?_spawnDispatcher {m : Machine H} {top : Frame} {rest : Lane}
    (hlane : m.lane = top :: rest) (hopcode : m.opcode? = some .spawnDispatcher)
    (hinside : m.lane.insideIndependent = true) :
    m.fault? = some (if top.stack.size < wordSize
      then .buffer (.outOfBounds 0 wordSize top.stack.size) else .signal .invalidSpawnState) := by
  obtain ⟨top', rest', worked, hworked, hrun⟩ := exists_decoded hopcode
  obtain ⟨rfl, rfl⟩ := List.cons.inj (hlane.symm.trans hworked.before)
  rw [fault?, hrun]
  by_cases hshort : top.stack.size < wordSize
  · simp only [execute, spawnDispatcher, popIdentifier, onStack, onTop, Frame.onStack, bind,
      EStateM.bind, hworked.lane, Buffer.pop_of_lt hshort, if_pos hshort]
  · obtain ⟨word, stack, hpop⟩ : ∃ word stack, Buffer.pop top.stack = .ok word stack :=
      ⟨_, _, Buffer.pop_of_le (Nat.not_lt.mp hshort)⟩
    have hpopped : Lane.insideIndependent ({ top with pc := top.pc + 1, stack } :: rest) = true := by
      rw [hlane] at hinside
      rw [← hinside]
      refine Lane.Evolves.insideIndependent_eq (.cons ?_)
      exact ⟨rfl, rfl, rfl, rfl, rfl, Buffer.keeps_pop.of_ok hpop, .refl _⟩
    simp only [execute, spawnDispatcher, popIdentifier, onStack, onTop, Frame.onStack, bind,
      EStateM.bind, hworked.lane, hpop, pure, EStateM.pure, spawn, hpopped, if_true, if_neg hshort]

end Machine

namespace Session

variable {H : Type} [Heap H] (session : Session H)

/-- The queue does not move from the step that follows an independent call to the one that drops the
callee. -/
theorem waiting_state {i j : Nat} {caller : Frame} {rest : Lane} (hle : i ≤ j)
    (h : (session.state i).lane.Stands true (caller :: rest))
    (hstays : ∀ k, i ≤ k → k < j → ¬ (session.state k).Drops (rest.length + 1)) :
    (session.state j).waiting = (session.state i).waiting := by
  induction hle with
  | refl => rfl
  | @step j hle ih =>
    have hbefore : ∀ k, i ≤ k → k < j → ¬ (session.state k).Drops (rest.length + 1) :=
      fun k hik hkj => hstays k hik (Nat.lt_succ_of_lt hkj)
    have hstands := session.stands_state hle h hbefore
    exact ((session.effect_state j).confined hstands).1.trans (ih hbefore)

/-- Take a frame that was called independently.  From the call up to and including the step that drops
the frame, the lanes that wait are the same; a spawn that is tried in between fails, and it fails as a
spawn in the wrong place if the stack holds an identifier.  The step that drops the frame drops none of
the frames below it. -/
theorem independent_call_spawns_none {i : Nat} (hcalls : (session.state i).CallsIndependently) :
    ∃ callee caller top rest, (session.state i).lane = top :: rest ∧
      (session.state (i + 1)).lane = callee :: caller :: rest ∧ callee.independent = true ∧
      ∀ j, i < j → (∀ k, i < k → k < j → ¬ (session.state k).Drops (rest.length + 1)) →
        (session.state j).waiting = (session.state i).waiting ∧
        (session.state (j + 1)).waiting = (session.state i).waiting ∧
        ∃ above callee, (session.state j).lane = above ++ callee :: caller :: rest ∧
          callee.independent = true ∧
          (∀ running, (session.state j).lane.head? = some running →
            (session.state j).opcode? = some .spawnDispatcher →
            (session.state j).fault? = some (if running.stack.size < wordSize
              then .buffer (.outOfBounds 0 wordSize running.stack.size)
              else .signal .invalidSpawnState)) ∧
          ((session.state j).Drops (rest.length + 1) → ∃ bytes, (session.state (j + 1)).lane =
            { caller with stack := caller.stack.append bytes } :: rest) := by
  obtain ⟨callee, caller, top, rest, hbefore, hlane, hmark, hqueue⟩ := hcalls.calls.exists_lane
  rw [← state_succ] at hlane hqueue
  have hindependent := hmark.mpr hcalls
  have hcalled : (session.state (i + 1)).lane.Stands true (caller :: rest) :=
    ⟨[], callee, hlane, hindependent⟩
  refine ⟨callee, caller, top, rest, hbefore, hlane, hindependent, ?_⟩
  intro j hij hstays
  have hstands := session.stands_state hij hcalled hstays
  have hsame := (session.waiting_state hij hcalled hstays).trans hqueue
  obtain ⟨hnext, hafter⟩ := (session.effect_state j).confined hstands
  have hinside := hstands.insideIndependent
  obtain ⟨above, callee', hnow, hstill⟩ := hstands
  refine ⟨hsame, hnext.trans hsame, above, callee', hnow, hstill, ?_, ?_⟩
  · intro running hhead hopcode
    obtain ⟨more, hrunning⟩ := List.head?_eq_some_iff.mp hhead
    exact Machine.fault?_spawnDispatcher hrunning hopcode hinside
  · intro hdrops
    refine hafter.resolve_left ?_
    intro hkept
    have hgrows : (session.state j).waiting <+: (session.state (j + 1)).waiting :=
      hnext ▸ List.prefix_rfl
    rw [state_succ] at hkept hgrows
    exact Machine.not_drops_of_grows hkept.length_lt hgrows hdrops

/-- The spawn fails with its identifier on the stack; the call ends, and no lane waits that did not wait
before it. -/
theorem independent_call_spawns_none_refusedSpawn :
    (Machine.refusedSpawn.state 1).CallsIndependently ∧
      (Machine.refusedSpawn.state 3).opcode? = some .spawnDispatcher ∧
      (Machine.refusedSpawn.state 3).fault? = some (.signal .invalidSpawnState) ∧
      (Machine.refusedSpawn.state 4).waiting = (Machine.refusedSpawn.state 1).waiting ∧
      ∃ (caller : Frame) (bytes : Bytes), (Machine.refusedSpawn.state 4).lane =
        [{ caller with stack := caller.stack.append bytes }] := by
  have hcalls : (Machine.refusedSpawn.state 1).CallsIndependently := by decide +kernel
  have hdepth : (Machine.refusedSpawn.state 1).depth = 1 := by decide +kernel
  have hstays : ∀ k < 3, 1 < k → ¬ (Machine.refusedSpawn.state k).Drops 1 := by decide +kernel
  have hdrops : (Machine.refusedSpawn.state 3).Drops 1 := by decide +kernel
  have hopcode : (Machine.refusedSpawn.state 3).opcode? = some .spawnDispatcher := by decide +kernel
  have hsize : (Machine.refusedSpawn.state 3).lane.head?.map (·.stack.size) = some wordSize := by
    decide +kernel
  obtain ⟨-, caller, top, rest, hbefore, -, -, hrun⟩ :=
    independent_call_spawns_none Machine.refusedSpawn hcalls
  rw [Machine.depth, hbefore] at hdepth
  obtain rfl : rest = [] := List.length_eq_zero_iff.mp (Nat.succ.inj hdepth)
  obtain ⟨-, hqueue, -, -, -, -, hspawn, hleaves⟩ :=
    hrun 3 (by decide) fun k hk hlt => hstays k hlt hk
  obtain ⟨running, hrunning, hwhole⟩ := Option.map_eq_some_iff.mp hsize
  have hfault := hspawn running hrunning hopcode
  rw [hwhole, if_neg (Nat.lt_irrefl wordSize)] at hfault
  obtain ⟨bytes, hafter⟩ := hleaves hdrops
  exact ⟨hcalls, hopcode, hfault, hqueue, caller, bytes, hafter⟩

end Session

end LaneMachine
