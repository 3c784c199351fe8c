import LaneMachine.Heap.Visits
import LaneMachine.Proofs.Checkpoints
set_option autoImplicit false

/-!
# Independent frames as transactions

A frame becomes independent in the step that pushes it, and in that step the heap is
checkpointed.  Between that step and the one that drops the frame, any number of frames,
independent or not, may come and go above it.  All the same the step that drops it finds
the frame's own checkpoint on top: it takes off that one and no other, and then turns the
heap to the frame that runs next.

`Session.Opens` says at which step and on which heap a frame is marked.  Every independent
frame of a lane was marked by such a step and not dropped since (`Session.exists_opens`), and
`Session.transaction_resolved` says what is left of its transaction when it goes.
-/

namespace LaneMachine

open LawfulHeap (contents checkpoints)

variable {H : Type} [Heap H]

/-! ## Where independent frames come from -/

namespace Lane

/-- The lane has an independent frame on top of `below`. -/
def Marks (lane below : Lane) : Prop :=
  ∃ above frame, lane = above ++ frame :: below ∧ frame.independent = true

variable {lane below : Lane}

theorem Marks.length_lt (h : lane.Marks below) : below.length < lane.length := by
  obtain ⟨above, frame, rfl, -⟩ := h
  rw [List.length_append, List.length_cons]
  omega

theorem Marks.of_cons {top : Frame} (h : Marks (top :: lane) below) :
    (lane = below ∧ top.independent = true) ∨ lane.Marks below := by
  obtain ⟨above, frame, hlane, hmark⟩ := h
  cases above with
  | nil =>
    obtain ⟨rfl, rfl⟩ := List.cons.inj hlane
    exact .inl ⟨rfl, hmark⟩
  | cons first above =>
    obtain ⟨-, rfl⟩ := List.cons.inj hlane
    exact .inr ⟨above, frame, rfl, hmark⟩

theorem Marks.cons (h : lane.Marks below) (top : Frame) : Marks (top :: lane) below := by
  obtain ⟨above, frame, rfl, hmark⟩ := h
  exact ⟨top :: above, frame, rfl, hmark⟩

theorem Marks.append (h : lane.Marks below) (dropped : Lane) : Marks (dropped ++ lane) below := by
  induction dropped with
  | nil => exact h
  | cons top dropped ih => exact ih.cons top

theorem not_marks_nil : ¬ Marks [] below := by
  intro h
  exact absurd h.length_lt (Nat.not_lt_zero _)

theorem Retouched.marks {after : Lane} (htouch : Retouched lane after) (h : after.Marks below) :
    lane.Marks below := by
  cases htouch with
  | nil => exact h
  | @cons top top' htop rest =>
    rcases h.of_cons with ⟨rfl, hmark⟩ | hrest
    · exact ⟨[], top, rfl, htop.symm.trans hmark⟩
    · exact hrest.cons top

end Lane

namespace Machine

/-- An independent frame of the lane is either marked in this step, or it was there before and no lane
that waited has been started. -/
theorem Effect.marks_cases {m after : Machine H} (heffect : Effect m after)
    (hwaits : ∀ frame ∈ m.waiting, frame.independent = false) {below : Lane}
    (h : after.lane.Marks below) :
    (∃ frame, after.lane = frame :: below ∧ frame.independent = true ∧
        after.depth = m.depth + 1) ∨
      (m.lane.Marks below ∧ m.waiting <+: after.waiting) := by
  cases heffect with
  | work hwork => exact .inr ⟨hwork.lane.retouched.marks h, hwork.grows⟩
  | @enter worked hwork top rest hlane hfree =>
    have hworked : worked.lane.Marks below := by
      rw [hlane]
      refine Lane.Retouched.marks ?_ h
      refine .cons ?_ rest
      rfl
    exact .inr ⟨hwork.lane.retouched.marks hworked, hwork.grows⟩
  | @call worked hwork context app method hroom =>
    rcases Lane.Marks.of_cons h with ⟨-, hmark⟩ | hworked
    · cases hmark
    · exact .inr ⟨hwork.lane.retouched.marks hworked, hwork.grows⟩
  | @callIndependent worked hwork context app method hroom =>
    rcases Lane.Marks.of_cons h with ⟨rfl, -⟩ | hworked
    · refine .inl ⟨_, rfl, rfl, ?_⟩
      rw [← hwork.depth_eq]
      rfl
    · exact .inr ⟨hwork.lane.retouched.marks hworked, hwork.grows⟩
  | @spawn worked hwork app houtside hroom =>
    have hworked : worked.lane.Marks below := h
    exact .inr ⟨hwork.lane.retouched.marks hworked, hwork.grows.trans (List.prefix_append _ _)⟩
  | @unwind worked hwork dropped kept count status hcut hfits =>
    cases worked.onward status kept with
    | caller caller rest =>
      rw [unwound_caller] at h ⊢
      have hkept : Lane.Marks (caller :: rest) below := by
        refine Lane.Retouched.marks ?_ h
        refine .cons ?_ rest
        rfl
      have hworked := hkept.append dropped
      rw [hcut.append_eq] at hworked
      exact .inr ⟨hwork.lane.retouched.marks hworked, hwork.grows⟩
    | @next hstatus next waiting hwaiting =>
      rw [unwound_next worked dropped count hstatus hwaiting] at h
      -- all that the new lane has is the frame that waited, and that one is not marked
      have hplain : next.independent = false := by
        apply hwaits
        rw [← hwork.waiting, hwaiting]
        exact List.mem_cons_self
      rcases Lane.Marks.of_cons h with ⟨-, hmark⟩ | hnil
      · rw [hplain] at hmark
        cases hmark
      · exact absurd hnil Lane.not_marks_nil
    | last hends =>
      rw [unwound_last worked dropped count hends] at h
      exact absurd h Lane.not_marks_nil

/-! ## Steps that mark a frame -/

theorem depth_unwound_le {m : Machine H} {dropped kept : Lane} {status : Status}
    (hcut : m.lane.Cut dropped kept status) (count : Nat) :
    (m.unwound dropped kept count status).depth ≤ m.depth := by
  have hlength : 0 < dropped.length := List.length_pos_iff.mpr hcut.ne_nil
  have hdepth : m.depth = dropped.length + kept.length := by
    rw [depth, ← hcut.append_eq, List.length_append]
  cases m.onward status kept with
  | caller caller rest =>
    rw [unwound_caller, hdepth]
    simp only [depth, List.length_cons]
    omega
  | next hstatus hwaiting =>
    rw [unwound_next m dropped count hstatus hwaiting, hdepth]
    simp only [depth, List.length_singleton, List.length_nil]
    omega
  | last hends =>
    rw [unwound_last m dropped count hends]
    exact Nat.zero_le _

/-- The lane grows by an independent frame only in a step that saves the heap, turned to the context of
that frame. -/
theorem Effect.saves_of_independent {m after : Machine H} (heffect : Effect m after) {frame : Frame}
    {below : Lane} (hlane : after.lane = frame :: below) (hdepth : after.depth = m.depth + 1)
    (hmark : frame.independent = true) :
    after.heap = Heap.save (Heap.selectRoot m.heap frame.context) := by
  cases heffect with
  | work hwork =>
    have hsame := hwork.depth_eq
    omega
  | enter hwork htop hfree =>
    have hsame := hwork.depth_eq
    rw [depth, htop] at hsame
    simp only [depth, entered, List.length_cons] at hdepth hsame
    omega
  | @call worked hwork context app method hroom =>
    have hplain : frame.independent = false := by
      rw [← (List.cons.inj hlane).1]
      rfl
    rw [hplain] at hmark
    cases hmark
  | @callIndependent worked hwork context app method hroom =>
    rw [← (List.cons.inj hlane).1, ← hwork.heap]
    rfl
  | @spawn worked hwork app houtside hroom =>
    have hsame := hwork.depth_eq
    have hspawned : (worked.spawned app).depth = worked.depth := rfl
    omega
  | @unwind worked hwork dropped kept count status hcut hfits =>
    have hsame := hwork.depth_eq
    have hshrinks := depth_unwound_le hcut count
    omega

/-! ## Steps that drop a frame -/

variable [LawfulHeap H] {mark : Bool} {below : Lane} {base : List (LawfulHeap.Contents H)}

theorem DropsGuard.drops {m : Machine H} (h : DropsGuard mark below base m m.step.2)
    (hlength : below.length < m.depth) : m.Drops below.length := by
  refine ⟨hlength, ?_⟩
  cases h.goesOn with
  | caller hne hdepth => exact .inl (Nat.le_of_eq hdepth)
  | nextLane hbelow hwaiting hlane hstatus => exact .inr ⟨_, hwaiting, hlane⟩
  | complete hbelow hlane hwaiting =>
    rw [depth, hlane]
    exact .inl (Nat.zero_le _)

end Machine

namespace Session

variable (session : Session H)

/-- After `n` steps a frame with `index` frames below it has just been marked independent, on a heap
that was `before` until it was saved. -/
inductive Opens : (n index : Nat) → (before : H) → Prop
  | first : Opens 0 0 (Heap.selectRoot session.heap session.app)
  | call {n : Nat} {frame : Frame} {below : Lane}
      (hlane : (session.state (n + 1)).lane = frame :: below)
      (hdepth : (session.state (n + 1)).depth = (session.state n).depth + 1)
      (hmark : frame.independent = true) :
      Opens (n + 1) (session.state n).depth (Heap.selectRoot (session.state n).heap frame.context)

variable {session} {n index : Nat} {before : H}

theorem Opens.heap_eq (h : session.Opens n index before) :
    (session.state n).heap = Heap.save before := by
  cases h with
  | first => exact session.heap_first
  | call hlane hdepth hmark =>
    exact (session.effect_state _).saves_of_independent hlane hdepth hmark

theorem Opens.exists_lane (h : session.Opens n index before) :
    ∃ frame below, (session.state n).lane = frame :: below ∧ frame.independent = true ∧
      below.length = index := by
  cases h with
  | first =>
    obtain ⟨frame, hlane, hmark, -⟩ := session.exists_lane_first
    exact ⟨frame, [], hlane, hmark, rfl⟩
  | @call n frame below hlane hdepth hmark =>
    refine ⟨frame, below, hlane, hmark, ?_⟩
    rw [Machine.depth, hlane, List.length_cons] at hdepth
    omega

/-- Every independent frame of the lane was marked by a step, and has not been dropped since. -/
theorem exists_opens (session : Session H) {n : Nat} {below : Lane}
    (h : (session.state n).lane.Marks below) :
    ∃ i before, i ≤ n ∧ session.Opens i below.length before ∧
      ∀ k, i ≤ k → k < n → ¬ (session.state k).Drops below.length := by
  induction n with
  | zero =>
    obtain ⟨first, hfirst, -, -⟩ := session.exists_lane_first
    rw [state_zero, hfirst] at h
    rcases h.of_cons with ⟨rfl, -⟩ | hnil
    · refine ⟨0, _, Nat.le_refl 0, .first, ?_⟩
      intro k hle hlt
      exact absurd hlt (Nat.not_lt.mpr hle)
    · exact absurd hnil Lane.not_marks_nil
  | succ n ih =>
    have hdeeper : below.length < (session.state (n + 1)).depth := h.length_lt
    rcases (session.effect_state n).marks_cases (session.waiting_not_independent n) h with
      ⟨frame, hlane, hmark, hdepth⟩ | ⟨hmarks, hgrows⟩
    · have hopens := Opens.call hlane hdepth hmark
      have hlength : (session.state n).depth = below.length := by
        rw [Machine.depth, hlane, List.length_cons] at hdepth
        omega
      rw [hlength] at hopens
      refine ⟨n + 1, _, Nat.le_refl _, hopens, ?_⟩
      intro k hle hlt
      exact absurd hlt (Nat.not_lt.mpr hle)
    · obtain ⟨i, before, hle, hopens, hstays⟩ := ih hmarks
      refine ⟨i, before, Nat.le_succ_of_le hle, hopens, ?_⟩
      intro k hik hkn
      rcases Nat.lt_succ_iff_lt_or_eq.mp hkn with hkn | rfl
      · exact hstays k hik hkn
      · rw [state_succ] at hdeeper hgrows
        exact Machine.not_drops_of_grows hdeeper hgrows

/-! ## From the mark to the drop -/

variable [LawfulHeap H]

theorem Opens.exists_accounts (h : session.Opens n index before) :
    ∃ below : Lane, below.length = index ∧
      (session.state n).Accounts true below (contents before :: checkpoints before) := by
  obtain ⟨frame, below, hlane, hmark, hlength⟩ := h.exists_lane
  have hcheckpoints : checkpoints (session.state n).heap =
      contents before :: checkpoints before := by
    rw [h.heap_eq]
    exact LawfulHeap.checkpoints_save before
  exact ⟨below, hlength, [], frame, [], hlane, hmark, hcheckpoints, rfl⟩

/-- As long as the guard is not dropped, the account that was opened with it stands. -/
theorem accounts_of_not_drops {below : Lane} {base : List (LawfulHeap.Contents H)} {i j : Nat}
    (hle : i ≤ j) (h : (session.state i).Accounts true below base)
    (hstays : ∀ k, i ≤ k → k < j → ¬ (session.state k).Drops below.length) :
    (session.state j).Accounts true below base := by
  induction hle with
  | refl => exact h
  | @step j hle ih =>
    have haccount : (session.state j).Accounts true below base := by
      apply ih
      intro k hik hkj
      exact hstays k hik (Nat.lt_succ_of_lt hkj)
    rcases haccount.effect (.inl rfl) (session.effect_state j) with ⟨hkept, -⟩ | hdropped
    · exact hkept
    · rw [state_succ] at hdropped
      have hdrops := hdropped.drops (Lane.Accounts.length_lt haccount)
      exact absurd hdrops (hstays j hle (Nat.lt_succ_self j))

/-- The step that drops a frame resolves the transaction that was opened with the frame. -/
theorem Opens.resolved {i j : Nat} (hopens : session.Opens i index before) (hle : i ≤ j)
    (hstays : ∀ k, i ≤ k → k < j → ¬ (session.state k).Drops index)
    (hdrops : (session.state j).Drops index) :
    ∃ resolved : H,
      (session.state (j + 1)).heap = (session.state (j + 1)).lane.select resolved ∧
      checkpoints resolved = checkpoints before ∧
      contents resolved =
        if (session.state (j + 1)).status.isError then contents before
        else contents (session.state j).heap := by
  obtain ⟨below, rfl, hopened⟩ := hopens.exists_accounts
  have haccount := accounts_of_not_drops hle hopened hstays
  rcases haccount.effect (.inl rfl) (session.effect_state j) with ⟨hkept, hgrows⟩ | hdropped
  · rw [state_succ] at hkept hgrows
    have hlength := Lane.Accounts.length_lt hkept
    exact absurd hdrops (Machine.not_drops_of_grows hlength hgrows)
  · have hheap := hdropped.heap_eq
    rw [Bool.true_or] at hheap
    refine ⟨_, hheap, ?_, ?_⟩
    · rw [Machine.checkpoints_resolveHeap _ (.inr rfl), hdropped.checkpoints_eq]
      rfl
    · cases hstatus : (session.state (j + 1)).status.isError with
      | true =>
        rw [Machine.contents_resolveHeap_of_isError hstatus, hdropped.checkpoints_eq]
        rfl
      | false => exact Machine.contents_resolveHeap_of_not_isError hstatus _ _

/-- For every independent frame of a lane there is the step that marked it, on a heap `before`, and the
frame was not dropped since.  The step that drops it leaves the checkpoints of `before`; it leaves the
contents of `before` if the unwind has an error status, else those that the step found; and then it only
turns the heap to the frame that runs next. -/
theorem transaction_resolved {j : Nat} {above below : Lane} {frame : Frame}
    (hlane : (session.state j).lane = above ++ frame :: below) (hmark : frame.independent = true)
    (hdrops : (session.state j).Drops below.length) :
    ∃ i before, i ≤ j ∧ session.Opens i below.length before ∧
      (∀ k, i ≤ k → k < j → ¬ (session.state k).Drops below.length) ∧
      (session.state i).heap = Heap.save before ∧
      ∃ resolved : H,
        (session.state (j + 1)).heap = (session.state (j + 1)).lane.select resolved ∧
        checkpoints resolved = checkpoints before ∧
        contents resolved =
          if (session.state (j + 1)).status.isError then contents before
          else contents (session.state j).heap := by
  obtain ⟨i, before, hle, hopens, hstays⟩ := session.exists_opens ⟨above, frame, hlane, hmark⟩
  exact ⟨i, before, hle, hopens, hstays, hopens.heap_eq, hopens.resolved hle hstays hdrops⟩

/-- A session whose second frame, called independently, fails at its second instruction. -/
def failingCall : Session VisitedStore :=
  .ofPair (Opcode.pushC64.byte :: bytesOfWord 0x12 ++ [Opcode.indInvokeDispatcher.byte])
    [Opcode.noOp.byte, Opcode.ret64.byte] ⟨.empty⟩

theorem transaction_resolved_failingCall :
    ∃ top below, (failingCall.state 3).lane = top :: below ∧ top.independent = true ∧
      (failingCall.state 3).Drops below.length ∧
      ∃ i before, i ≤ 3 ∧ failingCall.Opens i below.length before ∧
        ∃ resolved, (failingCall.state 4).heap = (failingCall.state 4).lane.select resolved ∧
          checkpoints resolved = checkpoints before ∧ contents resolved = contents before := by
  have hne : (failingCall.state 3).lane ≠ [] := by decide +kernel
  have htail : (failingCall.state 3).lane.tail.length = 1 := by decide +kernel
  have htop : (failingCall.state 3).lane.head?.any Frame.independent = true := by decide +kernel
  have hdrops : (failingCall.state 3).Drops 1 := ⟨by decide +kernel, .inl (by decide +kernel)⟩
  have hfails : (failingCall.state 4).status.isError = true := by decide +kernel
  obtain ⟨top, below, hlane⟩ := List.exists_cons_of_ne_nil hne
  rw [hlane] at htop htail
  rw [← htail] at hdrops
  obtain ⟨i, before, hle, hopens, -, -, resolved, hheap, hcheckpoints, hcontents⟩ :=
    transaction_resolved (hlane.trans (List.nil_append _).symm) htop hdrops
  rw [show 3 + 1 = 4 from rfl] at hheap hcontents
  rw [hfails, if_pos rfl] at hcontents
  exact ⟨top, below, hlane, htop, hdrops, i, before, hle, hopens, resolved, hheap, hcheckpoints,
    hcontents⟩

end Session

end LaneMachine
