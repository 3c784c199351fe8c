import LaneMachine.Proofs.Run
set_option autoImplicit false

/-!
# Which frame owns which checkpoint

A heap that keeps its promises holds a stack of checkpoints, and a lane is a stack of
frames some of which are independent.  The two stacks go together: above any frame that
a throw from further up cannot pass, the independent frames of the lane and the checkpoints
taken since that frame was running correspond one to one.  `Accounts` states this for a
frame chosen as the reference, its guard.

An effect either keeps the account or drops exactly the guard and what is above it
(`Accounts.effect`); in the second case no checkpoint is left above the base, so that the
unwind resolves the guard's own.
-/

namespace LaneMachine

/-! ## Lanes and checkpoints as lists -/

namespace Lane

/-- The same lane, but for the running frame, which keeps its mark. -/
inductive Retouched : Lane → Lane → Prop
  | nil : Retouched [] []
  | cons {before after : Frame} (h : after.independent = before.independent) (rest : Lane) :
      Retouched (before :: rest) (after :: rest)

theorem Evolves.retouched {before after : Lane} (h : Evolves before after) :
    Retouched before after := by
  cases h with
  | nil => exact .nil
  | cons hframe => exact .cons hframe.independent _

variable {lane dropped kept : Lane} {status : Status}

/-- An unwind drops at most one independent frame, and that one is the lowest. -/
theorem Cut.countP_independent (h : Cut lane dropped kept status) :
    dropped.countP Frame.independent =
      if dropped.getLast?.any Frame.independent then 1 else 0 := by
  have hinner : dropped.dropLast.countP Frame.independent = 0 := by
    rw [List.countP_eq_zero]
    intro frame hmem
    rw [h.not_independent_of_mem_dropLast frame hmem]
    exact Bool.false_ne_true
  have hlast := List.dropLast_concat_getLast h.ne_nil
  rw [← hlast, List.countP_append, hinner, List.countP_singleton, List.getLast?_concat,
    Nat.zero_add]
  rfl

variable {C : Type} {mark : Bool} {below : Lane} {base checkpoints : List C}

/-- The lane has a guard with this mark on top of `below`, and the independent frames above the guard
account one by one for the checkpoints above `base`. -/
def Accounts (mark : Bool) (below : Lane) (base : List C) (lane : Lane) (checkpoints : List C) :
    Prop :=
  ∃ above guard saved, lane = above ++ guard :: below ∧ guard.independent = mark ∧
    checkpoints = saved ++ base ∧ saved.length = above.countP Frame.independent

theorem Accounts.length_lt (h : Accounts mark below base lane checkpoints) :
    below.length < lane.length := by
  obtain ⟨above, guard, saved, rfl, -, -, -⟩ := h
  simp only [List.length_append, List.length_cons]
  omega

theorem Accounts.retouched {after : Lane} (h : Accounts mark below base lane checkpoints)
    (htouch : Retouched lane after) : Accounts mark below base after checkpoints := by
  obtain ⟨above, guard, saved, hlane, hmark, hcheckpoints, hcount⟩ := h
  cases above with
  | nil =>
    subst hlane
    cases htouch with
    | cons hframe => exact ⟨[], _, saved, rfl, hframe.trans hmark, hcheckpoints, hcount⟩
  | cons top above =>
    subst hlane
    cases htouch with
    | @cons _ top' hframe =>
      refine ⟨top' :: above, guard, saved, rfl, hmark, hcheckpoints, ?_⟩
      rw [hcount, List.countP_cons, List.countP_cons, hframe]

theorem Accounts.push (h : Accounts mark below base lane checkpoints) {frame : Frame}
    (hframe : frame.independent = false) :
    Accounts mark below base (frame :: lane) checkpoints := by
  obtain ⟨above, guard, saved, rfl, hmark, hcheckpoints, hcount⟩ := h
  refine ⟨frame :: above, guard, saved, rfl, hmark, hcheckpoints, ?_⟩
  rw [hcount, List.countP_cons_of_neg (by simp [hframe])]

theorem Accounts.pushIndependent (h : Accounts mark below base lane checkpoints) {frame : Frame}
    (hframe : frame.independent = true) (captured : C) :
    Accounts mark below base (frame :: lane) (captured :: checkpoints) := by
  obtain ⟨above, guard, saved, rfl, hmark, rfl, hcount⟩ := h
  refine ⟨frame :: above, guard, captured :: saved, rfl, hmark, rfl, ?_⟩
  rw [List.length_cons, hcount, List.countP_cons_of_pos hframe]

/-- Frames are dropped from above the guard, with the checkpoint of the lowest of them if that one is
independent. -/
theorem Accounts.cut_above {above : Lane} {guard : Frame} {saved : List C}
    (hcut : Cut lane dropped kept status) (hmark : guard.independent = mark)
    (hcount : saved.length = (dropped ++ above).countP Frame.independent) :
    Accounts mark below base (above ++ guard :: below)
      (if dropped.getLast?.any Frame.independent then (saved ++ base).tail else saved ++ base) := by
  rw [List.countP_append, hcut.countP_independent] at hcount
  cases hlast : dropped.getLast?.any Frame.independent with
  | false =>
    rw [hlast] at hcount
    exact ⟨above, guard, saved, rfl, hmark, by simp, by simpa using hcount⟩
  | true =>
    rw [hlast] at hcount
    cases saved with
    | nil =>
      simp only [List.length_nil, if_true] at hcount
      omega
    | cons captured saved =>
      refine ⟨above, guard, saved, rfl, hmark, by simp, ?_⟩
      simp only [List.length_cons, if_true] at hcount
      omega

/-- A guard that no unwind from above can pass is either kept, or it is the lowest frame dropped; in
that case no checkpoint is left above the base. -/
theorem Accounts.cut (h : Accounts mark below base lane checkpoints)
    (hguard : mark = true ∨ below = []) (hcut : Cut lane dropped kept status) :
    (kept ≠ [] ∧ Accounts mark below base kept
      (if dropped.getLast?.any Frame.independent then checkpoints.tail else checkpoints)) ∨
    (kept = below ∧ checkpoints = base ∧ dropped.getLast?.any Frame.independent = mark) := by
  obtain ⟨above, guard, saved, hlane, hmark, rfl, hcount⟩ := h
  rcases List.append_eq_append_iff.mp (hcut.append_eq.trans hlane) with
    ⟨middle, rfl, rfl⟩ | ⟨middle, hdropped, hkept⟩
  · exact .inl ⟨by simp, .cut_above hcut hmark hcount⟩
  · cases middle with
    | nil =>
      rw [List.append_nil] at hdropped
      rw [List.nil_append] at hkept
      subst hdropped hkept
      rw [← List.append_nil dropped] at hcount
      exact .inl ⟨by simp, .cut_above hcut hmark hcount⟩
    | cons first middle =>
      rw [List.cons_append, List.cons.injEq] at hkept
      obtain ⟨rfl, rfl⟩ := hkept
      have hinner := hcut.not_independent_of_mem_dropLast
      -- a further dropped frame would lie below the guard, which a throw does not pass
      have hmiddle : middle = [] := by
        rcases hguard with hguard | hguard
        · cases middle with
          | nil => rfl
          | cons second middle =>
            have hfalse := hinner guard (by simp [hdropped])
            rw [hmark, hguard] at hfalse
            cases hfalse
        · exact (List.append_eq_nil_iff.mp hguard).1
      subst hmiddle
      rw [hdropped, List.dropLast_concat] at hinner
      have habove : above.countP Frame.independent = 0 := by
        rw [List.countP_eq_zero]
        intro frame hmem
        rw [hinner frame hmem]
        exact Bool.false_ne_true
      rw [habove] at hcount
      refine .inr ⟨rfl, ?_, ?_⟩
      · rw [List.length_eq_zero_iff.mp hcount, List.nil_append]
      · rw [hdropped, List.getLast?_concat]
        exact hmark

end Lane

/-! ## The heap under an unwind -/

/-- The heap turned to the frame that runs, if one does. -/
def Lane.select {H : Type} [Heap H] (lane : Lane) (heap : H) : H :=
  match lane with
  | [] => heap
  | top :: _ => Heap.selectRoot heap top.context

theorem Lane.checkpoints_select {H : Type} [Heap H] [LawfulHeap H] (lane : Lane) (heap : H) :
    LawfulHeap.checkpoints (lane.select heap) = LawfulHeap.checkpoints heap := by
  cases lane with
  | nil => rfl
  | cons top rest => exact LawfulHeap.checkpoints_selectRoot heap top.context

namespace Machine

open LawfulHeap (contents checkpoints)

variable {H : Type} [Heap H] [LawfulHeap H]

theorem checkpoints_resolveHeap {status : Status} {closes : Bool} (heap : H)
    (h : status.isError = true ∨ closes = true) :
    checkpoints (resolveHeap status closes heap) = (checkpoints heap).tail := by
  unfold resolveHeap
  cases hstatus : status.isError with
  | true => exact LawfulHeap.checkpoints_restore heap
  | false =>
    rw [hstatus] at h
    rcases h with h | rfl
    · cases h
    · exact LawfulHeap.checkpoints_discard heap

theorem contents_resolveHeap_of_isError {status : Status} (hstatus : status.isError = true)
    (closes : Bool) (heap : H) :
    contents (resolveHeap status closes heap) = (checkpoints heap).headD (contents heap) := by
  rw [resolveHeap, if_pos hstatus]
  exact LawfulHeap.contents_restore heap

theorem contents_resolveHeap_of_not_isError {status : Status} (hstatus : status.isError = false)
    (closes : Bool) (heap : H) :
    contents (resolveHeap status closes heap) = contents heap := by
  unfold resolveHeap
  rw [hstatus]
  cases closes with
  | true => exact LawfulHeap.contents_discard heap
  | false => rfl

/-! ## Accounts along effects -/

variable {mark : Bool} {below : Lane} {base : List (LawfulHeap.Contents H)}

/-- The machine's lane accounts for the checkpoints of its heap. -/
def Accounts (mark : Bool) (below : Lane) (base : List (LawfulHeap.Contents H)) (m : Machine H) :
    Prop :=
  Lane.Accounts mark below base m.lane (checkpoints m.heap)

/-- Where the machine goes once the frames above `below` are gone. -/
inductive GoesOn (below : Lane) (m after : Machine H) : Prop
  | caller (hne : below ≠ []) (hdepth : after.depth = below.length)
  | nextLane (hbelow : below = []) {next : Frame} (hwaiting : m.waiting = next :: after.waiting)
      (hlane : after.lane = [next]) (hstatus : after.status.isError = false)
  | complete (hbelow : below = []) (hlane : after.lane = []) (hwaiting : after.waiting = [])

/-- The guard is dropped while the base is all that the heap has; the unwind resolves one checkpoint
if the guard is marked or the session ends, and then turns to the frame that runs next. -/
structure DropsGuard (mark : Bool) (below : Lane) (base : List (LawfulHeap.Contents H))
    (m after : Machine H) : Prop where
  checkpoints_eq : checkpoints m.heap = base
  heap_eq : after.heap =
    after.lane.select (resolveHeap after.status (mark || after.isComplete) m.heap)
  goesOn : GoesOn below m after

theorem Evolves.dropsGuard_unwound {m worked : Machine H} (hwork : m.Evolves worked)
    (hbase : checkpoints m.heap = base) {dropped : Lane}
    (hlast : dropped.getLast?.any Frame.independent = mark) (below : Lane) (count : Nat)
    (status : Status) :
    DropsGuard mark below base m (worked.unwound dropped below count status) := by
  cases worked.onward status below with
  | caller caller rest =>
    rw [unwound_caller, hlast]
    refine ⟨hbase, ?_, .caller (List.cons_ne_nil caller rest) (by simp [depth])⟩
    simp [Lane.select, isComplete, hwork.heap]
  | next hstatus hwaiting =>
    rw [unwound_next worked dropped count hstatus hwaiting, hlast]
    refine ⟨hbase, ?_, .nextLane rfl (hwork.waiting.symm.trans hwaiting) rfl hstatus⟩
    simp [Lane.select, isComplete, hwork.heap]
  | last hends =>
    rw [unwound_last worked dropped count hends]
    refine ⟨hbase, ?_, .complete rfl rfl rfl⟩
    simp [Lane.select, isComplete, hwork.heap]

theorem Accounts.evolves {m worked : Machine H} (h : m.Accounts mark below base)
    (hwork : m.Evolves worked) : worked.Accounts mark below base := by
  have hlane := Lane.Accounts.retouched h hwork.lane.retouched
  rw [← hwork.heap] at hlane
  exact hlane

theorem Accounts.unwound {m : Machine H} (h : m.Accounts mark below base)
    (hguard : mark = true ∨ below = []) {dropped kept : Lane} {status : Status}
    (hcut : m.lane.Cut dropped kept status) (count : Nat) :
    ((m.unwound dropped kept count status).Accounts mark below base ∧
      (m.unwound dropped kept count status).waiting = m.waiting) ∨
    (kept = below ∧ checkpoints m.heap = base ∧
      dropped.getLast?.any Frame.independent = mark) := by
  rcases Lane.Accounts.cut h hguard hcut with ⟨hne, hkept⟩ | hdropped
  · obtain ⟨caller, rest, rfl⟩ := List.exists_cons_of_ne_nil hne
    refine .inl ?_
    rw [unwound_caller]
    refine ⟨?_, rfl⟩
    have hcheckpoints : checkpoints (resolveHeap status
        (dropped.getLast?.any Frame.independent) m.heap) =
        if dropped.getLast?.any Frame.independent then (checkpoints m.heap).tail
        else checkpoints m.heap := by
      cases hlast : dropped.getLast?.any Frame.independent with
      | true => exact checkpoints_resolveHeap m.heap (.inr rfl)
      | false =>
        have hstatus : status.isError = false := by
          cases hstatus : status.isError with
          | false => rfl
          | true =>
            have hind := hcut.independent_of_isError hne hstatus
            rw [hlast] at hind
            cases hind
        simp [resolveHeap, hstatus]
    unfold Accounts
    rw [LawfulHeap.checkpoints_selectRoot, hcheckpoints]
    refine Lane.Accounts.retouched hkept ?_
    refine .cons ?_ rest
    rfl
  · exact .inr hdropped

/-- An effect keeps the account and the lanes that wait, or it drops the guard. -/
theorem Accounts.effect {m after : Machine H} (h : m.Accounts mark below base)
    (hguard : mark = true ∨ below = []) (heffect : Effect m after) :
    (after.Accounts mark below base ∧ m.waiting <+: after.waiting) ∨
      DropsGuard mark below base m after := by
  cases heffect with
  | work hwork => exact .inl ⟨h.evolves hwork, hwork.grows⟩
  | @enter worked hwork top rest hlane hfree =>
    have haccount := h.evolves hwork
    unfold Accounts at haccount
    rw [hlane] at haccount
    refine .inl ⟨Lane.Accounts.retouched haccount ?_, hwork.grows⟩
    refine .cons ?_ rest
    rfl
  | @call worked hwork context app method hroom =>
    refine .inl ⟨?_, hwork.grows⟩
    have hcheckpoints : checkpoints (worked.called context app method).heap =
      checkpoints worked.heap := LawfulHeap.checkpoints_selectRoot worked.heap context
    unfold Accounts
    rw [hcheckpoints]
    exact Lane.Accounts.push (h.evolves hwork) rfl
  | @callIndependent worked hwork context app method hroom =>
    refine .inl ⟨?_, hwork.grows⟩
    have hcheckpoints : checkpoints (worked.calledIndependently context app method).heap =
        contents (Heap.selectRoot worked.heap context) :: checkpoints worked.heap := by
      rw [← LawfulHeap.checkpoints_selectRoot worked.heap context]
      exact LawfulHeap.checkpoints_save (Heap.selectRoot worked.heap context)
    unfold Accounts
    rw [hcheckpoints]
    exact Lane.Accounts.pushIndependent (h.evolves hwork) rfl _
  | @spawn worked hwork app houtside hroom =>
    have haccount : worked.Accounts mark below base := h.evolves hwork
    exact .inl ⟨haccount, hwork.grows.trans (List.prefix_append _ _)⟩
  | @unwind worked hwork dropped kept count status hcut hfits =>
    rcases (h.evolves hwork).unwound hguard hcut count with ⟨haccount, hwaiting⟩ |
      ⟨rfl, hbase, hlast⟩
    · have hsame := hwaiting.trans hwork.waiting
      exact .inl ⟨haccount, hsame ▸ List.prefix_rfl⟩
    · rw [hwork.heap] at hbase
      exact .inr (hwork.dropsGuard_unwound hbase hlast kept count status)

/-- Dropping a marked guard, or the last frame of the session, takes one checkpoint off the base. -/
theorem DropsGuard.checkpoints_after {m after : Machine H} (h : DropsGuard mark below base m after)
    (hcloses : mark = true ∨ after.lane = []) : checkpoints after.heap = base.tail := by
  have hor : (mark || after.isComplete) = true := by
    rcases hcloses with hmark | hlane
    · simp [hmark]
    · simp [isComplete, hlane]
  rw [h.heap_eq, Lane.checkpoints_select, checkpoints_resolveHeap m.heap (.inr hor),
    h.checkpoints_eq]

end Machine

end LaneMachine
