import LaneMachine.Heap.Visits
import LaneMachine.Proofs.Checkpoints
set_option autoImplicit false

/-!
# The checkpoints that a session leaves

What the host finds on its heap depends on how far the session got.  While the first
lane runs, its bottom frame owns the checkpoint of the set-up, on top of what the host
held.  A spawned lane has no checkpoint of its own: its bottom frame is not independent,
and the one of the set-up is gone.  The session still resolves a checkpoint when it
ends, and after a spawned lane that one is the host's.

`Session.checkpoints_accounted` is the exact account at every moment, and
`Session.atomic_iff` says exactly which sessions leave the host's checkpoints alone and
undo everything if they fail.
-/

namespace LaneMachine

open LawfulHeap (contents checkpoints)

variable {H : Type} [Heap H]

namespace Session

/-! ## The account of a session -/

variable [LawfulHeap H] (session : Session H)

/-- The checkpoints that the host holds. -/
def held : List (LawfulHeap.Contents H) :=
  checkpoints session.heap

/-- The contents that the set-up saves. -/
def captured : LawfulHeap.Contents H :=
  contents (Heap.selectRoot session.heap session.app)

theorem checkpoints_first : checkpoints session.first.heap = session.captured :: session.held := by
  rw [heap_first, LawfulHeap.checkpoints_save, LawfulHeap.checkpoints_selectRoot]
  rfl

/-- The three situations of a session, and the checkpoints on the heap in each of them. -/
inductive Account (n : Nat) : Prop
  | firstLane (hnone : ¬ session.StartedLane n)
      (h : (session.state n).Accounts true [] (session.captured :: session.held))
  | spawnedLane (hsome : session.StartedLane n)
      (h : (session.state n).Accounts false [] session.held)
  | complete (hlane : (session.state n).lane = []) (hwaiting : (session.state n).waiting = [])
      (hnone : ¬ session.StartedLane n → checkpoints (session.state n).heap = session.held)
      (hsome : session.StartedLane n → checkpoints (session.state n).heap = session.held.tail)

theorem account_zero : session.Account 0 := by
  obtain ⟨frame, hlane, hmark, -⟩ := session.exists_lane_first
  refine .firstLane session.not_startedLane_zero ?_
  exact ⟨[], frame, [], hlane, hmark, session.checkpoints_first, rfl⟩

theorem accounts_nextLane {n : Nat} {next : Frame} {base : List (LawfulHeap.Contents H)}
    (hwaiting : (session.state n).waiting = next :: (session.state (n + 1)).waiting)
    (hlane : (session.state (n + 1)).lane = [next])
    (hbase : checkpoints (session.state (n + 1)).heap = base) :
    (session.state (n + 1)).Accounts false [] base := by
  have hmark := session.waiting_not_independent n next (hwaiting ▸ List.mem_cons_self)
  exact ⟨[], next, [], hlane, hmark, hbase, rfl⟩

theorem account_succ {n : Nat} (h : session.Account n) : session.Account (n + 1) := by
  have heffect := session.effect_state n
  cases h with
  | firstLane hnone haccount =>
    rcases haccount.effect (.inr rfl) heffect with ⟨hkept, hgrows⟩ | hdropped
    · rw [state_succ] at hgrows
      have hstays := Machine.not_startsLane_of_grows hgrows
      refine .firstLane ?_ hkept
      rw [startedLane_succ_iff]
      exact not_or.mpr ⟨hnone, hstays⟩
    · cases hdropped.goesOn with
      | caller hne => exact absurd rfl hne
      | nextLane _ hwaiting hlane _ =>
        have hstarts := (session.startsLane_state_iff n).mpr ⟨_, hwaiting, hlane⟩
        refine .spawnedLane ((session.startedLane_succ_iff n).mpr (.inr hstarts)) ?_
        exact session.accounts_nextLane hwaiting hlane (hdropped.checkpoints_after (.inl rfl))
      | complete _ hlane hwaiting =>
        have hstays := session.not_startsLane_of_lane_eq_nil hlane
        refine .complete hlane hwaiting ?_ ?_
        · intro _
          exact hdropped.checkpoints_after (.inl rfl)
        · intro hstarted
          exact absurd ((session.startedLane_succ_iff n).mp hstarted)
            (not_or.mpr ⟨hnone, hstays⟩)
  | spawnedLane hsome haccount =>
    have hstarted := (session.startedLane_succ_iff n).mpr (.inl hsome)
    rcases haccount.effect (.inr rfl) heffect with ⟨hkept, -⟩ | hdropped
    · exact .spawnedLane hstarted hkept
    · cases hdropped.goesOn with
      | caller hne => exact absurd rfl hne
      | nextLane _ hwaiting hlane hstatus =>
        refine .spawnedLane hstarted (session.accounts_nextLane hwaiting hlane ?_)
        -- the bottom frame of a spawned lane resolves nothing when another lane follows
        rw [hdropped.heap_eq, Lane.checkpoints_select, ← hdropped.checkpoints_eq]
        simp [Machine.resolveHeap, Machine.isComplete, hstatus, hlane]
      | complete _ hlane hwaiting =>
        refine .complete hlane hwaiting ?_ ?_
        · intro hnone
          exact absurd hstarted hnone
        · intro _
          exact hdropped.checkpoints_after (.inr hlane)
  | complete hlane hwaiting hnone hsome =>
    have hstay : session.state (n + 1) = session.state n := by
      rw [state_succ, Machine.step_of_complete _ hlane]
    have hiff : session.StartedLane (n + 1) ↔ session.StartedLane n := by
      rw [startedLane_succ_iff, or_iff_left]
      exact session.not_startsLane_of_lane_eq_nil (by rw [hstay, hlane])
    refine .complete ?_ ?_ ?_ ?_
    · rw [hstay, hlane]
    · rw [hstay, hwaiting]
    · rw [hstay, hiff]
      exact hnone
    · rw [hstay, hiff]
      exact hsome

theorem account (n : Nat) : session.Account n := by
  induction n with
  | zero => exact session.account_zero
  | succ n ih => exact session.account_succ ih

/-- While a session runs, its heap has the host's checkpoints and, on top of them, one for each
independent frame of the running lane; the bottom frame is one of these exactly in the first lane.  A
complete session leaves the host's checkpoints if it never started a spawned lane, and one less if it
did. -/
theorem checkpoints_accounted (n : Nat) :
    ((session.state n).lane ≠ [] →
      ∃ saved, checkpoints (session.state n).heap = saved ++ checkpoints session.heap ∧
        saved.length = (session.state n).lane.countP Frame.independent) ∧
    (∀ bottom, (session.state n).lane.getLast? = some bottom →
      (bottom.independent = true ↔ ¬ session.StartedLane n)) ∧
    ((session.state n).lane = [] →
      (¬ session.StartedLane n →
        checkpoints (session.state n).heap = checkpoints session.heap) ∧
      (session.StartedLane n →
        checkpoints (session.state n).heap = (checkpoints session.heap).tail)) := by
  cases session.account n with
  | firstLane hnone haccount =>
    obtain ⟨above, guard, saved, hlane, hmark, hcheckpoints, hcount⟩ := haccount
    rw [hlane, hcheckpoints]
    refine ⟨fun _ => ⟨saved ++ [session.captured], by simp [held], ?_⟩, ?_, by simp⟩
    · rw [List.length_append, hcount, List.countP_append, List.countP_singleton, if_pos hmark]
      rfl
    · intro bottom hbottom
      rw [List.getLast?_concat, Option.some.injEq] at hbottom
      rw [← hbottom, hmark]
      exact iff_of_true rfl hnone
  | spawnedLane hsome haccount =>
    obtain ⟨above, guard, saved, hlane, hmark, hcheckpoints, hcount⟩ := haccount
    rw [hlane, hcheckpoints]
    refine ⟨fun _ => ⟨saved, rfl, ?_⟩, ?_, by simp⟩
    · rw [hcount, List.countP_append, List.countP_singleton, hmark]
      rfl
    · intro bottom hbottom
      rw [List.getLast?_concat, Option.some.injEq] at hbottom
      rw [← hbottom, hmark]
      exact iff_of_false Bool.false_ne_true (not_not_intro hsome)
  | complete hlane hwaiting hnone hsome =>
    rw [hlane]
    refine ⟨fun hne => absurd rfl hne, ?_, fun _ => ⟨hnone, hsome⟩⟩
    intro bottom hbottom
    cases hbottom

/-! ## Atomicity towards the host -/

/-- The step that completes a session resolves one checkpoint, whoever owns it. -/
theorem heap_of_completing {n : Nat} {mark : Bool} {base : List (LawfulHeap.Contents H)}
    (haccount : (session.state n).Accounts mark [] base)
    (hcomplete : (session.state (n + 1)).lane = []) :
    checkpoints (session.state (n + 1)).heap = base.tail ∧
      ((session.state (n + 1)).status.isError = true →
        contents (session.state (n + 1)).heap =
          base.headD (contents (session.state n).heap)) := by
  rcases haccount.effect (.inr rfl) (session.effect_state n) with ⟨hkept, -⟩ | hdropped
  · have hlength := Lane.Accounts.length_lt hkept
    rw [hcomplete] at hlength
    exact absurd hlength (Nat.lt_irrefl 0)
  · refine ⟨hdropped.checkpoints_after (.inr hcomplete), ?_⟩
    intro hstatus
    rw [hdropped.heap_eq, hcomplete, ← hdropped.checkpoints_eq]
    exact Machine.contents_resolveHeap_of_isError hstatus _ _

/-- A session that completes leaves the host's checkpoints as they were and, if it failed, the contents
as the set-up saved them, exactly if it started no spawned lane, or if the host held no checkpoint and
the last step of a failed session found those contents. -/
theorem atomic_iff {n : Nat} (hrunning : (session.state n).lane ≠ [])
    (hcomplete : (session.state (n + 1)).lane = []) :
    (checkpoints (session.state (n + 1)).heap = session.held ∧
      ((session.state (n + 1)).outcome.error.isError = true →
        contents (session.state (n + 1)).heap = session.captured)) ↔
    (¬ session.StartedLane n ∨
      (session.held = [] ∧
        ((session.state (n + 1)).outcome.error.isError = true →
          contents (session.state n).heap = session.captured))) := by
  cases session.account n with
  | complete hlane => exact absurd hlane hrunning
  | firstLane hnone haccount =>
    obtain ⟨hcheckpoints, hcontents⟩ := session.heap_of_completing haccount hcomplete
    exact iff_of_true ⟨hcheckpoints, hcontents⟩ (.inl hnone)
  | spawnedLane hsome haccount =>
    obtain ⟨hcheckpoints, hcontents⟩ := session.heap_of_completing haccount hcomplete
    rw [hcheckpoints]
    constructor
    · rintro ⟨htail, hcaptured⟩
      have hheld : session.held = [] := by
        cases hheld : session.held with
        | nil => rfl
        | cons latest rest =>
          have hlength := congrArg List.length htail
          rw [hheld, List.tail_cons, List.length_cons] at hlength
          omega
      refine .inr ⟨hheld, ?_⟩
      intro hstatus
      have hlast := hcontents hstatus
      rw [hheld] at hlast
      exact hlast.symm.trans (hcaptured hstatus)
    · rintro (hnone | ⟨hheld, hcaptured⟩)
      · exact absurd hsome hnone
      · refine ⟨by rw [hheld]; rfl, ?_⟩
        intro hstatus
        have hlast := hcontents hstatus
        rw [hheld] at hlast
        exact hlast.trans (hcaptured hstatus)

/-- A session that spawns one lane, which runs a single instruction. -/
def spawning {H : Type} [Heap H] (heap : H) (opcode : Opcode) : Session H :=
  .ofPair (Opcode.pushC64.byte :: bytesOfWord 0x12 ++
    [Opcode.spawnDispatcher.byte, Opcode.ret0.byte]) [opcode.byte] heap

/-- Where the host holds no checkpoint, a spawned lane that returns leaves none. -/
theorem atomic_iff_spawning :
    ((spawning Store.empty .ret0).state 3).lane ≠ [] ∧
      ((spawning Store.empty .ret0).state 4).lane = [] ∧
      checkpoints ((spawning Store.empty .ret0).state 4).heap =
        (spawning Store.empty .ret0).held := by
  have hrunning : ((spawning Store.empty .ret0).state 3).lane ≠ [] := by decide +kernel
  have hcomplete : ((spawning Store.empty .ret0).state 4).lane = [] := by decide +kernel
  have hreturns : ((spawning Store.empty .ret0).state 4).outcome.error.isError ≠ true := by
    decide +kernel
  have hiff := atomic_iff _ hrunning hcomplete
  rw [show 3 + 1 = 4 from rfl] at hiff
  have hatomic := hiff.mpr (.inr ⟨rfl, fun hfails => absurd hfails hreturns⟩)
  exact ⟨hrunning, hcomplete, hatomic.1⟩

/-- A spawned lane that returns takes a checkpoint of the host's with it, and one that fails leaves the
visit of its context behind. -/
theorem not_atomic_spawning :
    (((spawning Store.empty.save .ret0).state 4).lane = [] ∧
      checkpoints ((spawning Store.empty.save .ret0).state 4).heap ≠
        (spawning Store.empty.save .ret0).held) ∧
    ((spawning (VisitedStore.mk .empty) .ret64).state 4).lane = [] ∧
      ((spawning (VisitedStore.mk .empty) .ret64).state 4).outcome.error = .invalidOperands ∧
      contents ((spawning (VisitedStore.mk .empty) .ret64).state 4).heap ≠
        (spawning (VisitedStore.mk .empty) .ret64).captured := by
  refine ⟨⟨by decide +kernel, ?_⟩, by decide +kernel, by decide +kernel, ?_⟩
  · intro hheld
    have hlength := congrArg List.length hheld
    revert hlength
    decide +kernel
  · intro hcaptured
    have hcount := congrArg
      (fun chunks : Chunks => chunks.get? ⟨0x12⟩ VisitedStore.countChild) hcaptured
    revert hcount
    decide +kernel

end Session

end LaneMachine
