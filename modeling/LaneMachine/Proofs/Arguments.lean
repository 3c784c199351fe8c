import LaneMachine.Proofs.Callers
import LaneMachine.Proofs.Lanes
import LaneMachine.Proofs.Work
set_option autoImplicit false

/-!
# What a callee is given

The arguments of the next call are one buffer that every frame of a session writes to in
turn.  What keeps the writes of one frame from the callees of another is that every step
which changes the running frame, and every spawn, starts the buffer afresh.

`Machine.argument?` is the word that a step passes.  A step that transfers control leaves a
fresh buffer behind, and one that does not adds the word that it passes, if it passes one
(`Machine.Settles`).  So the buffer holds what the running frame has passed since control was
transferred last, and nothing else (`Session.arguments_passed`).
-/

namespace LaneMachine

/-! ## Words written into a local frame -/

/-- A word that is passed to the next call, and where in the callee's local frame it goes. -/
structure Argument where
  /-- offset in the local frame -/
  offset : UInt16
  /-- the word -/
  word : UInt64
  deriving DecidableEq, Repr, Inhabited

/-- The bytes with the argument written over them.  Bytes that end before the argument does are
extended by zeros first. -/
def Argument.overwrite (bytes : List UInt8) (argument : Argument) : List UInt8 :=
  let start := argument.offset.toNat
  let extended := bytes ++ List.replicate (start + wordSize - bytes.length) 0
  extended.take start ++ bytesOfWord argument.word ++ extended.drop (start + wordSize)

namespace Buffer

theorem ensure_eq_ok {buffer after : Buffer} {length : Nat} (h : ensure length buffer = .ok () after) :
    after.contents = buffer.contents ++ Array.replicate (length - buffer.size) 0 := by
  unfold ensure at h
  split at h
  · rename_i hfits
    cases h
    rw [Nat.sub_eq_zero_of_le hfits, Array.replicate_zero, Array.append_empty]
  · split at h
    · cases h
    · cases h
      rw [contents_append]

theorem write_eq_ok {buffer after : Buffer} {offset : Nat} {word : UInt64}
    (h : write offset word buffer = .ok () after) :
    after.contents = Bytes.overwrite buffer.contents offset (bytesOfWord word) ∧
      offset + wordSize ≤ buffer.size := by
  unfold write at h
  by_cases hfits : buffer.size < offset + wordSize
  · rw [if_pos hfits] at h
    cases h
  · rw [if_neg hfits] at h
    have hafter := (EStateM.Result.ok.inj h).2
    refine ⟨?_, Nat.not_lt.mp hfits⟩
    rw [← hafter]

theorem place_eq_ok {buffer after : Buffer} {offset : UInt16} {word : UInt64}
    (h : place offset.toNat word buffer = .ok () after) :
    after.contents.toList = Argument.overwrite buffer.contents.toList ⟨offset, word⟩ := by
  obtain ⟨_, middle, hensure, hwrite⟩ := exists_of_bind_eq_ok h
  have hextended := ensure_eq_ok hensure
  obtain ⟨hwritten, hfits⟩ := write_eq_ok hwrite
  have hinside : offset.toNat + (bytesOfWord word).length ≤ middle.contents.size := by
    rw [length_bytesOfWord]
    exact hfits
  rw [hwritten, Bytes.overwrite_toList _ _ _ hinside, length_bytesOfWord, hextended]
  simp [Argument.overwrite, size, wordSize]

theorem pop_eq_ok {buffer after : Buffer} {word : UInt64} (h : pop buffer = .ok word after) :
    word = wordOfBytes (Bytes.suffix buffer.contents wordSize).toList := by
  obtain ⟨found, middle, hpeek, hrest⟩ := exists_of_bind_eq_ok h
  obtain ⟨_, _, -, hpure⟩ := exists_of_bind_eq_ok hrest
  cases hpure
  obtain ⟨bytes, same, htop, hword⟩ := exists_of_bind_eq_ok hpeek
  cases hword
  rw [(top_eq_ok htop).2]

end Buffer

/-! ## Steps -/

/-- The frame runs for the same method in the same context. -/
structure Frame.SameCall (before after : Frame) : Prop where
  context : after.context = before.context
  app : after.app = before.app
  method : after.method = before.method

theorem Frame.SameCall.trans {first second third : Frame} (hfirst : first.SameCall second)
    (hsecond : second.SameCall third) : first.SameCall third :=
  ⟨hsecond.context.trans hfirst.context, hsecond.app.trans hfirst.app,
    hsecond.method.trans hfirst.method⟩

/-- The frame has not run yet, and its local frame holds these bytes. -/
structure Frame.Begins (bytes : Bytes) (frame : Frame) : Prop where
  pc : frame.pc = 0
  stack : frame.stack.contents = #[]
  locals : frame.locals.contents = bytes

theorem Frame.Works.sameCall {code : Option Bytes} {frame after : Frame} {arguments passed : Buffer}
    {opcode : Opcode} (h : frame.Works code arguments opcode after passed) : frame.SameCall after := by
  cases h <;> exact ⟨rfl, rfl, rfl⟩

/-- Whether an instruction of this role hands control to another frame, or the arguments to a new
one. -/
def Opcode.Role.transfers : Opcode.Role → Bool
  | .work | .enter => false
  | .call | .callIndependent | .spawn | .ret _ | .throw => true

namespace Machine

variable {H : Type} [Heap H] {m : Machine H}

/-- The next step calls, spawns, returns or throws.  A step that fails throws. -/
def Transfers (m : Machine H) : Prop :=
  m.fault? ≠ none ∨ m.role?.any Opcode.Role.transfers = true

/-- The argument that the next step passes, if it passes one and completes: the word on top of the
stack, at the offset that stands behind the opcode. -/
def argument? (m : Machine H) : Option Argument :=
  match m.fault?, m.opcode?, m.lane with
  | none, some .argC16, top :: _ =>
    (m.methods.selected?.bind (Bytes.half? · (top.pc + 1))).map fun offset =>
      ⟨offset, wordOfBytes (Bytes.suffix top.stack.contents wordSize).toList⟩
  | _, _, _ => none

/-- After an unwind the frame that runs next, if there is one, starts with fresh arguments. -/
theorem arguments_unwound (m : Machine H) (dropped kept : Lane) (count : Nat) (status : Status)
    (h : (m.unwound dropped kept count status).lane ≠ []) :
    (m.unwound dropped kept count status).arguments = freshArguments m.limits := by
  cases m.onward status kept with
  | caller caller rest => rw [unwound_caller]
  | next hstatus hwaiting => rw [unwound_next m dropped count hstatus hwaiting]
  | last hends =>
    rw [unwound_last m dropped count hends] at h
    exact absurd rfl h

/-- A step that transfers control leaves fresh arguments. -/
theorem arguments_of_transfers (hbounded : m.Bounded) (h : m.Transfers) (hne : m.step.2.lane ≠ []) :
    m.step.2.arguments = freshArguments m.limits := by
  cases hfault : m.fault? with
  | some fault =>
    obtain ⟨left, hrun⟩ := (m.fault?_eq_some_iff fault).mp hfault
    have hlimits := (evolves_of_fault hrun).limits
    rw [step_of_fault hbounded hrun] at hne ⊢
    rw [arguments_unwound _ _ _ _ _ hne, ← hlimits]
    rfl
  | none =>
    have hany : m.role?.any Opcode.Role.transfers = true := h.resolve_left (absurd hfault)
    have hlane : m.lane ≠ [] := by
      obtain ⟨role, hrole, -⟩ := (Option.any_eq_true _ _).mp hany
      exact lane_ne_nil_of_role? hrole
    obtain ⟨role, top, rest, worked, hrole, hworked, hdoes⟩ := exists_does hfault hlane
    rw [hrole, Option.any_some] at hany
    rw [← hworked.limits]
    generalize m.step.2 = after at hdoes hne
    cases hdoes with
    | work hwork => cases hany
    | enter hfree => cases hany
    | call hpop context app method => rfl
    | callIndependent hpop context app method => rfl
    | spawn hpop => rfl
    | ret hfits => exact arguments_unwound worked _ _ _ _ hne
    | throw hsize hfits => exact arguments_unwound worked _ _ _ _ hne

/-- The step stays in the running frame and adds to the arguments what it passes. -/
structure Settles (m : Machine H) (top : Frame) (rest : Lane) (after : Machine H) : Prop where
  lane : ∃ frame, after.lane = frame :: rest ∧ top.SameCall frame
  arguments : after.arguments.contents.toList =
    m.argument?.toList.foldl Argument.overwrite m.arguments.contents.toList

theorem argument?_eq_none {opcode : Opcode} (hopcode : m.opcode? = some opcode)
    (h : opcode ≠ .argC16) : m.argument? = none := by
  unfold argument?
  split
  · rename_i hpasses _
    rw [hopcode, Option.some.injEq] at hpasses
    exact absurd hpasses h
  · rfl

/-- Of the instructions that stay in their frame, one writes into the arguments. -/
theorem settles_of_works {opcode : Opcode} (hfault : m.fault? = none)
    (hopcode : m.opcode? = some opcode) (hrole : opcode.role = .work) {top : Frame} {rest : Lane}
    (hlane : m.lane = top :: rest) : m.Settles top rest m.step.2 := by
  obtain ⟨top', rest', frame, arguments, methods, hbefore, -, hworks, hstep⟩ :=
    exists_works hfault hopcode hrole
  obtain ⟨rfl, rfl⟩ := List.cons.inj (hlane.symm.trans hbefore)
  have hsame := hworks.sameCall
  rw [hstep]
  refine ⟨⟨frame, rfl, hsame.context, hsame.app, hsame.method⟩, ?_⟩
  cases hworks with
  | @argC16 offset word stack passed hoffset hpop hplace =>
    have hargument : m.argument? = some ⟨offset, word⟩ := by
      simp only [argument?, hfault, hopcode, hlane, hoffset, Option.map_some,
        Buffer.pop_eq_ok hpop]
    rw [hargument]
    exact Buffer.place_eq_ok hplace
  | _ =>
    rw [argument?_eq_none hopcode Opcode.noConfusion]
    rfl

theorem settles_of_not_transfers (h : ¬ m.Transfers) {top : Frame} {rest : Lane}
    (hlane : m.lane = top :: rest) : m.Settles top rest m.step.2 := by
  obtain ⟨hfault, hstays⟩ := not_or.mp h
  rw [Decidable.not_not] at hfault
  have hne : m.lane ≠ [] := hlane ▸ List.cons_ne_nil top rest
  obtain ⟨opcode, hopcode⟩ := exists_opcode_of_fault?_eq_none hfault hne
  rw [role?, hopcode, Option.map_some, Option.any_some] at hstays
  cases hrole : opcode.role with
  | work => exact settles_of_works hfault hopcode hrole hlane
  | enter =>
    obtain ⟨top', rest', methods, hbefore, -, hexecute⟩ := exists_executed hfault hopcode
    obtain ⟨rfl, rfl⟩ := List.cons.inj (hlane.symm.trans hbefore)
    have hdoes := does_of_execute rfl hexecute
    have hnone : m.argument? = none := by
      refine argument?_eq_none hopcode ?_
      rintro rfl
      cases hrole
    rw [hrole] at hdoes
    generalize m.step.2 = after at hdoes
    cases hdoes with
    | enter hfree =>
      refine ⟨⟨_, rfl, rfl, rfl, rfl⟩, ?_⟩
      rw [hnone]
      rfl
  | call | callIndependent | spawn | ret | throw =>
    rw [hrole] at hstays
    exact absurd rfl hstays

/-- A call that completes hands its arguments to the callee. -/
theorem Calls.exists_begins (h : m.Calls) :
    ∃ callee caller, m.step.2.lane = callee :: caller :: m.lane.tail ∧
      callee.Begins m.arguments.contents := by
  obtain ⟨hfault, hcalls⟩ := h
  have hne : m.lane ≠ [] := hcalls.elim lane_ne_nil_of_role? lane_ne_nil_of_role?
  obtain ⟨role, top, rest, worked, hrole, hworked, hdoes⟩ := exists_does hfault hne
  rw [hrole] at hcalls
  rw [hworked.before, List.tail_cons, ← hworked.arguments]
  generalize m.step.2 = after at hdoes
  cases hdoes with
  | call hpop context app method => exact ⟨_, _, rfl, rfl, rfl, rfl⟩
  | callIndependent hpop context app method => exact ⟨_, _, rfl, rfl, rfl, rfl⟩
  | work | enter | spawn | ret | throw => simp at hcalls

/-- A spawn that completes hands its arguments to the frame that it queues. -/
theorem begins_of_spawnedFrame? {frame : Frame} (h : m.spawnedFrame? = some frame) :
    frame.Begins m.arguments.contents := by
  obtain ⟨app, rfl⟩ := spawnedFrame?_eq_some h
  exact ⟨rfl, rfl, rfl⟩

end Machine

/-! ## Runs -/

namespace Session

variable {H : Type} [Heap H] (session : Session H)

/-- Control was transferred last by the step that led to state `k`, or not since the session was set up
in state `k`, and not since then up to state `n`. -/
structure InCharge (k n : Nat) : Prop where
  le : k ≤ n
  begins : k = 0 ∨ ∃ j, k = j + 1 ∧ (session.state j).Transfers
  stays : ∀ j, k ≤ j → j < n → ¬ (session.state j).Transfers

/-- The arguments passed by the steps from state `k` to state `n`, in order. -/
def passed (k n : Nat) : List Argument :=
  (List.range' k (n - k)).filterMap fun j => (session.state j).argument?

theorem passed_self (k : Nat) : session.passed k k = [] := by
  rw [passed, Nat.sub_self]
  rfl

theorem passed_succ {k n : Nat} (h : k ≤ n) :
    session.passed k (n + 1) = session.passed k n ++ (session.state n).argument?.toList := by
  have hlast : k + (n - k) = n := Nat.add_sub_cancel' h
  rw [passed, Nat.succ_sub h, List.range'_1_concat, List.filterMap_append, hlast, passed]
  cases hargument : (session.state n).argument? with
  | none => simp [hargument]
  | some argument => simp [hargument]

/-- The local frame of a callee that is passed nothing. -/
def blank : List UInt8 :=
  List.replicate (min session.limits.initialLocalFrame.toNat session.limits.maxLocalFrame.toNat) 0

/-- From state `k` on up to state `n` it was this frame that ran, on top of the same frames. -/
def RunsAlone (k n : Nat) (top : Frame) (rest : Lane) : Prop :=
  ∀ j, k ≤ j → j ≤ n → ∃ frame, (session.state j).lane = frame :: rest ∧ frame.SameCall top

/-- Control was transferred last before state `k`, and the arguments in state `n` are what the frame that
runs since then has passed. -/
structure ArgumentsFrom (k n : Nat) : Prop where
  inCharge : session.InCharge k n
  arguments : (session.state n).arguments.contents.toList =
    (session.passed k n).foldl Argument.overwrite session.blank
  alone : ∃ top rest, (session.state n).lane = top :: rest ∧ session.RunsAlone k n top rest

variable {session}

/-- Where control was just transferred, nothing has been passed yet. -/
theorem argumentsFrom_self {n : Nat} (hbegins : n = 0 ∨ ∃ j, n = j + 1 ∧ (session.state j).Transfers)
    (hfresh : (session.state n).arguments = Machine.freshArguments session.limits)
    (hne : (session.state n).lane ≠ []) : session.ArgumentsFrom n n := by
  obtain ⟨top, rest, hlane⟩ := List.exists_cons_of_ne_nil hne
  refine ⟨⟨Nat.le_refl n, hbegins, fun j hle hlt => absurd hle (Nat.not_le.mpr hlt)⟩, ?_,
    top, rest, hlane, ?_⟩
  · rw [passed_self, hfresh]
    exact Array.toList_replicate
  · intro j hle hge
    obtain rfl := Nat.le_antisymm hge hle
    exact ⟨top, hlane, rfl, rfl, rfl⟩

theorem ArgumentsFrom.succ {k n : Nat} (h : session.ArgumentsFrom k n) (hstays : ¬ (session.state n).Transfers) :
    session.ArgumentsFrom k (n + 1) := by
  obtain ⟨⟨hle, hbegins, hearlier⟩, harguments, top, rest, hlane, halone⟩ := h
  have hsettles := Machine.settles_of_not_transfers hstays hlane
  rw [← state_succ] at hsettles
  obtain ⟨⟨frame, hafter, hsame⟩, hpassed⟩ := hsettles
  refine ⟨⟨Nat.le_succ_of_le hle, hbegins, ?_⟩, ?_, frame, rest, hafter, ?_⟩
  · intro j hlow hhigh
    rcases Nat.lt_succ_iff_lt_or_eq.mp hhigh with hlt | rfl
    · exact hearlier j hlow hlt
    · exact hstays
  · rw [passed_succ _ hle, List.foldl_append, ← harguments]
    exact hpassed
  · intro j hlow hhigh
    rcases Nat.le_succ_iff.mp hhigh with hle | rfl
    · obtain ⟨earlier, hearlier, hbefore⟩ := halone j hlow hle
      exact ⟨earlier, hearlier, hbefore.trans hsame⟩
    · exact ⟨frame, hafter, rfl, rfl, rfl⟩

variable (session)

theorem exists_argumentsFrom (n : Nat) (hne : (session.state n).lane ≠ []) :
    ∃ k, session.ArgumentsFrom k n := by
  induction n with
  | zero =>
    refine ⟨0, argumentsFrom_self (.inl rfl) ?_ hne⟩
    obtain ⟨buffer, -, -, hfirst⟩ := session.exists_first_eq
    rw [state_zero, hfirst]
    rfl
  | succ n ih =>
    by_cases htransfers : (session.state n).Transfers
    · refine ⟨n + 1, argumentsFrom_self (.inr ⟨n, rfl, htransfers⟩) ?_ hne⟩
      rw [state_succ] at hne ⊢
      rw [Machine.arguments_of_transfers (session.bounded_state n) htransfers hne,
        (session.fixed_state n).1]
    · have hbefore : (session.state n).lane ≠ [] := by
        intro hnil
        rw [state_succ, Machine.step_of_complete _ hnil] at hne
        exact hne hnil
      obtain ⟨k, hfrom⟩ := ih hbefore
      exact ⟨k, hfrom.succ htransfers⟩

theorem exists_begins_first :
    ∃ frame, session.first.lane = [frame] ∧ frame.Begins session.arguments := by
  obtain ⟨buffer, hbuffer, -, hfirst⟩ := session.exists_first_eq
  rw [hfirst]
  exact ⟨_, rfl, rfl, rfl, Buffer.contents_of_ofBytes hbuffer⟩

/-- A lane starts as a frame that was spawned, with the arguments of that spawn. -/
theorem exists_begins_of_startsLane {n : Nat} (h : (session.state n).StartsLane) :
    ∃ k < n, ∃ frame, (session.state (n + 1)).lane = [frame] ∧
      (session.state k).spawnedFrame? = some frame ∧
      frame.Begins (session.state k).arguments.contents := by
  obtain ⟨next, hwaiting, hlane⟩ := (session.startsLane_state_iff n).mp h
  have hmem : next ∈ (session.state n).waiting := by
    rw [hwaiting]
    exact List.mem_cons_self
  obtain ⟨k, hlt, hspawned⟩ := session.waiting_spawned hmem
  exact ⟨k, hlt, next, hlane, hspawned, Machine.begins_of_spawnedFrame? hspawned⟩

theorem waiting_of_spawnedFrame? {n : Nat} {frame : Frame}
    (h : (session.state n).spawnedFrame? = some frame) :
    (session.state (n + 1)).waiting = (session.state n).waiting ++ [frame] := by
  have hne : (session.state n).lane ≠ [] := by
    intro hnil
    simp [Machine.spawnedFrame?, hnil] at h
  rw [state_succ]
  cases session.turn_state hne with
  | stays hspawned =>
    rw [hspawned] at h
    cases h
  | spawns hspawned hlane hwaiting =>
    rw [hspawned] at h
    cases h
    exact hwaiting
  | ends hspawned =>
    rw [hspawned] at h
    cases h

/-- As long as a session runs, the arguments of the next call are what the running frame has passed since
control was transferred last.  A frame that is called or spawned begins with exactly these bytes, and the
first frame with the arguments of the session. -/
theorem arguments_passed (n : Nat) :
    (∃ frame, session.first.lane = [frame] ∧ frame.Begins session.arguments) ∧
      ((session.state n).lane ≠ [] → ∃ k, session.ArgumentsFrom k n) ∧
      ((session.state n).Calls → ∃ callee caller,
        (session.state (n + 1)).lane = callee :: caller :: (session.state n).lane.tail ∧
          callee.Begins (session.state n).arguments.contents) ∧
      (∀ frame, (session.state n).spawnedFrame? = some frame →
        (session.state (n + 1)).waiting = (session.state n).waiting ++ [frame] ∧
          frame.Begins (session.state n).arguments.contents) ∧
      ((session.state n).StartsLane → ∃ k < n, ∃ frame, (session.state (n + 1)).lane = [frame] ∧
        (session.state k).spawnedFrame? = some frame ∧
          frame.Begins (session.state k).arguments.contents) := by
  refine ⟨session.exists_begins_first, session.exists_argumentsFrom n, ?_, ?_,
    session.exists_begins_of_startsLane⟩
  · intro hcalls
    rw [state_succ]
    exact hcalls.exists_begins
  · intro frame hspawned
    exact ⟨session.waiting_of_spawnedFrame? hspawned, Machine.begins_of_spawnedFrame? hspawned⟩

end Session

end LaneMachine
