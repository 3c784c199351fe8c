import LaneMachine.Proofs.Selection
import LaneMachine.Proofs.Work
import Mathlib.Algebra.Group.Nat.Defs
set_option autoImplicit false

/-!
# Sessions that end

Methods may call each other as they like and catch each other's throws, and still a session
ends, unless it jumps back or spawns again and again.  The reason is a number that every other
step makes smaller (`Machine.weight_step_lt`).

A frame counts with the code that it has still before it, and the further down in its lane it
is, the more it counts: one byte of code in a frame is worth more than all the code that a frame
above it can run.  So a call costs the caller more than the callee brings in, a return or a throw
takes frames off and moves no counter below them, and a lane that starts is worth less than the
place in the queue that it gives up.  How deep a lane may grow is limited, and so is the number
of bytes in a method; from these two comes a bound on the number of steps
(`Session.endless_only_by_jumps_and_spawns`).
-/

namespace LaneMachine

/-! ## The longest method -/

/-- The largest size of a value in the table. -/
def Table.largest {α : Type} (size : α → Nat) (table : Table α) : Nat :=
  table.entries.foldr (fun entry most => max (size entry.2) most) 0

theorem Table.le_largest {α : Type} (size : α → Nat) {table : Table α} {key : Identifier} {value : α}
    (h : table.get? key = some value) : size value ≤ table.largest size := by
  obtain ⟨entries⟩ := table
  induction entries with
  | nil => cases h
  | cons entry rest ih =>
    simp only [get?, find] at h
    split at h
    · cases h
      exact Nat.le_max_left _ _
    · exact Nat.le_trans (ih h) (Nat.le_max_right _ _)

/-- The size of the longest chunk. -/
def Chunks.longest (chunks : Chunks) : Nat :=
  Table.largest (Table.largest Array.size) chunks

theorem Chunks.size_le_longest {chunks : Chunks} {root child : Identifier} {bytes : Bytes}
    (h : chunks.get? root child = some bytes) : bytes.size ≤ chunks.longest := by
  obtain ⟨children, hchildren, hbytes⟩ := Option.bind_eq_some_iff.mp h
  exact Nat.le_trans (Table.le_largest Array.size hbytes) (Table.le_largest _ hchildren)

theorem Store.size_le_longest {store : Store} {bytes : Bytes} (h : store.selected? = some bytes) :
    bytes.size ≤ store.chunks.longest := by
  unfold selected? at h
  split at h
  · exact Chunks.size_le_longest h
  · cases h

/-! ## The weight of a lane -/

namespace Lane

variable {length limit : Nat}

/-- What is left to run in a lane that may have `limit` frames, if no code is longer than `length`.  One
byte of a frame's code counts for more than all that can ever stand above the frame. -/
def weight (length limit : Nat) : Lane → Nat
  | [] => 0
  | top :: rest =>
    (length - top.pc + 1) * (length + 2) ^ (limit - (rest.length + 1)) + weight length limit rest

theorem pow_room {count : Nat} (h : count + 1 ≤ limit) :
    (length + 2) ^ (limit - count) = (length + 2) * (length + 2) ^ (limit - (count + 1)) := by
  have hroom : limit - count = (limit - (count + 1)) + 1 := by omega
  rw [hroom, Nat.pow_succ, Nat.mul_comm]

/-- The weight of a lane and of all that it has room for. -/
theorem weight_add_le (length : Nat) {lane : Lane} (h : lane.length ≤ limit) :
    lane.weight length limit + (length + 2) ^ (limit - lane.length) ≤ (length + 2) ^ limit := by
  induction lane with
  | nil => simp [weight]
  | cons top rest ih =>
    rw [List.length_cons] at h ⊢
    have hrest := ih (Nat.le_of_succ_le h)
    have hframe : (length - top.pc + 1 + 1) * (length + 2) ^ (limit - (rest.length + 1)) ≤
        (length + 2) ^ (limit - rest.length) := by
      rw [pow_room h]
      exact Nat.mul_le_mul_right _ (by omega)
    calc
      weight length limit (top :: rest) + (length + 2) ^ (limit - (rest.length + 1))
        = (length - top.pc + 1 + 1) * (length + 2) ^ (limit - (rest.length + 1)) +
            weight length limit rest := by
          rw [weight, Nat.succ_mul (length - top.pc + 1), Nat.add_right_comm]
      _ ≤ (length + 2) ^ (limit - rest.length) + weight length limit rest :=
          Nat.add_le_add_right hframe _
      _ ≤ (length + 2) ^ limit := Nat.add_comm _ _ ▸ hrest

theorem weight_lt (length : Nat) {lane : Lane} (h : lane.length ≤ limit) :
    lane.weight length limit < (length + 2) ^ limit := by
  have hall := weight_add_le length h
  have hpos : 0 < (length + 2) ^ (limit - lane.length) := Nat.pow_pos (Nat.succ_pos _)
  omega

/-- Dropping frames makes a lane lighter. -/
theorem weight_lt_append {dropped : Lane} (h : dropped ≠ []) (kept : Lane) :
    kept.weight length limit < Lane.weight length limit (dropped ++ kept) := by
  induction dropped with
  | nil => exact absurd rfl h
  | cons top rest ih =>
    have hpos : 0 < (length - top.pc + 1) * (length + 2) ^ (limit - ((rest ++ kept).length + 1)) :=
      Nat.mul_pos (Nat.succ_pos _) (Nat.pow_pos (Nat.succ_pos _))
    rw [List.cons_append, weight]
    cases rest with
    | nil =>
      rw [List.nil_append] at hpos ⊢
      omega
    | cons below rest =>
      have hrest := ih (List.cons_ne_nil below rest)
      omega

/-- A frame that moves on in its code makes its lane lighter. -/
theorem weight_cons_lt {top frame : Frame} (rest : Lane) (hcode : top.pc < length)
    (hpc : top.pc < frame.pc) :
    Lane.weight length limit (frame :: rest) < Lane.weight length limit (top :: rest) := by
  have hless : length - frame.pc + 1 < length - top.pc + 1 := by omega
  have hpos : 0 < (length + 2) ^ (limit - (rest.length + 1)) := Nat.pow_pos (Nat.succ_pos _)
  exact Nat.add_lt_add_right (Nat.mul_lt_mul_of_pos_right hless hpos) _

/-- A callee weighs less than one byte of its caller's code. -/
theorem weight_call_lt {top caller callee : Frame} {rest : Lane} (hroom : rest.length + 2 ≤ limit)
    (hcode : top.pc < length) (hpc : caller.pc = top.pc + 1) :
    Lane.weight length limit (callee :: caller :: rest) < Lane.weight length limit (top :: rest) := by
  have hbyte : length - top.pc + 1 = (length - caller.pc + 1) + 1 := by omega
  have hcallee : (length - callee.pc + 1) * (length + 2) ^ (limit - (rest.length + 1 + 1)) <
      (length + 2) ^ (limit - (rest.length + 1)) := by
    rw [pow_room hroom]
    exact Nat.mul_lt_mul_of_pos_right (by omega) (Nat.pow_pos (Nat.succ_pos _))
  calc
    weight length limit (callee :: caller :: rest)
      < (length + 2) ^ (limit - (rest.length + 1)) + weight length limit (caller :: rest) :=
        Nat.add_lt_add_right hcallee _
    _ = weight length limit (top :: rest) := by
        rw [weight, weight, hbyte, Nat.succ_mul (length - caller.pc + 1), Nat.add_comm, Nat.add_right_comm]

/-- Work in the running frame does not change what is below it. -/
theorem Evolves.exists_append {before dropped kept : Lane} (h : Evolves before (dropped ++ kept))
    (hne : dropped ≠ []) : ∃ gone, gone ≠ [] ∧ before = gone ++ kept := by
  obtain ⟨top, more, rfl⟩ := List.exists_cons_of_ne_nil hne
  rw [List.cons_append] at h
  cases h with
  | @cons first _ _ hframe => exact ⟨first :: more, List.cons_ne_nil first more, rfl⟩

end Lane

/-! ## Steps -/

/-- Only a jump moves the counter back. -/
theorem Frame.Works.pc_le {code : Option Bytes} {frame after : Frame} {arguments passed : Buffer}
    {opcode : Opcode} (h : frame.Works code arguments opcode after passed) (hjump : opcode ≠ .jmpEqC16) :
    frame.pc ≤ after.pc := by
  cases h with
  | noOp => exact Nat.le_refl _
  | pushC64 => exact Nat.le_add_right _ _
  | pop => exact Nat.le_refl _
  | iAdd => exact Nat.le_refl _
  | iSub => exact Nat.le_refl _
  | argC16 => exact Nat.le_add_right _ _
  | lfLoadC16 => exact Nat.le_add_right _ _
  | lfStoreC16 => exact Nat.le_add_right _ _
  | jumps => exact absurd rfl hjump
  | passes => exact absurd rfl hjump

namespace Machine

variable {H : Type} [Heap H] {m : Machine H}

/-- The next step is a jump that completes and leads to where its own opcode stands or further back. -/
def JumpsBack (m : Machine H) : Prop :=
  m.fault? = none ∧ m.opcode? = some .jmpEqC16 ∧
    ∃ top rest frame, m.lane = top :: rest ∧ m.step.2.lane = frame :: rest ∧ frame.pc ≤ top.pc

/-- What is left to run: the running lane, and for each lane that waits as much as a lane can hold. -/
def weight (m : Machine H) : Nat :=
  m.waiting.length * (m.methods.chunks.longest + 2) ^ m.limits.maxCallStackDepth.toNat +
    m.lane.weight m.methods.chunks.longest m.limits.maxCallStackDepth.toNat

omit [Heap H] in
/-- Where an opcode is read, there is code. -/
theorem pc_lt_longest {top : Frame} {rest : Lane} (hlane : m.lane = top :: rest) {opcode : Opcode}
    (hopcode : m.opcode? = some opcode) : top.pc < m.methods.chunks.longest := by
  obtain ⟨byte, hbyte, -⟩ := Option.bind_eq_some_iff.mp hopcode
  rw [byte?_eq hlane] at hbyte
  obtain ⟨code, hcode, hbyte⟩ := Option.bind_eq_some_iff.mp hbyte
  obtain ⟨hlt, -⟩ := Array.getElem?_eq_some_iff.mp hbyte
  exact Nat.lt_of_lt_of_le hlt (Store.size_le_longest hcode)

omit [Heap H] in
/-- Weights may be compared lane by lane if only the running lane changes. -/
theorem weight_lt_of_lane {after : Machine H} (hlimits : after.limits = m.limits)
    (hchunks : after.methods.chunks = m.methods.chunks) (hwaiting : after.waiting = m.waiting)
    (hlane : after.lane.weight m.methods.chunks.longest m.limits.maxCallStackDepth.toNat <
      m.lane.weight m.methods.chunks.longest m.limits.maxCallStackDepth.toNat) :
    after.weight < m.weight := by
  rw [weight, weight, hlimits, hchunks, hwaiting]
  exact Nat.add_lt_add_left hlane _

/-- A return or a throw makes the machine lighter, wherever it goes on. -/
theorem weight_unwound_lt {worked : Machine H} (hbounded : m.Bounded) (hwork : m.Evolves worked)
    {dropped kept : Lane} {status : Status} (hcut : worked.lane.Cut dropped kept status) (count : Nat) :
    (worked.unwound dropped kept count status).weight < m.weight := by
  have hlane := hwork.lane
  rw [← hcut.append_eq] at hlane
  obtain ⟨gone, hgone, hbefore⟩ := hlane.exists_append hcut.ne_nil
  have hlighter : kept.weight m.methods.chunks.longest m.limits.maxCallStackDepth.toNat <
      m.lane.weight m.methods.chunks.longest m.limits.maxCallStackDepth.toNat := by
    rw [hbefore]
    exact Lane.weight_lt_append hgone kept
  cases worked.onward status kept with
  | caller caller rest =>
    rw [unwound_caller]
    exact weight_lt_of_lane hwork.limits hwork.methods.chunks.symm hwork.waiting hlighter
  | @next hstatus next waiting hwaiting =>
    -- the lane that starts weighs less than its place in the queue
    have hdepth : [next].length ≤ m.limits.maxCallStackDepth.toNat := by
      have hdepth := hbounded.depth
      have hpos := List.length_pos_iff.mpr hgone
      rw [depth, hbefore, List.append_nil] at hdepth
      exact Nat.le_trans hpos hdepth
    have hstarted := Lane.weight_lt m.methods.chunks.longest hdepth
    have hqueue : m.waiting.length = waiting.length + 1 := by
      rw [← hwork.waiting, hwaiting, List.length_cons]
    rw [unwound_next worked dropped count hstatus hwaiting, weight, weight, hqueue, Nat.succ_mul]
    dsimp only [Store.selectRoot, Store.selectChild, Store.record]
    rw [hwork.limits, ← hwork.methods.chunks]
    omega
  | last hends =>
    rw [unwound_last worked dropped count hends, weight, weight]
    dsimp only [Lane.weight, List.length_nil] at hlighter ⊢
    omega

/-- A frame that works without jumping back makes the machine lighter. -/
theorem weight_work_lt {opcode : Opcode} (hfault : m.fault? = none) (hopcode : m.opcode? = some opcode)
    (hrole : opcode.role = .work) (hjump : ¬ m.JumpsBack) : m.step.2.weight < m.weight := by
  obtain ⟨top, rest, frame, arguments, methods, hlane, hmethods, hworks, hstep⟩ :=
    exists_works hfault hopcode hrole
  have hpc : top.pc < frame.pc := by
    by_cases hsame : opcode = .jmpEqC16
    · subst hsame
      refine Nat.lt_of_not_le fun hback => hjump ?_
      exact ⟨hfault, hopcode, top, rest, frame, hlane, by rw [hstep], hback⟩
    · exact hworks.pc_le hsame
  rw [hstep]
  refine weight_lt_of_lane rfl hmethods.chunks.symm rfl ?_
  rw [hlane]
  exact Lane.weight_cons_lt rest (pc_lt_longest hlane hopcode) hpc

theorem spawnedFrame?_ne_none (hfault : m.fault? = none) (hrole : m.role? = some .spawn) :
    m.spawnedFrame? ≠ none := by
  obtain ⟨role, top, rest, worked, hsame, hworked, hdoes⟩ :=
    exists_does hfault (lane_ne_nil_of_role? hrole)
  rw [hrole, Option.some.injEq] at hsame
  subst hsame
  generalize m.step.2 = after at hdoes
  cases hdoes with
  | spawn hpop =>
    simp only [spawnedFrame?, hfault, hrole, hworked.before, hpop]
    exact Option.some_ne_none _

/-- Every step makes the machine lighter, unless it jumps back or spawns. -/
theorem weight_step_lt (hbounded : m.Bounded) (hne : m.lane ≠ []) (hjump : ¬ m.JumpsBack)
    (hspawn : m.spawnedFrame? = none) : m.step.2.weight < m.weight := by
  cases hfault : m.fault? with
  | some fault =>
    obtain ⟨left, hrun⟩ := (m.fault?_eq_some_iff fault).mp hfault
    have hwork := evolves_of_fault hrun
    rw [step_of_fault hbounded hrun]
    exact weight_unwound_lt hbounded (hwork.trans (evolves_emit left _))
      (.byThrow (hwork.lane_ne_nil hne) fault.status) 0
  | none =>
    obtain ⟨opcode, hopcode⟩ := exists_opcode_of_fault?_eq_none hfault hne
    obtain ⟨top, rest, methods, hlane, hmethods, hexecute⟩ := exists_executed hfault hopcode
    have hdoes := does_of_execute rfl hexecute
    have hdecoded := decoded_announced hlane hmethods opcode
    have hcode := pc_lt_longest hlane hopcode
    -- a call that completes has kept the limit on depth, so the callee has its place in the weight
    have hafter := bounded_step hbounded
    generalize hrole : opcode.role = role at hdoes
    generalize hstep : m.step.2 = after at hdoes hafter
    cases hdoes with
    | work hwork =>
      rw [← hstep]
      exact weight_work_lt hfault hopcode hrole hjump
    | enter hfree =>
      refine weight_lt_of_lane rfl hmethods.chunks.symm rfl ?_
      rw [hlane]
      exact Lane.weight_cons_lt rest hcode (Nat.lt_succ_self top.pc)
    | call hpop context app method =>
      refine weight_lt_of_lane rfl hmethods.chunks.symm rfl ?_
      rw [hlane]
      exact Lane.weight_call_lt hafter.depth hcode rfl
    | callIndependent hpop context app method =>
      refine weight_lt_of_lane rfl hmethods.chunks.symm rfl ?_
      rw [hlane]
      exact Lane.weight_call_lt hafter.depth hcode rfl
    | spawn hpop =>
      refine absurd hspawn (spawnedFrame?_ne_none hfault ?_)
      rw [role?, hopcode, Option.map_some, hrole]
    | ret hfits => exact weight_unwound_lt hbounded hdecoded.evolves (.byReturn _ rest) _
    | throw hsize hfits =>
      exact weight_unwound_lt hbounded hdecoded.evolves
        (.byThrow (hdecoded.evolves.lane_ne_nil hne) .softwareError) _

end Machine

/-! ## Sessions -/

namespace Session

variable {H : Type} [Heap H] (session : Session H)

/-- Neither of the two things that can keep a session running happens in the `k` steps from state `n`
on. -/
def Advances (n k : Nat) : Prop :=
  ∀ j < k, ¬ (session.state (n + j)).JumpsBack ∧ (session.state (n + j)).spawnedFrame? = none

variable {session}

/-- Unless the session completes, each step takes something off the weight. -/
theorem weight_add_le {n k : Nat} (h : session.Advances n k) (hne : (session.state (n + k)).lane ≠ []) :
    (session.state (n + k)).weight + k ≤ (session.state n).weight := by
  induction k with
  | zero => exact Nat.le_refl _
  | succ k ih =>
    have hsucc : session.state (n + (k + 1)) = (session.state (n + k)).step.2 := state_succ _ _
    have hbefore : (session.state (n + k)).lane ≠ [] := by
      intro hnil
      rw [hsucc, Machine.step_of_complete _ hnil] at hne
      exact hne hnil
    obtain ⟨hjump, hspawn⟩ := h k (Nat.lt_succ_self k)
    have hearlier := ih (fun j hj => h j (Nat.lt_succ_of_lt hj)) hbefore
    have hstep := Machine.weight_step_lt (session.bounded_state (n + k)) hbefore hjump hspawn
    rw [hsucc]
    omega

variable (session)

/-- How many steps can be left, whatever the code is. -/
def bound (n : Nat) : Nat :=
  ((session.state n).waiting.length + 1) *
    (session.methods.chunks.longest + 2) ^ session.limits.maxCallStackDepth.toNat

theorem weight_lt_bound (n : Nat) : (session.state n).weight < session.bound n := by
  obtain ⟨hlimits, hchunks, -⟩ := session.fixed_state n
  have hdepth := (session.bounded_state n).depth
  rw [Machine.depth, hlimits] at hdepth
  have hlane := Lane.weight_lt session.methods.chunks.longest hdepth
  rw [Machine.weight, bound, hlimits, hchunks, Nat.succ_mul]
  exact Nat.add_lt_add_left hlane _

theorem complete_of_advances {n : Nat} (h : session.Advances n (session.bound n)) :
    (session.state (n + session.bound n)).lane = [] := by
  refine Decidable.byContradiction fun hne => ?_
  have hweight := weight_add_le h hne
  have hbound := session.weight_lt_bound n
  omega

/-- Only jumps back and spawns can keep a session running.  From every machine that a session goes
through there is a number of steps within which it is complete, or has jumped back, or has spawned; so
a session that does neither is complete within that number of steps. -/
theorem endless_only_by_jumps_and_spawns (n : Nat) :
    ((session.state (n + session.bound n)).lane = [] ∨ ∃ k < session.bound n,
      (session.state (n + k)).JumpsBack ∨ (session.state (n + k)).spawnedFrame? ≠ none) ∧
    ((∀ k, ¬ (session.state (n + k)).JumpsBack ∧ (session.state (n + k)).spawnedFrame? = none) →
      (session.state (n + session.bound n)).lane = []) := by
  have hends := session.complete_of_advances (n := n)
  constructor
  · by_cases h : session.Advances n (session.bound n)
    · exact .inl (hends h)
    · right
      obtain ⟨k, hk⟩ := Classical.not_forall.mp h
      obtain ⟨hlt, hbreaks⟩ := Classical.not_imp.mp hk
      refine ⟨k, hlt, ?_⟩
      rw [Classical.not_and_iff_not_or_not, Classical.not_not] at hbreaks
      exact hbreaks
  · intro h
    exact hends fun k _ => h k

end Session

end LaneMachine
