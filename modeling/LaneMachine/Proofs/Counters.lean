import LaneMachine.Proofs.Arguments
import LaneMachine.Proofs.Immediates
import LaneMachine.Proofs.Termination
set_option autoImplicit false

/-!
# Counters stay near the code

A counter is a machine word, and most instructions add to it without a look at the sum.  They can
afford it because of where counters can be.  A frame that has called another one has just read its
opcode, so it stands inside its code or at the end of it.  A frame that waits in the queue has not moved.
Only the running frame can leave its code, by an immediate that it did not read or by a jump, and then
it fails before it moves again.

`Machine.Near` is this invariant.  Its consequence is that no sum of a step exceeds a word, and that
the only jump that fails once its distance is read is one to before the first byte
(`Session.counters_near_code`).
-/

namespace LaneMachine

/-! ## One instruction -/

theorem Bytes.size_of_half? {bytes : Bytes} {offset : Nat} {value : UInt16}
    (h : Bytes.half? bytes offset = some value) : offset + 2 ≤ bytes.size := by
  obtain ⟨part, hslice, -⟩ := Option.map_eq_some_iff.mp h
  refine Nat.not_lt.mp fun hshort => ?_
  rw [(slice?_eq_none_iff bytes offset 2).mpr hshort] at hslice
  cases hslice

theorem Opcode.immediateSize_le (opcode : Opcode) : opcode.immediateSize ≤ wordSize := by
  cases opcode <;> decide

/-- However the counter moves, it does not get far past the end of the code. -/
theorem Frame.Lands.pc_le {code : Bytes} {frame : Frame} {opcode : Opcode} {pc : Nat}
    (h : frame.Lands (some code) opcode pc) (hinside : frame.pc < code.size) :
    pc ≤ code.size + 32767 := by
  cases h with
  | past hpasses =>
    have hshort : opcode.immediateSize ≤ 8 := opcode.immediateSize_le
    omega
  | @jumps distance target hdoubled hdistance htarget =>
    have hread := Bytes.size_of_half? hdistance
    have hfar : distance.toInt16.toInt ≤ 32767 := Int16.toInt_le _
    omega

/-- A jump to before the first byte of the code is refused. -/
theorem Frame.jump_of_neg {frame : Frame} {distance : Int} (h : (frame.pc : Int) + distance < 0) :
    jump distance frame = .error (.signal .invalidReference) frame :=
  if_neg fun hinside => Int.not_le.mpr h hinside.1

namespace Machine

variable {H : Type}

theorem onTop_of_error {α : Type} {m : Machine H} {top frame : Frame} {rest : Lane}
    (hlane : m.lane = top :: rest) {op : Frame.Op α} {fault : Fault}
    (h : op top = .error fault frame) :
    onTop op m = .error fault { m with lane := frame :: rest } := by
  simp only [onTop, hlane, h]

variable [Heap H] {m : Machine H} {top : Frame} {rest : Lane}

theorem fault?_of_works (hlane : m.lane = top :: rest) {opcode : Opcode}
    (hopcode : m.opcode? = some opcode) {frame : Frame} {arguments : Buffer}
    (h : { top with pc := top.pc + 1 }.Works m.methods.selected? m.arguments opcode frame arguments) :
    m.fault? = none := by
  obtain ⟨top', rest', worked, hworked, hrun⟩ := exists_decoded hopcode
  obtain ⟨rfl, rfl⟩ := List.cons.inj (hlane.symm.trans hworked.before)
  rw [← hworked.methods.selected?_eq, ← hworked.arguments] at h
  obtain ⟨methods, -, hexecute⟩ := execute_of_works hworked.lane h
  exact m.fault?_eq_none_iff.mpr ⟨false, _, hrun.trans (bind_of_ok hexecute)⟩

omit [Heap H] in
theorem jumpIfEqual_of_neg (hlane : m.lane = top :: rest) {word : UInt64} {distance : UInt16}
    (hpeek : Buffer.peekTwo top.stack = .ok (word, word) top.stack)
    (hdistance : m.methods.selected?.bind (Bytes.half? · top.pc) = some distance)
    (hneg : (top.pc : Int) + 2 + distance.toInt16.toInt < 0) :
    ∃ left, jumpIfEqual m = .error (.signal .invalidReference) left := by
  obtain ⟨methods, -, hread⟩ := immediateHalf_of_half? top hlane hdistance
  refine ⟨{ m with lane := { top with pc := top.pc + 2 } :: rest, methods }, ?_⟩
  rw [jumpIfEqual, bind_of_ok (onStack_of_look top hlane hpeek)]
  dsimp only
  rw [if_pos rfl, bind_of_ok hread]
  exact onTop_of_error rfl (Frame.jump_of_neg hneg)

/-- A jump that has read its distance fails if it leads to before the first byte, and only then,
provided that the sum is a word. -/
theorem fault?_of_jump (hlane : m.lane = top :: rest) (hopcode : m.opcode? = some .jmpEqC16)
    (hdoubled : top.stack.Doubled) {distance : UInt16}
    (hdistance : m.methods.selected?.bind (Bytes.half? · (top.pc + 1)) = some distance)
    (hword : (top.pc : Int) + 3 + distance.toInt16.toInt < UInt64.size) :
    m.fault? =
      if (top.pc : Int) + 3 + distance.toInt16.toInt < 0 then some (.signal .invalidReference)
      else none := by
  obtain ⟨below, word, hwords⟩ := hdoubled
  have hpeek := Buffer.peekTwo_of_words hwords
  split
  · rename_i hneg
    obtain ⟨top', rest', worked, hworked, hrun⟩ := exists_decoded hopcode
    obtain ⟨rfl, rfl⟩ := List.cons.inj (hlane.symm.trans hworked.before)
    rw [← hworked.methods.selected?_eq] at hdistance
    obtain ⟨left, hjump⟩ := jumpIfEqual_of_neg hworked.lane hpeek hdistance (by
      dsimp only
      omega)
    exact (m.fault?_eq_some_iff _).mpr ⟨left, hrun.trans (bind_of_error hjump)⟩
  · rename_i hinside
    obtain ⟨target, htarget⟩ := Int.eq_ofNat_of_zero_le (Int.not_lt.mp hinside)
    have hworks : { top with pc := top.pc + 1 }.Works m.methods.selected? m.arguments .jmpEqC16
        { top with pc := target } m.arguments := by
      refine .jumps hpeek hdistance ?_ ?_
      · dsimp only
        omega
      · omega
    exact fault?_of_works hlane hopcode hworks

end Machine

/-! ## The invariant -/

/-- How long the code of the frame's method is; zero if there is no such method. -/
def Store.codeSize (store : Store) (frame : Frame) : Nat :=
  ((store.chunk? frame.app frame.method).map Array.size).getD 0

theorem Store.codeSize_eq {store : Store} {frame : Frame} {code : Bytes}
    (h : store.chunk? frame.app frame.method = some code) : store.codeSize frame = code.size := by
  rw [codeSize, h, Option.map_some, Option.getD_some]

theorem Frame.SameCall.codeSize_eq {before after : Frame} (h : before.SameCall after) (store : Store) :
    store.codeSize after = store.codeSize before := by
  rw [Store.codeSize, Store.codeSize, h.app, h.method]

namespace Machine

variable {H : Type}

/-- Where the counters are: that of the running frame not far past the end of its code, that of a frame
with another one above it inside its code or at the end, that of a frame that waits at the start. -/
structure Near (store : Store) (m : Machine H) : Prop where
  running : ∀ frame ∈ m.lane.head?, frame.pc ≤ store.codeSize frame + 32767
  callers : ∀ frame ∈ m.lane.tail, 1 ≤ frame.pc ∧ frame.pc ≤ store.codeSize frame
  waiting : ∀ frame ∈ m.waiting, frame.pc = 0

variable {store : Store} {m : Machine H} {top : Frame} {rest : Lane}

theorem near_of_lane (hlane : m.lane = top :: rest) (hrunning : top.pc ≤ store.codeSize top + 32767)
    (hcallers : ∀ frame ∈ rest, 1 ≤ frame.pc ∧ frame.pc ≤ store.codeSize frame)
    (hwaiting : ∀ frame ∈ m.waiting, frame.pc = 0) : m.Near store := by
  refine ⟨?_, ?_, hwaiting⟩
  · rw [hlane]
    rintro frame ⟨⟩
    exact hrunning
  · rw [hlane]
    exact hcallers

theorem Near.callers_of_lane (h : m.Near store) (hlane : m.lane = top :: rest) :
    ∀ frame ∈ rest, 1 ≤ frame.pc ∧ frame.pc ≤ store.codeSize frame := by
  have hcallers := h.callers
  rw [hlane] at hcallers
  exact hcallers

variable [Heap H]

/-- A frame that an unwind goes on with has called or has waited. -/
theorem Near.unwound {worked : Machine H} (h : m.Near store) (hwork : m.Evolves worked)
    {dropped kept : Lane} {status : Status} (hcut : worked.lane.Cut dropped kept status) (count : Nat) :
    (worked.unwound dropped kept count status).Near store := by
  have hlane := hwork.lane
  rw [← hcut.append_eq] at hlane
  obtain ⟨gone, hgone, hbefore⟩ := hlane.exists_append hcut.ne_nil
  obtain ⟨first, more, rfl⟩ := List.exists_cons_of_ne_nil hgone
  have hkept : ∀ frame ∈ kept, 1 ≤ frame.pc ∧ frame.pc ≤ store.codeSize frame :=
    fun frame hmem => h.callers_of_lane hbefore frame (List.mem_append_right more hmem)
  have hwaiting : ∀ frame ∈ worked.waiting, frame.pc = 0 := hwork.waiting ▸ h.waiting
  cases worked.onward status kept with
  | caller caller below =>
    obtain ⟨-, hinside⟩ := hkept caller List.mem_cons_self
    rw [unwound_caller]
    refine near_of_lane rfl ?_ (fun frame hmem => hkept frame (List.mem_cons_of_mem _ hmem)) hwaiting
    exact Nat.le_trans hinside (Nat.le_add_right _ _)
  | @next hstatus next waiting hqueue =>
    rw [hqueue] at hwaiting
    rw [unwound_next worked dropped count hstatus hqueue]
    refine near_of_lane rfl ?_ nofun fun frame hmem => hwaiting frame (List.mem_cons_of_mem _ hmem)
    rw [hwaiting next List.mem_cons_self]
    exact Nat.zero_le _
  | last hends =>
    rw [unwound_last worked dropped count hends]
    exact ⟨nofun, nofun, nofun⟩

/-- A step keeps the counters near the code, given that the code which is read is that of the running
frame. -/
theorem near_step (hbounded : m.Bounded)
    (hcode : ∀ top rest, m.lane = top :: rest →
      m.methods.selected? = store.chunk? top.app top.method)
    (h : m.Near store) : m.step.2.Near store := by
  by_cases hne : m.lane = []
  · rw [step_of_complete m hne]
    exact h
  cases hfault : m.fault? with
  | some fault =>
    obtain ⟨left, hrun⟩ := (m.fault?_eq_some_iff fault).mp hfault
    have hwork := evolves_of_fault hrun
    rw [step_of_fault hbounded hrun]
    exact h.unwound (hwork.trans (evolves_emit left _))
      (.byThrow (hwork.lane_ne_nil hne) fault.status) 0
  | none =>
    obtain ⟨opcode, hopcode⟩ := exists_opcode_of_fault?_eq_none hfault hne
    obtain ⟨top, rest, methods, hlane, hmethods, hexecute⟩ := exists_executed hfault hopcode
    obtain ⟨code, hselected, hbyte⟩ := exists_code hlane hopcode
    have hsize : store.codeSize top = code.size :=
      Store.codeSize_eq ((hcode top rest hlane).symm.trans hselected)
    have hinside : top.pc < code.size := (Array.getElem?_eq_some_iff.mp hbyte).1
    have hrest := h.callers_of_lane hlane
    have hdecoded := decoded_announced hlane hmethods opcode
    -- the frame once it has moved past its opcode, whatever else was done to it
    have hmoved (frame : Frame) (hsame : top.SameCall frame) (hpc : frame.pc = top.pc + 1) :
        1 ≤ frame.pc ∧ frame.pc ≤ store.codeSize frame := by
      rw [hsame.codeSize_eq, hsize, hpc]
      omega
    have hcallers (frame : Frame) (hsame : top.SameCall frame) (hpc : frame.pc = top.pc + 1) :
        ∀ caller ∈ frame :: rest, 1 ≤ caller.pc ∧ caller.pc ≤ store.codeSize caller := by
      intro caller hmem
      rcases List.mem_cons.mp hmem with rfl | hmem
      · exact hmoved caller hsame hpc
      · exact hrest caller hmem
    have hdoes := does_of_execute rfl hexecute
    generalize hrole : opcode.role = role at hdoes
    generalize hstep : m.step.2 = after at hdoes
    cases hdoes with
    | work hwork =>
      obtain ⟨top', rest', frame, arguments, methods, hlane', -, hworks, hstep'⟩ :=
        exists_works hfault hopcode hrole
      obtain ⟨rfl, rfl⟩ := List.cons.inj (hlane.symm.trans hlane')
      rw [hselected] at hworks
      rw [← hstep, hstep']
      refine near_of_lane rfl ?_ hrest h.waiting
      rw [hworks.sameCall.codeSize_eq]
      exact hsize ▸ hworks.lands.pc_le hinside
    | enter hfree =>
      obtain ⟨-, hpc⟩ := hmoved { top with pc := top.pc + 1, lock := some top.context }
        ⟨rfl, rfl, rfl⟩ rfl
      exact near_of_lane rfl (Nat.le_trans hpc (Nat.le_add_right _ _)) hrest h.waiting
    | call hpop context app method =>
      exact near_of_lane rfl (Nat.zero_le _) (hcallers _ ⟨rfl, rfl, rfl⟩ rfl) h.waiting
    | callIndependent hpop context app method =>
      exact near_of_lane rfl (Nat.zero_le _) (hcallers _ ⟨rfl, rfl, rfl⟩ rfl) h.waiting
    | @spawn word stack hpop =>
      obtain ⟨-, hpc⟩ := hmoved { top with pc := top.pc + 1, stack } ⟨rfl, rfl, rfl⟩ rfl
      refine near_of_lane rfl (Nat.le_trans hpc (Nat.le_add_right _ _)) hrest ?_
      intro frame hmem
      rcases List.mem_append.mp hmem with hmem | hmem
      · exact h.waiting frame hmem
      · rw [List.mem_singleton.mp hmem]
        rfl
    | ret hfits => exact h.unwound hdecoded.evolves (.byReturn _ rest) _
    | throw hsize hfits =>
      exact h.unwound hdecoded.evolves (.byThrow (hdecoded.evolves.lane_ne_nil hne) .softwareError) _

end Machine

namespace Session

variable {H : Type} [Heap H] (session : Session H)

theorem near_state (n : Nat) : (session.state n).Near session.methods := by
  induction n with
  | zero =>
    obtain ⟨buffer, -, -, hfirst⟩ := session.exists_first_eq
    rw [state_zero, hfirst]
    exact Machine.near_of_lane rfl (Nat.zero_le _) nofun nofun
  | succ n ih =>
    rw [state_succ]
    exact Machine.near_step (session.bounded_state n) (fun _ _ => session.selected?_state) ih

/-- In every machine that a session goes through, if no method is as long as half the span of a word:
a frame with another one above it is inside its code or at the end of it, a frame that waits has not
moved, and the running frame is at most 32767 bytes past its code.  So neither the opcode nor an
immediate nor the distance of a jump takes its counter out of a word, and a jump that has read its
distance fails exactly if it leads to before the first byte. -/
theorem counters_near_code
    (hshort : ∀ root child code, session.methods.chunk? root child = some code → code.size < 2 ^ 63)
    {m : Machine H} (hreach : session.Reaches m) :
    (∀ frame ∈ m.lane.tail, 1 ≤ frame.pc ∧ frame.pc ≤ session.methods.codeSize frame) ∧
    (∀ frame ∈ m.waiting, frame.pc = 0) ∧
    (∀ top rest, m.lane = top :: rest →
      top.pc ≤ session.methods.codeSize top + 32767 ∧
      (∀ opcode : Opcode, top.pc + 1 + opcode.immediateSize < UInt64.size) ∧
      (∀ distance : Int16, (top.pc : Int) + 3 + distance.toInt < UInt64.size) ∧
      (m.opcode? = some .jmpEqC16 → top.stack.Doubled → ∀ distance,
        (session.methods.chunk? top.app top.method).bind (Bytes.half? · (top.pc + 1)) = some distance →
        m.fault? =
          if (top.pc : Int) + 3 + distance.toInt16.toInt < 0 then some (.signal .invalidReference)
          else none)) := by
  obtain ⟨n, rfl⟩ := hreach
  have hnear := session.near_state n
  refine ⟨hnear.callers, hnear.waiting, fun top rest hlane => ?_⟩
  have hpc := hnear.running top (by rw [hlane, List.head?_cons, Option.mem_some])
  have hsize : session.methods.codeSize top < 2 ^ 63 := by
    cases hcode : session.methods.chunk? top.app top.method with
    | none =>
      rw [Store.codeSize, hcode]
      decide
    | some code =>
      rw [Store.codeSize_eq hcode]
      exact hshort _ _ _ hcode
  have hword : UInt64.size = 2 ^ 64 := rfl
  have hjump (distance : Int16) : (top.pc : Int) + 3 + distance.toInt < UInt64.size := by
    have hfar : distance.toInt ≤ 32767 := Int16.toInt_le distance
    omega
  refine ⟨hpc, ?_, hjump, ?_⟩
  · intro opcode
    have hwidth : opcode.immediateSize ≤ 8 := opcode.immediateSize_le
    omega
  · intro hopcode hdoubled distance hdistance
    rw [← session.selected?_state hlane] at hdistance
    exact Machine.fault?_of_jump hlane hopcode hdoubled hdistance (hjump _)

/-- A session that pushes the same word twice and jumps back as far as a distance can say. -/
def jumpsOut : Session Store :=
  let push := Opcode.pushC64.byte :: bytesOfWord 7
  .ofPair (push ++ push ++ [Opcode.jmpEqC16.byte, 0x00, 0x80]) [] .empty

theorem counters_near_code_jumpsOut :
    ∃ top, (jumpsOut.state 2).lane = [top] ∧ top.pc = 18 ∧
      (jumpsOut.state 2).fault? = some (.signal .invalidReference) := by
  have hlongest : jumpsOut.methods.chunks.longest < 2 ^ 63 := by decide +kernel
  have hdepth : (jumpsOut.state 2).depth = 1 := by decide +kernel
  have hopcode : (jumpsOut.state 2).opcode? = some .jmpEqC16 := by decide +kernel
  have htop : (jumpsOut.state 2).lane.map (fun frame =>
      (frame.pc, frame.stack.contents.toList, (jumpsOut.methods.chunk? frame.app frame.method).bind
        (Bytes.half? · (frame.pc + 1)))) =
      [(18, bytesOfWord 7 ++ bytesOfWord 7, some 0x8000)] := by decide +kernel
  obtain ⟨top, hlane⟩ := List.length_eq_one_iff.mp hdepth
  rw [hlane, List.map_singleton, List.singleton_inj, Prod.mk.injEq, Prod.mk.injEq] at htop
  obtain ⟨hpc, hstack, hhalf⟩ := htop
  obtain ⟨-, -, hrunning⟩ := counters_near_code jumpsOut
    (fun _ _ _ hcode => Nat.lt_of_le_of_lt (Chunks.size_le_longest hcode) hlongest) ⟨2, rfl⟩
  obtain ⟨-, -, -, hjump⟩ := hrunning top [] hlane
  refine ⟨top, hlane, hpc, ?_⟩
  rw [hjump hopcode ⟨[], 7, hstack⟩ _ hhalf, hpc]
  rfl

end Session

end LaneMachine
