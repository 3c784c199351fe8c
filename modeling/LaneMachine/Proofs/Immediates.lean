import LaneMachine.Proofs.Forward
set_option autoImplicit false

/-!
# Instructions are as long as they are declared

`Opcode.immediateSize` says how long an instruction is, and no instruction looks at it.  Each one
moves its counter by itself, past its opcode, past an immediate that it has read, past one that it has
not, or by a distance.  That the table is right is shown from two sides.

What a step reads is followed through the access log: behind the opcode it reads as many bytes as the
table says, or nothing (`Machine.reads_execute`).  Where the counter stands afterwards is read off the
frame that a completed instruction leaves (`Frame.Works.lands`).  `Session.lengths_as_declared` puts
the two together.
-/

namespace LaneMachine

/-! ## The words on top of a stack -/

theorem bytesOfWord_wordOfBytes {bytes : List UInt8} (h : bytes.length = wordSize) :
    bytesOfWord (wordOfBytes bytes) = bytes := by
  have hlt : natOfBytes bytes < byteSpan wordSize := h ▸ natOfBytes_lt bytes
  rw [bytesOfWord, wordOfBytes, UInt64.toNat_ofNat_of_lt' hlt, ← h, bytesOfNat_natOfBytes]

namespace Buffer

/-- The two words on top are the same. -/
def Doubled (buffer : Buffer) : Prop :=
  ∃ below word, buffer.contents.toList = below ++ (bytesOfWord word ++ bytesOfWord word)

theorem exists_words_of_peekTwo {buffer after : Buffer} {first second : UInt64}
    (h : peekTwo buffer = .ok (first, second) after) :
    ∃ below, buffer.contents.toList = below ++ (bytesOfWord second ++ bytesOfWord first) := by
  obtain ⟨bytes, middle, htop, hwords⟩ := exists_of_bind_eq_ok h
  have hlength : bytes.toList.length = wordSize + wordSize := by
    rw [Array.length_toList, size_of_top_eq_ok htop, Nat.two_mul]
  have hlow : (bytes.toList.take wordSize).length = wordSize := by
    rw [List.length_take, hlength, Nat.min_eq_left (Nat.le_add_left _ _)]
  have hhigh : (bytes.toList.drop wordSize).length = wordSize := by
    rw [List.length_drop, hlength, Nat.add_sub_cancel]
  refine ⟨buffer.contents.toList.take (buffer.contents.size - 2 * wordSize), ?_⟩
  cases hwords
  rw [bytesOfWord_wordOfBytes hlow, bytesOfWord_wordOfBytes hhigh, List.take_append_drop,
    (top_eq_ok htop).2, Bytes.toList_suffix, List.take_append_drop]

theorem doubled_iff {buffer : Buffer} {first second : UInt64}
    (h : peekTwo buffer = .ok (first, second) buffer) : buffer.Doubled ↔ first = second := by
  constructor
  · rintro ⟨below, word, hwords⟩
    rw [peekTwo_of_words hwords] at h
    cases h
    rfl
  · rintro rfl
    obtain ⟨below, hwords⟩ := exists_words_of_peekTwo h
    exact ⟨below, first, hwords⟩

end Buffer

/-! ## Where a completed instruction leaves its counter -/

/-- Where the counter of a frame stands once its instruction is complete: past the opcode and as many
bytes as its immediate is declared to have, unless the instruction is a jump and the two words on top of
the stack are the same.  It is then as far from there as the immediate, taken as a signed number,
says. -/
inductive Frame.Lands (code : Option Bytes) (frame : Frame) : Opcode → Nat → Prop
  | past {opcode : Opcode} (hpasses : opcode = .jmpEqC16 → ¬ frame.stack.Doubled) :
      Lands code frame opcode (frame.pc + 1 + opcode.immediateSize)
  | jumps {distance : UInt16} {target : Nat} (hdoubled : frame.stack.Doubled)
      (hdistance : code.bind (Bytes.half? · (frame.pc + 1)) = some distance)
      (htarget : (target : Int) = frame.pc + 3 + distance.toInt16.toInt) :
      Lands code frame .jmpEqC16 target

namespace Frame

variable {code : Option Bytes} {frame after : Frame} {arguments passed : Buffer} {opcode : Opcode}

theorem Works.lands (h : { frame with pc := frame.pc + 1 }.Works code arguments opcode after passed) :
    frame.Lands code opcode after.pc := by
  cases h with
  | jumps hpeek hdistance htarget hword =>
    refine .jumps ((Buffer.doubled_iff hpeek).mpr rfl) hdistance ?_
    dsimp only at htarget ⊢
    omega
  | passes hpeek hne => exact .past fun _ hdoubled => hne ((Buffer.doubled_iff hpeek).mp hdoubled)
  | noOp | pushC64 | pop | iAdd | iSub | argC16 | lfLoadC16 | lfStoreC16 => exact .past nofun

/-- What an instruction does depends on the code only through the bytes that its immediate is declared
to have. -/
theorem Works.of_slice {bytes bytes' : Bytes}
    (h : frame.Works (some bytes) arguments opcode after passed)
    (hsame : Bytes.slice? bytes' frame.pc opcode.immediateSize =
      Bytes.slice? bytes frame.pc opcode.immediateSize) :
    frame.Works (some bytes') arguments opcode after passed := by
  have hhalf (hsize : opcode.immediateSize = 2) :
      Bytes.half? bytes' frame.pc = Bytes.half? bytes frame.pc := by
    rw [hsize] at hsame
    rw [Bytes.half?, Bytes.half?, hsame]
  cases h with
  | noOp => exact .noOp
  | pushC64 hword hpush =>
    refine .pushC64 ?_ hpush
    have hslice : Bytes.slice? bytes' frame.pc wordSize = Bytes.slice? bytes frame.pc wordSize := hsame
    rw [Option.bind_some, Bytes.word?, hslice]
    exact hword
  | pop hpop => exact .pop hpop
  | iAdd hadd => exact .iAdd hadd
  | iSub hsub => exact .iSub hsub
  | argC16 hoffset hpop hplace => exact .argC16 ((hhalf rfl).trans hoffset) hpop hplace
  | lfLoadC16 hoffset hread hpush => exact .lfLoadC16 ((hhalf rfl).trans hoffset) hread hpush
  | lfStoreC16 hoffset hpop hplace => exact .lfStoreC16 ((hhalf rfl).trans hoffset) hpop hplace
  | jumps hpeek hoffset htarget hword => exact .jumps hpeek ((hhalf rfl).trans hoffset) htarget hword
  | passes hpeek hne => exact .passes hpeek hne

end Frame

/-! ## What a step reads -/

/-- How many bytes of an immediate the access has read. -/
def Access.width : Access → Nat
  | .loadedHalf _ _ => 2
  | .loadedWord _ _ => wordSize
  | _ => 0

/-- An access that a step may make to the code where its opcode stands at `pc`.  An immediate is read
right behind the opcode, has as many bytes as it is declared to have, and is the number that they spell,
least significant byte first. -/
inductive Access.Declared (opcode : Opcode) (code : Bytes) (pc : Nat) : Access → Prop
  | root (id : Identifier) : Declared opcode code pc (.root id)
  | child (id : Identifier) : Declared opcode code pc (.child id)
  | opcode : Declared opcode code pc (.loadedByte pc opcode.byte)
  | half {part : Bytes} (hsize : opcode.immediateSize = 2)
      (hpart : Bytes.slice? code (pc + 1) opcode.immediateSize = some part) :
      Declared opcode code pc (.loadedHalf (pc + 1) (halfOfBytes part.toList))
  | word {part : Bytes} (hsize : opcode.immediateSize = 8)
      (hpart : Bytes.slice? code (pc + 1) opcode.immediateSize = some part) :
      Declared opcode code pc (.loadedWord (pc + 1) (wordOfBytes part.toList))

theorem Access.Fetches.declared {opcode : Opcode} {code : Bytes} {pc : Nat} {access : Access}
    (h : access.Fetches (some code) pc) (hopcode : code[pc]? = some opcode.byte)
    (hwidth : access.width = 0 ∨ access.width = opcode.immediateSize) :
    access.Declared opcode code pc := by
  cases h with
  | root id => exact .root id
  | child id => exact .child id
  | opcode hbyte =>
    rw [Option.bind_some, hopcode] at hbyte
    cases hbyte
    exact .opcode
  | half hvalue =>
    have hsize : opcode.immediateSize = 2 := (hwidth.resolve_left nofun).symm
    obtain ⟨part, hpart, rfl⟩ := Option.map_eq_some_iff.mp hvalue
    exact .half hsize (hsize ▸ hpart)
  | word hvalue =>
    have hsize : opcode.immediateSize = 8 := (hwidth.resolve_left nofun).symm
    obtain ⟨part, hpart, rfl⟩ := Option.map_eq_some_iff.mp hvalue
    exact .word hsize (hsize ▸ hpart)

/-- Where there is no code, nothing is read. -/
theorem Access.Fetches.width_eq_zero {pc : Nat} {access : Access} (h : access.Fetches none pc) :
    access.width = 0 := by
  cases h with
  | root id => rfl
  | child id => rfl
  | opcode hbyte => rfl
  | half hvalue => cases hvalue
  | word hvalue => cases hvalue

theorem Store.Logs.mono {kind kind' : Access → Prop} {a b : Store} (h : a.Logs kind b)
    (hkind : ∀ access, kind access → kind' access) : a.Logs kind' b := by
  obtain ⟨added, hlog, hadded⟩ := h
  exact ⟨added, hlog, fun access hmem => hkind access (hadded access hmem)⟩

theorem Store.Logs.and {kind kind' : Access → Prop} {a b : Store} (h : a.Logs kind b)
    (h' : a.Logs kind' b) : a.Logs (fun access => kind access ∧ kind' access) b := by
  obtain ⟨added, hlog, hadded⟩ := h
  obtain ⟨added', hlog', hadded'⟩ := h'
  have hsame : added' = added := List.append_cancel_right (hlog'.symm.trans hlog)
  subst hsame
  exact ⟨added', hlog, fun access hmem => ⟨hadded access hmem, hadded' access hmem⟩⟩

namespace Store

theorem reads_loadHalf (offset : Nat) :
    Keeps (Logs fun access => access.width = 0 ∨ access.width = 2) (loadHalf offset) := by
  intro store
  unfold loadHalf
  split
  · exact .refl store
  · exact logs_record (.inr rfl) store

theorem reads_loadWord (offset : Nat) :
    Keeps (Logs fun access => access.width = 0 ∨ access.width = 8) (loadWord offset) := by
  intro store
  unfold loadWord
  split
  · exact .refl store
  · exact logs_record (.inr rfl) store

theorem reads_loadByte (width offset : Nat) :
    Keeps (Logs fun access => access.width = 0 ∨ access.width = width) (loadByte offset) := by
  intro store
  unfold loadByte
  split
  · exact .refl store
  · exact logs_record (.inl rfl) store

end Store

namespace Machine

variable {H α : Type} {width : Nat}

/-- Immediates of this width were read from the store of methods, and no others. -/
def Reads (width : Nat) (before after : Machine H) : Prop :=
  before.methods.Logs (fun access => access.width = 0 ∨ access.width = width) after.methods

instance : Std.Refl (Reads (H := H) width) := ⟨fun m => .refl m.methods⟩

instance : Trans (Reads (H := H) width) (Reads (H := H) width) (Reads (H := H) width) :=
  ⟨fun hab hbc => Store.Logs.trans hab hbc⟩

theorem reads_of_quiet {program : Exec H α} (h : Keeps Quiet program) :
    Keeps (Reads width) program := by
  intro m
  rw [Reads, (h m).methods]
  exact .refl _

theorem reads_of_fetches {before after : Machine H}
    (h : before.methods.Logs (Access.Fetches none 0) after.methods) : Reads width before after :=
  h.mono fun _ hfetches => .inl hfetches.width_eq_zero

theorem reads_onMethods {op : Store.Op α}
    (h : Keeps (Store.Logs fun access => access.width = 0 ∨ access.width = width) op) :
    Keeps (Reads (H := H) width) (onMethods op) := by
  intro m
  unfold onMethods
  split
  · rename_i hrun
    exact h.of_ok hrun
  · rename_i hrun
    exact h.of_error hrun

theorem quiet_counter : Keeps (Quiet (H := H)) counter := by
  intro m
  unfold counter
  split <;> exact ⟨rfl⟩

theorem reads_immediateHalf : Keeps (Reads (H := H) 2) immediateHalf :=
  keeps_bind (reads_of_quiet quiet_counter) fun offset =>
    keeps_bind (reads_onMethods (Store.reads_loadHalf offset)) fun _ =>
      keeps_bind (reads_of_quiet (quiet_onTop _)) fun _ => keeps_pure _

theorem reads_immediateWord : Keeps (Reads (H := H) 8) immediateWord :=
  keeps_bind (reads_of_quiet quiet_counter) fun offset =>
    keeps_bind (reads_onMethods (Store.reads_loadWord offset)) fun _ =>
      keeps_bind (reads_of_quiet (quiet_onTop _)) fun _ => keeps_pure _

theorem reads_popIdentifier : Keeps (Reads (H := H) width) popIdentifier :=
  reads_of_quiet fun m => (still_popIdentifier m).toQuiet

theorem reads_fetch : Keeps (Reads (H := H) width) fetch := by
  intro m
  unfold fetch
  split
  · exact .refl _
  · exact keeps_bind (reads_onMethods (Store.reads_loadByte width _)) (fun _ =>
      keeps_bind (reads_of_quiet (quiet_onTop _)) fun _ => keeps_pure _) m

theorem reads_jumpIfEqual : Keeps (Reads (H := H) 2) jumpIfEqual := by
  refine keeps_bind (reads_of_quiet (quiet_onTop _)) fun words => ?_
  obtain ⟨first, second⟩ := words
  dsimp only
  split
  · exact keeps_bind reads_immediateHalf fun _ => reads_of_quiet (quiet_onTop _)
  · exact reads_of_quiet (quiet_onTop _)

theorem reads_passArgument : Keeps (Reads (H := H) 2) passArgument := by
  refine keeps_bind reads_immediateHalf fun offset => reads_of_quiet ?_
  exact keeps_bind (quiet_onTop _) fun _ => keeps_bind (quiet_onArguments _) fun _ => quiet_onTop _

variable [Heap H]

theorem reads_call (context app method : Identifier) :
    Keeps (Reads (H := H) width) (call context app method) := by
  intro m
  unfold call
  split
  · exact .refl _
  · exact reads_of_fetches (Store.logs_select m.methods app method)

theorem reads_invokeInternal : Keeps (Reads (H := H) width) invokeInternal := by
  refine keeps_bind reads_popIdentifier fun method => keeps_bind keeps_get fun m => ?_
  split
  · exact keeps_throw _
  · exact reads_call _ _ method

theorem reads_unwind (dropped kept : Lane) (count : Nat) (status : Status) :
    Keeps (Reads (H := H) width) (unwind dropped kept count status) :=
  fun m => reads_of_fetches (logs_unwind dropped kept count status m)

theorem reads_returnBytes (count : Nat) (status : Status) :
    Keeps (Reads (H := H) width) (returnBytes count status) := by
  intro m
  unfold returnBytes
  split
  · exact .refl _
  · exact reads_unwind _ _ count status m

theorem reads_throwBytes (count : Nat) (status : Status) :
    Keeps (Reads (H := H) width) (throwBytes count status) :=
  fun m => reads_unwind _ _ count status m

/-- An instruction reads no immediate, or one of the declared width. -/
theorem reads_execute (opcode : Opcode) :
    Keeps (Reads (H := H) opcode.immediateSize) (execute opcode) := by
  cases opcode with
  | noOp => exact keeps_pure ()
  | invokeDispatcher => exact keeps_bind reads_popIdentifier fun app => reads_call app app _
  | indInvokeDispatcher =>
    refine keeps_bind ?_ fun _ => reads_of_quiet quiet_markIndependent
    exact keeps_bind reads_popIdentifier fun app => reads_call app app _
  | spawnDispatcher =>
    exact keeps_bind reads_popIdentifier fun app => reads_of_quiet (quiet_spawn app)
  | invokeInternal => exact reads_invokeInternal
  | indInvokeInternal =>
    exact keeps_bind reads_invokeInternal fun _ => reads_of_quiet quiet_markIndependent
  | ret0 => exact reads_returnBytes 0 .noError
  | ret64 => exact reads_returnBytes wordSize .noError
  | throw =>
    exact keeps_bind (reads_of_quiet (quiet_onTop _)) fun count => reads_throwBytes count _
  | enter => exact reads_of_quiet quiet_enter
  | pushC64 => exact keeps_bind reads_immediateWord fun _ => reads_of_quiet (quiet_onTop _)
  | pop => exact reads_of_quiet (keeps_bind (quiet_onTop _) fun _ => keeps_pure ())
  | iAdd | iSub => exact reads_of_quiet (quiet_onTop _)
  | argC16 => exact reads_passArgument
  | lfLoadC16 | lfStoreC16 =>
    exact keeps_bind reads_immediateHalf fun _ => reads_of_quiet (quiet_onTop _)
  | jmpEqC16 => exact reads_jumpIfEqual

section

variable {m : Machine H} {top : Frame} {rest : Lane} {opcode : Opcode}

/-- Whether or not the instruction completes. -/
theorem reads_step (hopcode : m.opcode? = some opcode) :
    Reads opcode.immediateSize m m.step.2 := by
  have hexecute : Keeps (Reads (H := H) opcode.immediateSize)
      (do announce opcode; execute opcode; return false) :=
    keeps_bind (reads_of_quiet fun m => (still_announce opcode m).toQuiet) fun _ =>
      keeps_bind (reads_execute opcode) fun _ => keeps_pure false
  have hinstruction : Reads opcode.immediateSize m (finalState (instruction m)) := by
    have hread : Reads opcode.immediateSize m (finalState (fetch m)) := reads_fetch m
    simp only [opcode?, byte?] at hopcode
    cases hfetch : fetch m with
    | error e left => simp [hfetch] at hopcode
    | ok fetched worked =>
      rw [hfetch] at hopcode hread
      obtain ⟨byte, rfl, hdecode⟩ := Option.bind_eq_some_iff.mp hopcode
      rw [instruction, bind_of_ok hfetch]
      simp only [hdecode]
      exact Store.Logs.trans hread (hexecute worked)
  unfold step
  cases hrun : instruction m with
  | ok finished after =>
    rw [hrun] at hinstruction
    exact hinstruction
  | error fault left =>
    rw [hrun] at hinstruction
    exact Store.Logs.trans hinstruction (reads_of_fetches (logs_recover left fault))

omit [Heap H] in
theorem exists_code (hlane : m.lane = top :: rest) (hopcode : m.opcode? = some opcode) :
    ∃ code, m.methods.selected? = some code ∧ code[top.pc]? = some opcode.byte := by
  obtain ⟨byte, hbyte, hdecode⟩ := Option.bind_eq_some_iff.mp hopcode
  rw [byte?_eq hlane] at hbyte
  obtain ⟨code, hcode, hread⟩ := Option.bind_eq_some_iff.mp hbyte
  exact ⟨code, hcode, by rw [hread, Opcode.byte_of_ofByte? hdecode]⟩

theorem logs_declared (hlane : m.lane = top :: rest) (hopcode : m.opcode? = some opcode) {code : Bytes}
    (hcode : m.methods.selected? = some code) :
    m.methods.Logs (Access.Declared opcode code top.pc) m.step.2.methods := by
  obtain ⟨code', hcode', hbyte⟩ := exists_code hlane hopcode
  obtain rfl := Option.some.inj (hcode.symm.trans hcode')
  have hfetches := logs_step hlane
  rw [hcode] at hfetches
  refine (hfetches.and (reads_step hopcode)).mono ?_
  rintro access ⟨haccess, hwidth⟩
  exact haccess.declared hbyte hwidth

/-! ## What a step leaves of the running frame -/

/-- An unwind drops every frame above those that it keeps. -/
theorem drops_of_unwound {worked : Machine H} {dropped kept : Lane} {count : Nat} {status : Status}
    (hstep : m.step.2 = worked.unwound dropped kept count status)
    (hwaiting : worked.waiting = m.waiting) {index : Nat} (hkept : kept.length ≤ index)
    (hindex : index < m.depth) : m.Drops index := by
  refine ⟨hindex, ?_⟩
  cases kept with
  | cons caller below =>
    rw [hstep, unwound_caller]
    exact .inl hkept
  | nil =>
    have hfollows : Follows m m.step.2 := hstep ▸ follows_unwound hwaiting dropped count status
    cases hfollows with
    | nextLane hqueue hlane hstatus => exact .inr ⟨_, hqueue, hlane⟩
    | complete hlane hqueue hreason =>
      rw [depth, hlane]
      exact .inl (Nat.zero_le index)

/-- The running frame after a step that completes and does not drop it.  It may have called another
one. -/
structure Leaves (m : Machine H) (top : Frame) (rest : Lane) (opcode : Opcode) (above : Lane)
    (frame : Frame) : Prop where
  lane : m.step.2.lane = above ++ frame :: rest
  above : above.length ≤ 1
  lands : top.Lands m.methods.selected? opcode frame.pc
  works : opcode.role = .work →
    { top with pc := top.pc + 1 }.Works m.methods.selected? m.arguments opcode frame m.step.2.arguments

theorem exists_leaves (hlane : m.lane = top :: rest) (hopcode : m.opcode? = some opcode)
    (hfault : m.fault? = none) (hstays : ¬ m.Drops rest.length) :
    ∃ above frame, m.Leaves top rest opcode above frame := by
  have hdepth : rest.length < m.depth := by
    rw [depth, hlane]
    exact Nat.lt_succ_self _
  obtain ⟨top', rest', methods, hlane', hmethods, hexecute⟩ := exists_executed hfault hopcode
  obtain ⟨rfl, rfl⟩ := List.cons.inj (hlane.symm.trans hlane')
  have hdoes := does_of_execute rfl hexecute
  -- every other instruction with a role of its own is one byte long
  have hpast (hrole : opcode.role ≠ .work) : top.Lands m.methods.selected? opcode (top.pc + 1) := by
    have hbyte : opcode.immediateSize = 0 := by
      cases opcode <;> first | rfl | exact absurd rfl hrole
    have hpasses : opcode = .jmpEqC16 → ¬ top.stack.Doubled := by
      rintro rfl
      exact absurd rfl hrole
    rw [← Nat.add_zero (top.pc + 1), ← hbyte]
    exact .past hpasses
  generalize hrole : opcode.role = role at hdoes hpast
  generalize hstep : m.step.2 = after at hdoes
  have hother (above : Lane) {frame : Frame} (hafter : after.lane = above ++ frame :: rest)
      (hne : role ≠ .work) (habove : above.length ≤ 1) (hpc : frame.pc = top.pc + 1) :
      ∃ above frame, m.Leaves top rest opcode above frame := by
    refine ⟨above, frame, ?_, habove, hpc ▸ hpast hne, ?_⟩
    · rw [hstep, hafter]
    · intro hwork
      exact absurd (hrole.symm.trans hwork) hne
  cases hdoes with
  | work hwork =>
    obtain ⟨top', rest', frame, arguments, methods, hlane', -, hworks, hstep'⟩ :=
      exists_works hfault hopcode hrole
    obtain ⟨rfl, rfl⟩ := List.cons.inj (hlane.symm.trans hlane')
    refine ⟨[], frame, by rw [hstep']; rfl, Nat.zero_le 1, hworks.lands, fun _ => ?_⟩
    rw [hstep']
    exact hworks
  | enter hfree => exact hother [] rfl (by rintro ⟨⟩) (Nat.zero_le 1) rfl
  | call hpop context app method => exact hother [_] rfl (by rintro ⟨⟩) (Nat.le_refl 1) rfl
  | callIndependent hpop context app method =>
    exact hother [_] rfl (by rintro ⟨⟩) (Nat.le_refl 1) rfl
  | spawn hpop => exact hother [] rfl (by rintro ⟨⟩) (Nat.zero_le 1) rfl
  | ret hfits => exact absurd (drops_of_unwound hstep rfl (Nat.le_refl _) hdepth) hstays
  | throw hsize hfits =>
    refine absurd (drops_of_unwound hstep rfl ?_ hdepth) hstays
    obtain ⟨more, hmore⟩ := Lane.split_cons { top with pc := top.pc + 1 } rest
    have hsplit := congrArg List.length (Lane.split_append ({ top with pc := top.pc + 1 } :: rest))
    rw [hmore, List.length_append, List.length_cons, List.length_cons] at hsplit
    change (Lane.split ({ top with pc := top.pc + 1 } :: rest)).2.length ≤ rest.length
    omega

end

/-! ## The code of the running frame -/

/-- If a frame runs, the store of methods is turned to its code. -/
def Aims (m : Machine H) : Prop :=
  ∀ top rest, m.lane = top :: rest →
    m.methods.root = some top.app ∧ m.methods.child = some top.method

omit [Heap H] in
theorem aims_of_lane {m : Machine H} {top : Frame} {rest : Lane} (hlane : m.lane = top :: rest)
    (hroot : m.methods.root = some top.app) (hchild : m.methods.child = some top.method) : m.Aims := by
  intro top' rest' hsame
  obtain ⟨rfl, -⟩ := List.cons.inj (hlane.symm.trans hsame)
  exact ⟨hroot, hchild⟩

omit [Heap H] in
theorem Evolves.aims {m worked : Machine H} (hwork : m.Evolves worked) (h : m.Aims) :
    worked.Aims := by
  intro top rest hlane
  have hframes := hwork.lane
  rw [hlane] at hframes
  generalize hbefore : m.lane = before at hframes
  cases hframes with
  | cons hframe =>
    obtain ⟨hroot, hchild⟩ := h _ _ hbefore
    rw [← hwork.methods.root, ← hwork.methods.child, hframe.app, hframe.method]
    exact ⟨hroot, hchild⟩

theorem Effect.aims {m after : Machine H} (heffect : Effect m after) (h : m.Aims) : after.Aims := by
  cases heffect with
  | work hwork => exact hwork.aims h
  | @enter worked hwork top rest hlane hfree =>
    obtain ⟨hroot, hchild⟩ := hwork.aims h top rest hlane
    exact aims_of_lane rfl hroot hchild
  | call hwork context app method hroom => exact aims_of_lane rfl rfl rfl
  | callIndependent hwork context app method hroom => exact aims_of_lane rfl rfl rfl
  | spawn hwork app houtside hroom => exact fun top rest hlane => hwork.aims h top rest hlane
  | @unwind worked hwork dropped kept count status hcut hfits =>
    cases worked.onward status kept with
    | caller caller rest =>
      rw [unwound_caller]
      exact aims_of_lane rfl rfl rfl
    | next hstatus hwaiting =>
      rw [unwound_next worked dropped count hstatus hwaiting]
      exact aims_of_lane rfl rfl rfl
    | last hends =>
      rw [unwound_last worked dropped count hends]
      exact nofun

end Machine

namespace Session

variable {H : Type} [Heap H] (session : Session H)

theorem aims_state (n : Nat) : (session.state n).Aims := by
  induction n with
  | zero =>
    obtain ⟨buffer, -, -, hfirst⟩ := session.exists_first_eq
    rw [state_zero, hfirst]
    exact Machine.aims_of_lane rfl rfl rfl
  | succ n ih => exact (session.effect_state n).aims ih

/-- The code that is read is that of the running frame's method. -/
theorem selected?_state {n : Nat} {top : Frame} {rest : Lane}
    (hlane : (session.state n).lane = top :: rest) :
    (session.state n).methods.selected? = session.methods.chunk? top.app top.method := by
  obtain ⟨hroot, hchild⟩ := session.aims_state n top rest hlane
  simp only [Store.selected?, hroot, hchild, Store.chunk?, (session.fixed_state n).2.1]

/-- A step of a session whose running frame has an opcode at its counter.  The step reads that opcode
and, if it reads an immediate, then the declared number of bytes right behind the opcode.  If the step
completes and leaves the frame in the lane, running or right below a frame that it called, then the
frame has moved past the opcode and as many bytes, a jump between equal words apart.  What the
instruction has done is what it does in any code that has the same bytes there. -/
theorem lengths_as_declared {m : Machine H} (hreach : session.Reaches m) {top : Frame} {rest : Lane}
    (hlane : m.lane = top :: rest) {opcode : Opcode} (hopcode : m.opcode? = some opcode) :
    ∃ code, session.methods.chunk? top.app top.method = some code ∧
      code[top.pc]? = some opcode.byte ∧
      m.methods.Logs (Access.Declared opcode code top.pc) m.step.2.methods ∧
      (m.fault? = none → ¬ m.Drops rest.length →
        ∃ above frame, m.step.2.lane = above ++ frame :: rest ∧ above.length ≤ 1 ∧
          top.Lands (some code) opcode frame.pc ∧
          (opcode.role = .work → ∀ code',
            Bytes.slice? code' (top.pc + 1) opcode.immediateSize =
              Bytes.slice? code (top.pc + 1) opcode.immediateSize →
            { top with pc := top.pc + 1 }.Works (some code') m.arguments opcode frame
              m.step.2.arguments)) := by
  obtain ⟨n, rfl⟩ := hreach
  obtain ⟨code, hcode, hbyte⟩ := Machine.exists_code hlane hopcode
  refine ⟨code, ?_, hbyte, Machine.logs_declared hlane hopcode hcode, ?_⟩
  · rw [← session.selected?_state hlane, hcode]
  · intro hfault hstays
    obtain ⟨above, frame, hleaves⟩ := Machine.exists_leaves hlane hopcode hfault hstays
    have hlands := hleaves.lands
    rw [hcode] at hlands
    refine ⟨above, frame, hleaves.lane, hleaves.above, hlands, ?_⟩
    intro hrole code' hsame
    have hworks := hleaves.works hrole
    rw [hcode] at hworks
    exact hworks.of_slice hsame

/-- A session that pushes the same word twice and then jumps back to the second push, for ever. -/
def pushesAgain : Session Store :=
  let push := Opcode.pushC64.byte :: bytesOfWord 7
  .ofPair (push ++ push ++ [Opcode.jmpEqC16.byte, 0xf4, 0xff]) [] .empty

theorem lengths_as_declared_pushesAgain :
    ∃ top frame, (pushesAgain.state 2).lane = [top] ∧ top.pc = 18 ∧
      (pushesAgain.state 2).opcode? = some .jmpEqC16 ∧
      (pushesAgain.state 2).step.2.lane = [frame] ∧ frame.pc = 9 := by
  have hdepth : (pushesAgain.state 2).depth = 1 := by decide +kernel
  have hopcode : (pushesAgain.state 2).opcode? = some .jmpEqC16 := by decide +kernel
  have hstays : (pushesAgain.state 2).fault? = none ∧ ¬ (pushesAgain.state 2).Drops 0 := by
    decide +kernel
  have htop : (pushesAgain.state 2).lane.map (fun frame =>
      (frame.pc, frame.stack.contents.toList, (pushesAgain.methods.chunk? frame.app frame.method).bind
        (Bytes.half? · (frame.pc + 1)))) =
      [(18, bytesOfWord 7 ++ bytesOfWord 7, some 0xfff4)] := by decide +kernel
  obtain ⟨top, hlane⟩ := List.length_eq_one_iff.mp hdepth
  rw [hlane, List.map_singleton, List.singleton_inj, Prod.mk.injEq, Prod.mk.injEq] at htop
  obtain ⟨hpc, hstack, hhalf⟩ := htop
  obtain ⟨code, hcode, -, -, hleaves⟩ :=
    lengths_as_declared pushesAgain ⟨2, rfl⟩ hlane hopcode
  obtain ⟨above, frame, hafter, -, hlands, -⟩ := hleaves hstays.1 hstays.2
  have hlength : (pushesAgain.state 2).step.2.lane.length = 1 := by decide +kernel
  rw [hafter, List.length_append, List.length_singleton] at hlength
  obtain rfl : above = [] := List.length_eq_zero_iff.mp (Nat.succ.inj hlength)
  refine ⟨top, frame, hlane, hpc, hopcode, hafter, ?_⟩
  have hdoubled : top.stack.Doubled := ⟨[], 7, hstack⟩
  rw [hcode] at hhalf
  generalize hlanded : frame.pc = landed at hlands
  cases hlands with
  | past hpasses => exact absurd hdoubled (hpasses rfl)
  | @jumps distance target hsame hdistance htarget =>
    rw [hhalf, Option.some.injEq] at hdistance
    rw [hpc, ← hdistance] at htarget
    exact Int.ofNat_inj.mp htarget

end Session

end LaneMachine
