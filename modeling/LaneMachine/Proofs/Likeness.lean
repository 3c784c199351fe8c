import LaneMachine.Machine.Step
set_option autoImplicit false

/-!
# What programs cannot tell apart

The capacity of a buffer, the access log and the checkpoints of a store, and whether the
bottom frame of a lane is marked: nothing that the machine computes depends on them.  For
each part of the machine `Alike` relates the values that differ in no more than that, and
`Mirrors R` says of two programs that they end alike when they start in states that `R`
relates: with the same value or the same error, and again in states that `R` relates.

Two machines run in parallel (`Machine.Parallel`) if their lanes are alike, whatever their
heaps, and if the first has some more frames ahead in its queue and has printed something
before.  `Machine.Tracks` is `Mirrors` for such machines; the instructions that stay inside
the running frame are shown to track themselves.
-/

namespace LaneMachine

section

variable {ε σ τ α β : Type}

/-- Both ended with the same value in states that `S` relates, or with the same error in states that
`E` relates. -/
inductive EndAlike (S E : σ → τ → Prop) : EStateM.Result ε σ α → EStateM.Result ε τ α → Prop
  | ok (a : α) {s : σ} {t : τ} (h : S s t) : EndAlike S E (.ok a s) (.ok a t)
  | error (e : ε) {s : σ} {t : τ} (h : E s t) : EndAlike S E (.error e s) (.error e t)

/-- Programs that end alike if they start in states that `R` relates. -/
def Mirrors (R : σ → τ → Prop) (program : EStateM ε σ α) (image : EStateM ε τ α) : Prop :=
  ∀ s t, R s t → EndAlike R R (program s) (image t)

variable {R S E : σ → τ → Prop}

theorem EndAlike.mono {left : EStateM.Result ε σ α} {right : EStateM.Result ε τ α}
    (h : EndAlike R E left right) (himp : ∀ s t, R s t → S s t) : EndAlike S E left right := by
  cases h with
  | ok a hR => exact .ok a (himp _ _ hR)
  | error e hE => exact .error e hE

theorem EndAlike.bind {program : EStateM ε σ α} {image : EStateM ε τ α}
    {next : α → EStateM ε σ β} {nextImage : α → EStateM ε τ β} {s : σ} {t : τ}
    (h : EndAlike R E (program s) (image t))
    (hnext : ∀ a s' t', program s = .ok a s' → image t = .ok a t' → R s' t' →
      EndAlike S E (next a s') (nextImage a t')) :
    EndAlike S E ((program >>= next) s) ((image >>= nextImage) t) := by
  simp only [Bind.bind, EStateM.bind]
  cases hs : program s with
  | ok a s' =>
    cases ht : image t with
    | ok b t' =>
      rw [hs, ht] at h
      cases h with
      | ok a hR => exact hnext a s' t' hs ht hR
    | error e t' =>
      rw [hs, ht] at h
      cases h
  | error e s' =>
    cases ht : image t with
    | ok b t' =>
      rw [hs, ht] at h
      cases h
    | error e' t' =>
      rw [hs, ht] at h
      cases h with
      | error e hE => exact .error e hE

theorem mirrors_pure (a : α) : Mirrors R (pure a : EStateM ε σ α) (pure a) :=
  fun _ _ h => .ok a h

theorem mirrors_bind {program : EStateM ε σ α} {image : EStateM ε τ α}
    {next : α → EStateM ε σ β} {nextImage : α → EStateM ε τ β} (hprogram : Mirrors R program image)
    (hnext : ∀ a, Mirrors R (next a) (nextImage a)) :
    Mirrors R (program >>= next) (image >>= nextImage) := by
  intro s t h
  refine (hprogram s t h).bind ?_
  intro a s' t' _ _ h'
  exact hnext a s' t' h'

/-- A program that looks at its state may go on differently in states that `R` relates. -/
theorem mirrors_get_bind {next : σ → EStateM ε σ α} {nextImage : τ → EStateM ε τ α}
    (hnext : ∀ s t, R s t → EndAlike R R (next s s) (nextImage t t)) :
    Mirrors R (get >>= next) (get >>= nextImage) :=
  hnext

end

/-! ## Buffers -/

namespace Buffer

/-- Two buffers that differ at most in their capacities. -/
structure Alike (a b : Buffer) : Prop where
  contents : a.contents = b.contents
  ceiling : a.ceiling = b.ceiling

theorem Alike.refl (buffer : Buffer) : buffer.Alike buffer := ⟨rfl, rfl⟩

theorem Alike.size_eq {a b : Buffer} (h : a.Alike b) : a.size = b.size := by
  rw [size, size, h.contents]

theorem Alike.append {a b : Buffer} (h : a.Alike b) (bytes : Bytes) :
    (a.append bytes).Alike (b.append bytes) := by
  constructor
  · rw [contents_append, contents_append, h.contents]
  · rw [ceiling_append, ceiling_append, h.ceiling]

theorem Alike.canGrowBy_eq {a b : Buffer} (h : a.Alike b) (count : Nat) :
    a.canGrowBy count = b.canGrowBy count := by
  rw [canGrowBy, canGrowBy, h.size_eq, h.ceiling]

theorem mirrors_ensure (length : Nat) : Mirrors Alike (ensure length) (ensure length) := by
  intro a b h
  unfold ensure
  rw [h.size_eq, h.ceiling]
  split
  · exact .ok () h
  · split
    · exact .error _ h
    · exact .ok () (h.append _)

theorem mirrors_truncate (length : Nat) : Mirrors Alike (truncate length) (truncate length) := by
  intro a b h
  refine .ok () ⟨?_, h.ceiling⟩
  simp only [h.contents]

theorem mirrors_top (count : Nat) : Mirrors Alike (top count) (top count) := by
  intro a b h
  unfold top
  rw [h.size_eq, h.contents]
  split
  · exact .error _ h
  · exact .ok _ h

theorem mirrors_read (offset : Nat) : Mirrors Alike (read offset) (read offset) := by
  intro a b h
  unfold read
  rw [h.size_eq, h.contents]
  split
  · exact .error _ h
  · exact .ok _ h

theorem mirrors_write (offset : Nat) (word : UInt64) :
    Mirrors Alike (write offset word) (write offset word) := by
  intro a b h
  unfold write
  rw [h.size_eq, h.contents]
  split
  · exact .error _ h
  · exact .ok () ⟨rfl, h.ceiling⟩

theorem mirrors_push (word : UInt64) : Mirrors Alike (push word) (push word) := by
  intro a b h
  unfold push pushBytes
  rw [h.canGrowBy_eq, h.size_eq, h.ceiling]
  split
  · exact .ok () (h.append _)
  · exact .error _ h

theorem mirrors_peek : Mirrors Alike peek peek :=
  mirrors_bind (mirrors_top wordSize) fun _ => mirrors_pure _

theorem mirrors_peekTwo : Mirrors Alike peekTwo peekTwo :=
  mirrors_bind (mirrors_top (2 * wordSize)) fun _ => mirrors_pure _

theorem mirrors_drop : Mirrors Alike drop drop := by
  intro a b h
  unfold drop
  rw [h.size_eq]
  exact mirrors_truncate _ a b h

theorem mirrors_pop : Mirrors Alike pop pop :=
  mirrors_bind mirrors_peek fun _ => mirrors_bind mirrors_drop fun _ => mirrors_pure _

theorem mirrors_combineTwo (combine : UInt64 → UInt64 → UInt64) :
    Mirrors Alike (combineTwo combine) (combineTwo combine) := by
  refine mirrors_bind mirrors_peekTwo fun words => mirrors_get_bind ?_
  intro a b h
  rw [h.size_eq]
  exact mirrors_bind (mirrors_write _ _) (fun _ => mirrors_drop) a b h

theorem mirrors_thrownSize : Mirrors Alike thrownSize thrownSize := by
  refine mirrors_bind (mirrors_top 2) fun bytes => mirrors_get_bind ?_
  intro a b h
  rw [h.size_eq]
  split
  · exact .error _ h
  · exact .ok _ h

end Buffer

/-! ## Stores -/

namespace Store

/-- Two stores that hold the same chunks and have selected the same one. -/
structure Alike (a b : Store) : Prop where
  chunk? : ∀ root child, a.chunk? root child = b.chunk? root child
  root : a.root = b.root
  child : a.child = b.child

theorem Alike.record {a b : Store} (h : a.Alike b) (access : Access) :
    (a.record access).Alike (b.record access) :=
  ⟨h.chunk?, h.root, h.child⟩

theorem alike_select {a b : Store} (h : ∀ root child, a.chunk? root child = b.chunk? root child)
    (root child : Identifier) :
    ((a.selectRoot root).selectChild child).Alike ((b.selectRoot root).selectChild child) :=
  ⟨h, rfl, rfl⟩

theorem Alike.fetch_eq {a b : Store} (h : a.Alike b) (offset count : Nat) :
    a.fetch offset count = b.fetch offset count := by
  have hselected : a.selected? = b.selected? := by
    unfold selected?
    rw [h.root, h.child]
    split
    · exact h.chunk? _ _
    · rfl
  rw [fetch, fetch, hselected]

/-- Stores that `R` relates look alike, and go on being related when both log an access. -/
structure Lookalikes (R : Store → Store → Prop) : Prop where
  alike {a b : Store} : R a b → a.Alike b
  record {a b : Store} (access : Access) : R a b → R (a.record access) (b.record access)

theorem lookalikes_alike : Lookalikes Alike := ⟨id, fun access h => h.record access⟩

variable {R : Store → Store → Prop} (hR : Lookalikes R)

include hR

theorem mirrors_loadByte (offset : Nat) : Mirrors R (loadByte offset) (loadByte offset) := by
  intro a b h
  unfold loadByte
  rw [(hR.alike h).fetch_eq]
  split
  · exact .error _ h
  · exact .ok _ (hR.record _ h)

theorem mirrors_loadHalf (offset : Nat) : Mirrors R (loadHalf offset) (loadHalf offset) := by
  intro a b h
  unfold loadHalf
  rw [(hR.alike h).fetch_eq]
  split
  · exact .error _ h
  · exact .ok _ (hR.record _ h)

theorem mirrors_loadWord (offset : Nat) : Mirrors R (loadWord offset) (loadWord offset) := by
  intro a b h
  unfold loadWord
  rw [(hR.alike h).fetch_eq]
  split
  · exact .error _ h
  · exact .ok _ (hR.record _ h)

end Store

/-! ## Frames and lanes -/

namespace Frame

variable {α : Type} {marked : Prop}

/-- Two frames that differ at most in the capacities of their buffers and, unless they have to be
marked alike, in their marks. -/
structure Alike (marked : Prop) (a b : Frame) : Prop where
  pc : a.pc = b.pc
  context : a.context = b.context
  app : a.app = b.app
  method : a.method = b.method
  independent : marked → a.independent = b.independent
  lock : a.lock = b.lock
  stack : a.stack.Alike b.stack
  locals : a.locals.Alike b.locals

theorem Alike.weaken {a b : Frame} {loosely : Prop} (h : a.Alike marked b) (himp : loosely → marked) :
    a.Alike loosely b :=
  { h with independent := fun hmarked => h.independent (himp hmarked) }

theorem mirrors_onStack {op : Buffer.Op α} (hop : Mirrors Buffer.Alike op op) :
    Mirrors (Alike marked) (onStack op) (onStack op) := by
  intro a b h
  have hend := hop _ _ h.stack
  unfold onStack
  generalize op a.stack = left, op b.stack = right at hend
  cases hend with
  | ok value hstack => exact .ok value { h with stack := hstack }
  | error e hstack => exact .error _ { h with stack := hstack }

theorem mirrors_onLocals {op : Buffer.Op α} (hop : Mirrors Buffer.Alike op op) :
    Mirrors (Alike marked) (onLocals op) (onLocals op) := by
  intro a b h
  have hend := hop _ _ h.locals
  unfold onLocals
  generalize op a.locals = left, op b.locals = right at hend
  cases hend with
  | ok value hlocals => exact .ok value { h with locals := hlocals }
  | error e hlocals => exact .error _ { h with locals := hlocals }

theorem mirrors_skip (count : Nat) : Mirrors (Alike marked) (skip count) (skip count) := by
  intro a b h
  refine .ok () { h with pc := ?_ }
  rw [h.pc]

theorem mirrors_jump (distance : Int) : Mirrors (Alike marked) (jump distance) (jump distance) := by
  intro a b h
  unfold jump
  dsimp only
  rw [h.pc]
  split
  · exact .ok () { h with pc := rfl }
  · exact .error _ h

end Frame

namespace Lane

/-- Frames that are alike one by one.  Only the last of them, the bottom frame, may be marked
differently, and only if `marked` does not forbid it. -/
inductive Alike (marked : Prop) : Lane → Lane → Prop
  | nil : Alike marked [] []
  | cons {a b : Frame} {rest rest' : Lane} (hframe : a.Alike (marked ∨ rest ≠ []) b)
      (hrest : Alike marked rest rest') : Alike marked (a :: rest) (b :: rest')

variable {marked : Prop} {a b : Lane}

theorem Alike.length_eq (h : a.Alike marked b) : a.length = b.length := by
  induction h with
  | nil => rfl
  | cons hframe hrest ih => rw [List.length_cons, List.length_cons, ih]

theorem Alike.eq_nil_iff (h : a.Alike marked b) : a = [] ↔ b = [] := by
  rw [← List.length_eq_zero_iff, ← List.length_eq_zero_iff, h.length_eq]

/-- A list of frames may be extended at its end if no mark may differ. -/
theorem Alike.append_singleton (h : a.Alike True b) {x y : Frame} (hxy : x.Alike True y) :
    Alike True (a ++ [x]) (b ++ [y]) := by
  induction h with
  | nil => exact .cons (hxy.weaken fun _ => trivial) .nil
  | cons hframe hrest ih => exact .cons (hframe.weaken fun _ => .inl trivial) ih

/-- Throws stop at the same frame: the mark of the bottom frame does not count. -/
theorem Alike.split (h : a.Alike marked b) :
    a.split.1.Alike False b.split.1 ∧ a.split.2.Alike marked b.split.2 := by
  induction h with
  | nil => exact ⟨.nil, .nil⟩
  | @cons top top' rest rest' hframe hrest ih =>
    have hloose : top.Alike False top' := hframe.weaken False.elim
    cases hrest with
    | nil => exact ⟨.cons (hloose.weaken (by simp)) .nil, .nil⟩
    | @cons below below' rest rest' hbelow hrest =>
      -- `top` has a frame below it, so its mark decides, and it is the same in both
      have hmark := hframe.independent (.inr (List.cons_ne_nil below rest))
      simp only [Lane.split, hmark]
      split
      · exact ⟨.cons (hloose.weaken (by simp)) .nil, .cons hbelow hrest⟩
      · exact ⟨.cons (hframe.weaken fun _ => .inr (List.cons_ne_nil _ _)) ih.1, ih.2⟩

theorem Alike.insideIndependent_eq (h : a.Alike marked b) :
    a.insideIndependent = b.insideIndependent := by
  rw [insideIndependent, insideIndependent, Bool.eq_iff_iff]
  simp only [Bool.not_eq_true', List.isEmpty_eq_false_iff, ne_eq, h.split.2.eq_nil_iff]

end Lane

/-! ## Machines -/

/-- Limits that differ at most in the capacity of a fresh operand stack. -/
structure Limits.Alike (a b : Limits) : Prop where
  maxOperandStack : a.maxOperandStack = b.maxOperandStack
  initialLocalFrame : a.initialLocalFrame = b.initialLocalFrame
  maxLocalFrame : a.maxLocalFrame = b.maxLocalFrame
  maxCallStackDepth : a.maxCallStackDepth = b.maxCallStackDepth
  maxLanes : a.maxLanes = b.maxLanes

namespace Machine

variable {H K α β : Type}

/-- The machines `m` and `own` run in parallel.  Their heaps may be anything; `m` has the frames `ahead`
in its queue before those that both have queued, and has output `printed` before what both have
output. -/
structure Parallel (marked : Prop) (ahead : List Frame) (printed : Bytes) (m : Machine H)
    (own : Machine K) : Prop where
  limits : m.limits.Alike own.limits
  lane : m.lane.Alike marked own.lane
  waiting : ∃ since, m.waiting = ahead ++ since ∧ Lane.Alike True since own.waiting
  status : m.status = own.status
  locks : m.locks = own.locks
  arguments : m.arguments.Alike own.arguments
  output : m.output = printed ++ own.output
  methods : m.methods.Alike own.methods

/-- On machines that run in parallel the programs end alike, and the machines still do. -/
def Tracks (program : Exec H α) (image : Exec K α) : Prop :=
  ∀ marked ahead printed, Mirrors (Parallel marked ahead printed) program image

section

variable {marked : Prop} {ahead : List Frame} {printed : Bytes} {m : Machine H} {own : Machine K}

theorem Parallel.emit (h : Parallel marked ahead printed m own) (event event' : Event) :
    Parallel marked ahead printed (m.emit event) (own.emit event') :=
  ⟨h.limits, h.lane, h.waiting, h.status, h.locks, h.arguments, h.output, h.methods⟩

/-- Machines that run in parallel are both complete, or each has a frame to run. -/
theorem Parallel.lane_cases (h : Parallel marked ahead printed m own) :
    (m.lane = [] ∧ own.lane = []) ∨ ∃ top top' rest rest', m.lane = top :: rest ∧
      own.lane = top' :: rest' ∧ top.Alike (marked ∨ rest ≠ []) top' ∧ Lane.Alike marked rest rest' := by
  have hlane := h.lane
  generalize m.lane = lane, own.lane = lane' at hlane
  cases hlane with
  | nil => exact .inl ⟨rfl, rfl⟩
  | cons hframe hrest => exact .inr ⟨_, _, _, _, rfl, rfl, hframe, hrest⟩

end

theorem tracks_pure (a : α) : Tracks (pure a : Exec H α) (pure a : Exec K α) :=
  fun _ _ _ => mirrors_pure a

theorem tracks_bind {program : Exec H α} {image : Exec K α} {next : α → Exec H β}
    {nextImage : α → Exec K β} (hprogram : Tracks program image)
    (hnext : ∀ a, Tracks (next a) (nextImage a)) : Tracks (program >>= next) (image >>= nextImage) :=
  fun marked ahead printed =>
    mirrors_bind (hprogram marked ahead printed) fun a => hnext a marked ahead printed

theorem tracks_onTop {op : Frame.Op α} (hop : ∀ marked, Mirrors (Frame.Alike marked) op op) :
    Tracks (onTop op : Exec H α) (onTop op : Exec K α) := by
  intro marked ahead printed m own h
  unfold onTop
  rcases h.lane_cases with ⟨hm, hown⟩ | ⟨top, top', rest, rest', hm, hown, hframe, hrest⟩
  · rw [hm, hown]
    exact .error _ h
  · rw [hm, hown]
    have hend := hop _ _ _ hframe
    dsimp only
    generalize op top = left, op top' = right at hend
    cases hend with
    | ok value hframe => exact .ok value { h with lane := .cons hframe hrest }
    | error e hframe => exact .error e { h with lane := .cons hframe hrest }

theorem tracks_onStack {op : Buffer.Op α} (hop : Mirrors Buffer.Alike op op) :
    Tracks (onStack op : Exec H α) (onStack op : Exec K α) :=
  tracks_onTop fun _ => Frame.mirrors_onStack hop

theorem tracks_onArguments {op : Buffer.Op α} (hop : Mirrors Buffer.Alike op op) :
    Tracks (onArguments op : Exec H α) (onArguments op : Exec K α) := by
  intro marked ahead printed m own h
  have hend := hop _ _ h.arguments
  unfold onArguments
  generalize op m.arguments = left, op own.arguments = right at hend
  cases hend with
  | ok value harguments => exact .ok value { h with arguments := harguments }
  | error e harguments => exact .error _ { h with arguments := harguments }

theorem tracks_onMethods {op : Store.Op α} (hop : Mirrors Store.Alike op op) :
    Tracks (onMethods op : Exec H α) (onMethods op : Exec K α) := by
  intro marked ahead printed m own h
  have hend := hop _ _ h.methods
  unfold onMethods
  generalize op m.methods = left, op own.methods = right at hend
  cases hend with
  | ok value hmethods => exact .ok value { h with methods := hmethods }
  | error e hmethods => exact .error _ { h with methods := hmethods }

theorem tracks_counter : Tracks (counter : Exec H Nat) (counter : Exec K Nat) := by
  intro marked ahead printed m own h
  unfold counter
  rcases h.lane_cases with ⟨hm, hown⟩ | ⟨top, top', rest, rest', hm, hown, hframe, hrest⟩
  · rw [hm, hown]
    exact .error _ h
  · rw [hm, hown]
    dsimp only
    rw [hframe.pc]
    exact .ok _ h

theorem tracks_announce (opcode : Opcode) :
    Tracks (announce opcode : Exec H Unit) (announce opcode : Exec K Unit) :=
  fun _ _ _ _ _ h => .ok () (h.emit _ _)

theorem tracks_fetch : Tracks (fetch : Exec H (Option UInt8)) (fetch : Exec K (Option UInt8)) := by
  intro marked ahead printed m own h
  unfold fetch
  rcases h.lane_cases with ⟨hm, hown⟩ | ⟨top, top', rest, rest', hm, hown, hframe, hrest⟩
  · rw [hm, hown]
    exact .ok none h
  · rw [hm, hown]
    dsimp only
    rw [hframe.pc]
    refine tracks_bind (tracks_onMethods (Store.mirrors_loadByte Store.lookalikes_alike _)) (fun byte => ?_) _ _ _ m own h
    exact tracks_bind (tracks_onTop fun _ => Frame.mirrors_skip 1) fun _ => tracks_pure _

/-! ## Instructions that stay in the frame -/

theorem tracks_immediateHalf : Tracks (immediateHalf : Exec H UInt16) (immediateHalf : Exec K UInt16) :=
  tracks_bind tracks_counter fun _ =>
    tracks_bind (tracks_onMethods (Store.mirrors_loadHalf Store.lookalikes_alike _)) fun _ =>
      tracks_bind (tracks_onTop fun _ => Frame.mirrors_skip 2) fun _ => tracks_pure _

theorem tracks_immediateWord : Tracks (immediateWord : Exec H UInt64) (immediateWord : Exec K UInt64) :=
  tracks_bind tracks_counter fun _ =>
    tracks_bind (tracks_onMethods (Store.mirrors_loadWord Store.lookalikes_alike _)) fun _ =>
      tracks_bind (tracks_onTop fun _ => Frame.mirrors_skip wordSize) fun _ => tracks_pure _

theorem tracks_popIdentifier :
    Tracks (popIdentifier : Exec H Identifier) (popIdentifier : Exec K Identifier) :=
  tracks_bind (tracks_onStack Buffer.mirrors_pop) fun _ => tracks_pure _

theorem tracks_pushImmediate : Tracks (pushImmediate : Exec H Unit) (pushImmediate : Exec K Unit) :=
  tracks_bind tracks_immediateWord fun _ => tracks_onStack (Buffer.mirrors_push _)

/-- How a word is written into a local frame, be it the running frame's or the next one's. -/
theorem mirrors_ensure_write (offset : Nat) (word : UInt64) :
    Mirrors Buffer.Alike (do Buffer.ensure (offset + wordSize); Buffer.write offset word)
      (do Buffer.ensure (offset + wordSize); Buffer.write offset word) :=
  mirrors_bind (Buffer.mirrors_ensure _) fun _ => Buffer.mirrors_write _ _

theorem tracks_passArgument : Tracks (passArgument : Exec H Unit) (passArgument : Exec K Unit) :=
  tracks_bind tracks_immediateHalf fun _ =>
    tracks_bind (tracks_onStack Buffer.mirrors_peek) fun _ =>
      tracks_bind (tracks_onArguments (mirrors_ensure_write _ _)) fun _ =>
        tracks_onStack Buffer.mirrors_drop

theorem tracks_loadLocal : Tracks (loadLocal : Exec H Unit) (loadLocal : Exec K Unit) := by
  refine tracks_bind tracks_immediateHalf fun offset => tracks_onTop fun marked => ?_
  exact mirrors_bind (Frame.mirrors_onLocals (Buffer.mirrors_read _)) fun _ =>
    Frame.mirrors_onStack (Buffer.mirrors_push _)

theorem tracks_storeLocal : Tracks (storeLocal : Exec H Unit) (storeLocal : Exec K Unit) := by
  refine tracks_bind tracks_immediateHalf fun offset => tracks_onTop fun marked => ?_
  exact mirrors_bind (Frame.mirrors_onStack Buffer.mirrors_peek) fun _ =>
    mirrors_bind (Frame.mirrors_onLocals (mirrors_ensure_write _ _)) fun _ =>
      Frame.mirrors_onStack Buffer.mirrors_drop

theorem tracks_jumpIfEqual : Tracks (jumpIfEqual : Exec H Unit) (jumpIfEqual : Exec K Unit) := by
  refine tracks_bind (tracks_onStack Buffer.mirrors_peekTwo) fun words => ?_
  dsimp only
  split
  · exact tracks_bind tracks_immediateHalf fun _ => tracks_onTop fun _ => Frame.mirrors_jump _
  · exact tracks_onTop fun _ => Frame.mirrors_skip 2

end Machine

end LaneMachine
