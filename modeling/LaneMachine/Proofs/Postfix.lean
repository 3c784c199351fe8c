import LaneMachine.Proofs.Throws
set_option autoImplicit false

/-!
# Compiled arithmetic

Sums and differences of constants compile to postfix code: a constant is pushed, and an operator
follows the code of both its operands.  A session that runs this code and returns the word on top
prints the value of the expression, modulo the span of a word, or runs out of stack
(`Session.evaluates`).  The stack that an expression needs is known beforehand (`Expr.need`).

The induction is over the expression.  It is stated for its code anywhere in a program and for any
bytes that are on the stack already, because the second operand finds the first one there.
-/

namespace LaneMachine

/-! ## Expressions and their code -/

/-- The operators of an expression. -/
inductive Operator where
  | plus
  | minus
  deriving DecidableEq, Repr

namespace Operator

/-- What an operator does to numbers. -/
def apply : Operator → Int → Int → Int
  | .plus => (· + ·)
  | .minus => (· - ·)

/-- What its instruction does to words. -/
def combine : Operator → UInt64 → UInt64 → UInt64
  | .plus => (· + ·)
  | .minus => (· - ·)

/-- The instruction. -/
def opcode : Operator → Opcode
  | .plus => .iAdd
  | .minus => .iSub

theorem ofInt_apply (operator : Operator) (a b : Int) :
    UInt64.ofInt (operator.apply a b) = operator.combine (UInt64.ofInt a) (UInt64.ofInt b) := by
  cases operator with
  | plus => exact UInt64.ofInt_add a b
  | minus =>
    calc UInt64.ofInt (a - b) = UInt64.ofInt (a + -b) := by rw [Int.sub_eq_add_neg]
      _ = UInt64.ofInt a + -UInt64.ofInt b := by rw [UInt64.ofInt_add, UInt64.ofInt_neg]
      _ = UInt64.ofInt a - UInt64.ofInt b := (UInt64.sub_eq_add_neg _ _).symm

theorem works (operator : Operator) {code : Option Bytes} {frame : Frame} {arguments stack : Buffer}
    (h : Buffer.combineTwo operator.combine frame.stack = .ok () stack) :
    frame.Works code arguments operator.opcode { frame with stack } arguments := by
  cases operator with
  | plus => exact .iAdd h
  | minus => exact .iSub h

end Operator

/-- Sums and differences of 64-bit constants. -/
inductive Expr where
  | constant (value : Int64)
  | binary (operator : Operator) (left right : Expr)
  deriving DecidableEq

namespace Expr

/-- The number that the expression stands for. -/
def value : Expr → Int
  | .constant value => value.toInt
  | .binary operator left right => operator.apply left.value right.value

/-- How many words its code has on the stack at most. -/
def need : Expr → Nat
  | .constant _ => 1
  | .binary _ left right => max left.need (1 + right.need)

/-- Its code. -/
def code : Expr → List UInt8
  | .constant value => Opcode.pushC64.byte :: bytesOfWord value.toUInt64
  | .binary operator left right => left.code ++ right.code ++ [operator.opcode.byte]

/-- The word that its code leaves on the stack. -/
def word (e : Expr) : UInt64 :=
  UInt64.ofInt e.value

theorem toNat_word (e : Expr) : e.word.toNat = (e.value % UInt64.size).toNat := by
  have hspan : (0 : Int) < UInt64.size := by decide
  have hlt := Int.emod_lt_of_pos e.value hspan
  have hle := Int.emod_nonneg e.value (Int.ne_of_gt hspan)
  have hword : (e.value % UInt64.size).toNat < UInt64.size := by omega
  exact UInt64.toNat_ofNat_of_lt' hword

theorem word_constant (value : Int64) : (constant value).word = value.toUInt64 := by
  have hbits : BitVec.ofInt 64 value.toInt = value.toUInt64.toBitVec := BitVec.ofInt_toInt
  apply UInt64.toNat_inj.mp
  calc (constant value).word.toNat = (value.toInt % UInt64.size).toNat := toNat_word _
    _ = (BitVec.ofInt 64 value.toInt).toNat := by rw [BitVec.toNat_ofInt]
    _ = value.toUInt64.toNat := congrArg BitVec.toNat hbits

theorem word_binary (operator : Operator) (left right : Expr) :
    (binary operator left right).word = operator.combine left.word right.word :=
  operator.ofInt_apply left.value right.value

end Expr

namespace Session

variable {H : Type} [Heap H] (session : Session H)

/-! ## One frame running code -/

/-- After `n` steps one frame is left and no lane waits.  The frame is at `pc` of the code, has these
bytes on its stack, and nothing was printed yet. -/
structure At (code : List UInt8) (n pc : Nat) (stack : List UInt8) : Prop where
  lane : ∃ frame, (session.state n).lane = [frame] ∧ frame.pc = pc ∧
    frame.stack.contents.toList = stack
  waiting : (session.state n).waiting = []
  output : (session.state n).output = #[]
  selected : (session.state n).methods.selected? = some code.toArray

/-- The session completes with this outcome, and keeps it. -/
def Ends (outcome : Outcome) : Prop :=
  ∃ n, ∀ k, n ≤ k → (session.state k).lane = [] ∧ (session.state k).outcome = outcome

variable {session} {code before after stack : List UInt8} {n : Nat}

theorem ends_of_complete {outcome : Outcome} (hlane : (session.state n).lane = [])
    (houtcome : (session.state n).outcome = outcome) : session.Ends outcome := by
  refine ⟨n, fun k hle => ?_⟩
  have hstays : session.state k = session.state n := by
    induction hle with
    | refl => rfl
    | step hle ih =>
      rw [state_succ, ih, Machine.step_of_complete _ hlane]
  rw [hstays]
  exact ⟨hlane, houtcome⟩

theorem ceiling_of_mem (session : Session H) (n : Nat) {frame : Frame}
    (hmem : frame ∈ (session.state n).lane) :
    frame.stack.ceiling = session.limits.maxOperandStack.toNat := by
  rw [← (session.fixed_state n).1]
  exact ((session.bounded_state n).lane frame hmem).stack.ceiling_eq

theorem At.first (h : session.methods.chunk? session.app .dispatcher = some code.toArray) :
    session.At code 0 0 [] := by
  obtain ⟨buffer, -, -, hfirst⟩ := session.exists_first_eq
  have hstart : session.state 0 = _ := hfirst
  refine ⟨?_, ?_, ?_, ?_⟩
  · rw [hstart]
    exact ⟨_, rfl, rfl, rfl⟩
  · rw [hstart]
    rfl
  · rw [hstart]
    rfl
  · rw [hstart]
    exact h

/-- The opcode of the next step is the byte that the code goes on with. -/
theorem At.opcode? {opcode : Opcode} (hat : session.At code n before.length stack)
    (hcode : code = before ++ opcode.byte :: after) : (session.state n).opcode? = some opcode := by
  obtain ⟨frame, hlane, hpc, -⟩ := hat.lane
  apply Machine.opcode?_of_byte hlane
  rw [hat.selected, Option.bind_some, hpc, hcode, Bytes.getElem?_at_length]

theorem At.works {pc : Nat} (hat : session.At code n pc stack) {frame worked : Frame}
    (hlane : (session.state n).lane = [frame]) {opcode : Opcode}
    (hopcode : (session.state n).opcode? = some opcode)
    (hworks : { frame with pc := frame.pc + 1 }.Works (some code.toArray) (session.state n).arguments
      opcode worked (session.state n).arguments) :
    session.At code (n + 1) worked.pc worked.stack.contents.toList := by
  rw [← hat.selected] at hworks
  obtain ⟨methods, hmethods, hstep⟩ := Machine.step_of_works hlane hopcode hworks
  rw [← state_succ] at hstep
  refine ⟨?_, ?_, ?_, ?_⟩
  · rw [hstep]
    exact ⟨worked, rfl, rfl, rfl⟩
  · rw [hstep]
    exact hat.waiting
  · rw [hstep]
    exact hat.output
  · rw [hstep]
    exact hmethods.selected?_eq.trans hat.selected

/-! ## Instructions -/

section

variable {word : UInt64} (hat : session.At code n before.length stack)

include hat

theorem At.push (hcode : code = before ++ Opcode.pushC64.byte :: (bytesOfWord word ++ after))
    (hroom : stack.length + wordSize ≤ session.limits.maxOperandStack.toNat) :
    session.At code (n + 1) (before.length + 1 + wordSize) (stack ++ bytesOfWord word) := by
  obtain ⟨frame, hlane, hpc, hstack⟩ := hat.lane
  have hceiling := session.ceiling_of_mem n (hlane ▸ List.mem_singleton_self frame)
  have hword := Bytes.word?_behind before Opcode.pushC64.byte word after
  rw [← hcode, ← hpc] at hword
  have hpush := Buffer.push_of_room word (by
    rw [hceiling, Buffer.size_of_toList hstack]
    exact hroom)
  have hafter := hat.works hlane (hat.opcode? hcode) (.pushC64 hword hpush)
  rw [Buffer.contents_append, Array.toList_append, hstack, hpc] at hafter
  exact hafter

theorem At.push_full (hcode : code = before ++ Opcode.pushC64.byte :: (bytesOfWord word ++ after))
    (hfull : session.limits.maxOperandStack.toNat < stack.length + wordSize) :
    session.Ends ⟨#[], .memoryLimitExceeded⟩ := by
  obtain ⟨frame, hlane, hpc, hstack⟩ := hat.lane
  have hceiling := session.ceiling_of_mem n (hlane ▸ List.mem_singleton_self frame)
  have hword := Bytes.word?_behind before Opcode.pushC64.byte word after
  rw [← hcode, ← hpc] at hword
  have hselected : (session.state n).methods.selected?.bind (Bytes.word? · (frame.pc + 1)) =
      some word := by
    rw [hat.selected, Option.bind_some, hword]
  have hfault := Machine.fault?_of_push_full hlane (hat.opcode? hcode) hselected (by
    rw [hceiling, Buffer.size_of_toList hstack]
    exact hfull)
  have hcaught := Machine.caught_of_fault (session.bounded_state n) hfault
  rw [hlane, ← state_succ] at hcaught
  refine ends_of_complete hcaught.lane ?_
  rw [Machine.outcome, hcaught.output, hcaught.status_eq, hat.output]
  rfl

theorem At.combine {operator : Operator} (hcode : code = before ++ operator.opcode.byte :: after)
    {below : List UInt8} {x y : UInt64} (hwords : stack = below ++ (bytesOfWord x ++ bytesOfWord y)) :
    session.At code (n + 1) (before.length + 1) (below ++ bytesOfWord (operator.combine x y)) := by
  obtain ⟨frame, hlane, hpc, hstack⟩ := hat.lane
  obtain ⟨combined, hcombine, hbytes⟩ :=
    Buffer.combineTwo_of_words (hstack.trans hwords) operator.combine
  have hafter := hat.works hlane (hat.opcode? hcode) (operator.works hcombine)
  rw [hbytes, hpc] at hafter
  exact hafter

/-- A return from the only frame prints the word on top. -/
theorem At.ret (hcode : code = before ++ Opcode.ret64.byte :: after)
    (hwords : stack = bytesOfWord word) : session.Ends ⟨(bytesOfWord word).toArray, .noError⟩ := by
  obtain ⟨frame, hlane, hpc, hstack⟩ := hat.lane
  rw [hwords] at hstack
  have hsize : frame.stack.size = wordSize :=
    (Buffer.size_of_toList hstack).trans (length_bytesOfWord word)
  have hfits : Machine.deliveryFault? [{ frame with pc := frame.pc + 1 }] [] wordSize = none := by
    simp [Machine.deliveryFault?, hsize]
  obtain ⟨worked, hworked, hstep⟩ := Machine.step_of_ret hlane (hat.opcode? hcode) rfl hfits
  have hwaiting : worked.waiting = [] := hworked.waiting.trans hat.waiting
  have hbytes : Bytes.suffix frame.stack.contents wordSize = (bytesOfWord word).toArray := by
    apply Array.toList_inj.mp
    rw [Bytes.toList_suffix, ← Buffer.size, hsize, Nat.sub_self, List.drop_zero, hstack]
  rw [Machine.unwound_last worked _ _ (.inr hwaiting), ← state_succ] at hstep
  apply ends_of_complete
  · rw [hstep]
  · rw [hstep, Machine.outcome, hworked.output, hat.output, Machine.payload, hbytes, Array.empty_append]

end

/-! ## Expressions -/

/-- The code of an expression pushes its word if the stack has room for all that is needed on the way;
else the session runs out of stack. -/
theorem At.evaluate (hat : session.At code n before.length stack) (e : Expr)
    (hcode : code = before ++ (e.code ++ after)) :
    (stack.length + wordSize * e.need ≤ session.limits.maxOperandStack.toNat →
      ∃ k, session.At code k (before ++ e.code).length (stack ++ bytesOfWord e.word)) ∧
    (session.limits.maxOperandStack.toNat < stack.length + wordSize * e.need →
      session.Ends ⟨#[], .memoryLimitExceeded⟩) := by
  induction e generalizing before after stack n with
  | constant value =>
    rw [Expr.need, Nat.mul_one, Expr.word_constant]
    refine ⟨fun hroom => ⟨n + 1, ?_⟩, hat.push_full hcode⟩
    rw [Expr.code, List.length_append, List.length_cons, length_bytesOfWord]
    exact hat.push hcode hroom
  | binary operator left right ihleft ihright =>
    have hleft : code = before ++ (left.code ++ (right.code ++ operator.opcode.byte :: after)) := by
      simpa [Expr.code] using hcode
    have hright : code = (before ++ left.code) ++ (right.code ++ operator.opcode.byte :: after) := by
      rw [hleft, List.append_assoc]
    have hlast : code = (before ++ left.code ++ right.code) ++ operator.opcode.byte :: after := by
      rw [hright, List.append_assoc (before ++ left.code)]
    have hpushed : (stack ++ bytesOfWord left.word).length = stack.length + wordSize := by
      rw [List.length_append, length_bytesOfWord]
      rfl
    obtain ⟨hpasses, hfails⟩ := ihleft hat hleft
    rw [Expr.need]
    simp only [wordSize] at hpasses hfails hpushed ⊢
    refine ⟨fun hroom => ?_, fun hfull => ?_⟩
    · obtain ⟨i, hafter⟩ := hpasses (by omega)
      obtain ⟨j, hboth⟩ := (ihright hafter hright).1 (by
        rw [hpushed, wordSize]
        omega)
      have hdone := hboth.combine hlast (List.append_assoc stack _ _)
      refine ⟨j + 1, ?_⟩
      rw [Expr.word_binary, Expr.code, ← List.append_assoc, ← List.append_assoc, List.length_append]
      exact hdone
    · -- either the left operand runs out of stack already, or the right one does
      by_cases hroom : stack.length + 8 * left.need ≤ session.limits.maxOperandStack.toNat
      · obtain ⟨i, hafter⟩ := hpasses hroom
        apply (ihright hafter hright).2
        rw [hpushed, wordSize]
        omega
      · exact hfails (by omega)

/-- A session whose method is the code of an expression and a return: if the stack may hold as many words
as the expression needs, it prints the value of the expression, modulo the span of a word, as eight
bytes; else it prints nothing and ends because the stack is full.  No other limit matters, nor does what
the session was called with. -/
theorem evaluates (session : Session H) (e : Expr)
    (h : session.methods.chunk? session.app .dispatcher =
      some (e.code ++ [Opcode.ret64.byte]).toArray) :
    session.Ends
      (if 8 * e.need ≤ session.limits.maxOperandStack.toNat then
        { output := (bytesOfNat 8 (e.value % UInt64.size).toNat).toArray, error := .noError }
      else { output := #[], error := .memoryLimitExceeded }) := by
  have hfirst : session.At (e.code ++ [Opcode.ret64.byte]) 0 ([] : List UInt8).length [] :=
    At.first h
  obtain ⟨hpasses, hfails⟩ := hfirst.evaluate e rfl
  split
  · rename_i hroom
    obtain ⟨k, hafter⟩ := hpasses (by simpa [wordSize] using hroom)
    have hends := hafter.ret rfl rfl
    rw [bytesOfWord, Expr.toNat_word] at hends
    exact hends
  · rename_i hfull
    exact hfails (by simpa [wordSize] using hfull)

/-- The expression `3 - (10 + 4)`, which needs three words. -/
def threeMinusSum : Expr :=
  .binary .minus (.constant 3) (.binary .plus (.constant 10) (.constant 4))

/-- A session that evaluates it on a stack with this ceiling. -/
def computesDifference (ceiling : UInt64) : Session Store :=
  let code := threeMinusSum.code ++ [Opcode.ret64.byte]
  .setUp { maxOperandStack := ceiling } ⟨0x11⟩ #[] 0
    (Store.empty.insertChunk ⟨0x11⟩ .dispatcher code.toArray) .empty (Nat.zero_le _)
    (show (1024 : UInt64) ≠ 0 by decide)
    (Machine.allocatesFresh_of_le (show (512 : UInt64).toNat ≤ _ by decide)
      (show (4096 : UInt64).toNat ≤ _ by decide))

theorem evaluates_difference :
    (computesDifference 24).Ends
      { output := #[0xf5, 0xff, 0xff, 0xff, 0xff, 0xff, 0xff, 0xff], error := .noError } ∧
    (computesDifference 23).Ends { output := #[], error := .memoryLimitExceeded } := by
  have hends (ceiling : UInt64) := evaluates (computesDifference ceiling) threeMinusSum rfl
  refine ⟨?_, ?_⟩
  · have hwhole := hends 24
    rw [if_pos (by decide)] at hwhole
    exact hwhole
  · have hshort := hends 23
    rw [if_neg (by decide)] at hshort
    exact hshort

end Session

end LaneMachine
