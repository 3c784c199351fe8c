import LaneMachine.Proofs.Grammar
set_option autoImplicit false

/-!
# Assembled instructions can be told apart again

Instructions are written as mnemonics and numerals with white space between them.  Their code is a run
of bytes without any marks, which is decoded from its first byte on: an opcode says how many bytes of
immediate follow it, and these are read as the machine reads them (`Instruction.decode?`).  Decoding
the code of a program gives the instructions that were written, with their immediates modulo what the
bytes can hold (`Assembly.decodes_to_written`).

The three parts of the argument have nothing in common but the bytes of an instruction: what its words
assemble to, where the words of a text lie, and that decoding these bytes leaves exactly what follows
them.
-/

namespace LaneMachine

/-! ## Instructions and their bytes -/

/-- An opcode and the value of its immediate, zero if it has none. -/
structure Instruction where
  opcode : Opcode
  immediate : Int
  deriving DecidableEq, Repr

namespace Instruction

/-- The instruction with its immediate modulo what its bytes can hold. -/
def stored (instruction : Instruction) : Instruction :=
  { instruction with
    immediate := instruction.immediate % 256 ^ instruction.opcode.immediateSize }

/-- The opcode byte and the bytes of the immediate. -/
def bytes (instruction : Instruction) : List UInt8 :=
  instruction.opcode.byte ::
    Assembly.Token.bytesOfInt instruction.opcode.immediateSize instruction.immediate

/-- An opcode with an immediate of these bytes.  The value is the one that the machine reads. -/
def ofBytes (opcode : Opcode) (part : List UInt8) : Instruction where
  opcode := opcode
  immediate :=
    match opcode.immediateSize with
    | 2 => (halfOfBytes part).toNat
    | 8 => (wordOfBytes part).toNat
    | _ => 0

/-- The instructions that fill the code from its first byte to its last, if there are such. -/
def decode? : List UInt8 → Option (List Instruction)
  | [] => some []
  | byte :: rest =>
    match Opcode.ofByte? byte with
    | none => none
    | some opcode =>
      if rest.length < opcode.immediateSize then none
      else
        (decode? (rest.drop opcode.immediateSize)).map
          (ofBytes opcode (rest.take opcode.immediateSize) :: ·)
termination_by code => code.length
decreasing_by
  rw [List.length_drop, List.length_cons]
  omega

theorem immediateSize_cases (opcode : Opcode) :
    opcode.immediateSize = 0 ∨ opcode.immediateSize = 2 ∨ opcode.immediateSize = 8 := by
  cases opcode <;> decide

/-- Half words and words are read whole. -/
theorem ofBytes_eq {opcode : Opcode} {part : List UInt8} (h : part.length = opcode.immediateSize) :
    ofBytes opcode part = ⟨opcode, natOfBytes part⟩ := by
  have hlt := natOfBytes_lt part
  rw [h] at hlt
  rcases immediateSize_cases opcode with hsize | hsize | hsize
  · rw [hsize] at h
    simp only [ofBytes, hsize, List.length_eq_zero_iff.mp h]
    rfl
  · rw [hsize] at hlt
    simp only [ofBytes, hsize, halfOfBytes, UInt16.toNat_ofNat_of_lt' hlt]
  · rw [hsize] at hlt
    simp only [ofBytes, hsize, wordOfBytes, UInt64.toNat_ofNat_of_lt' hlt]

/-- Decoding takes off the bytes of one instruction and goes on with what follows them. -/
theorem decode?_append (instruction : Instruction) (rest : List UInt8) :
    decode? (instruction.bytes ++ rest) = (decode? rest).map (instruction.stored :: ·) := by
  obtain ⟨opcode, immediate⟩ := instruction
  have hsize : opcode.immediateSize ≤ 8 := by
    rcases immediateSize_cases opcode with hsize | hsize | hsize <;> omega
  have hlength := Assembly.length_bytesOfInt hsize immediate
  have hlong : ¬ (Assembly.Token.bytesOfInt opcode.immediateSize immediate ++ rest).length <
      opcode.immediateSize := by
    rw [List.length_append, hlength]
    omega
  rw [bytes, List.cons_append, decode?, Opcode.ofByte?_byte]
  dsimp only
  rw [if_neg hlong, List.drop_left' hlength, List.take_left' hlength, ofBytes_eq hlength,
    Assembly.natOfBytes_bytesOfInt hsize, stored]

theorem decode?_flatMap (instructions : List Instruction) :
    decode? (instructions.flatMap bytes) = some (instructions.map stored) := by
  induction instructions with
  | nil => rw [List.flatMap_nil, decode?, List.map_nil]
  | cons instruction rest ih =>
    rw [List.flatMap_cons, decode?_append, ih, Option.map_some, List.map_cons]

end Instruction

/-! ## Words with white space between them -/

namespace Text

/-- The text consists of the words, in order, with white space between each and the next. -/
inductive Separated : List (List Char) → List Char → Prop where
  | nil : Separated [] []
  | single (word : List Char) : Separated [word] word
  | cons {word gap next text : List Char} {rest : List (List Char)} : gap ≠ [] →
      (∀ c ∈ gap, isBlank c = true) → Separated (next :: rest) text →
      Separated (word :: next :: rest) (word ++ gap ++ text)

/-- Letters and digits are no white space. -/
theorem not_isBlank_of_isAlphanum {c : Char} (h : c.isAlphanum = true) : isBlank c = false := by
  rw [Char.isAlphanum, Bool.or_eq_true, isAlpha_iff, isDigit_iff] at h
  simp only [isBlank, Bool.or_eq_false_iff, Bool.and_eq_false_iff, decide_eq_false_iff_not,
    beq_eq_false_iff_ne]
  omega

/-- A word is not empty and holds no white space. -/
def IsWord (word : List Char) : Prop :=
  word ≠ [] ∧ ∀ c ∈ word, isBlank c = false

theorem words_of_isWord {word : List Char} (h : IsWord word) : words word = [word] := by
  have hempty : word.isEmpty = false := List.isEmpty_eq_false_iff.mpr h.1
  rw [words_eq_filter, List.splitOnP_eq_singleton h.2, List.filter_singleton, hempty]
  rfl

theorem words_of_separated {text : List Char} {list : List (List Char)} (h : Separated list text)
    (hwords : ∀ word ∈ list, IsWord word) : words text = list := by
  induction h with
  | nil => rfl
  | single word => exact words_of_isWord (hwords word List.mem_cons_self)
  | cons hne hgap _ ih =>
    -- the gap ends the first word, and the rest is a text of its own
    rw [words_append_gap hne hgap, words_of_isWord (hwords _ List.mem_cons_self),
      ih (List.forall_mem_cons.mp hwords).2]
    rfl

end Text

namespace Assembly

/-! ## Tokens are words -/

section

variable {base n width : Nat} {c : Char} {text : List Char} {value : Int}

theorem isAlphanum_of_isDigit {d : Nat} (hbase : base ≤ 16) (h : IsDigit base c d) :
    c.isAlphanum = true := by
  obtain ⟨hd, hc⟩ := h
  have hsmall : d < 16 := Nat.lt_of_lt_of_le hd hbase
  clear hd
  interval_cases d <;> rcases hc with rfl | rfl <;> rfl

theorem UnsignedText.isWord (hbase : base ≤ 16) (h : UnsignedText base text n) :
    Text.IsWord text := by
  refine ⟨h.ne_nil, fun c hc => ?_⟩
  obtain rfl | ⟨d, hd⟩ := h.mem hc
  · rfl
  · exact Text.not_isBlank_of_isAlphanum (isAlphanum_of_isDigit hbase hd)

theorem MagnitudeText.isWord (h : MagnitudeText text n) : Text.IsWord text := by
  cases h with
  | mk hmark hunsigned _ =>
    have hword := hunsigned.isWord (mark_base_le hmark)
    obtain ⟨rfl, -⟩ | ⟨letter, rfl, halpha, -⟩ := mark_cases hmark
    · exact hword
    · have hletter : letter.isAlphanum = true := by rw [Char.isAlphanum, halpha, Bool.true_or]
      exact ⟨List.cons_ne_nil _ _, List.forall_mem_cons.mpr ⟨rfl, List.forall_mem_cons.mpr
        ⟨Text.not_isBlank_of_isAlphanum hletter, hword.2⟩⟩⟩

theorem isWord_cons_minus (h : Text.IsWord text) : Text.IsWord ('-' :: text) :=
  ⟨List.cons_ne_nil _ _, List.forall_mem_cons.mpr ⟨rfl, h.2⟩⟩

theorem IntegerText.isWord (h : IntegerText text value) : Text.IsWord text := by
  cases h with
  | plain hmagnitude => exact hmagnitude.isWord
  | minus hmagnitude => exact isWord_cons_minus hmagnitude.isWord

theorem SignedText.isWord (h : SignedText text value) : Text.IsWord text := by
  cases h with
  | plain hunsigned _ => exact hunsigned.isWord (by decide)
  | minus hspells _ => exact isWord_cons_minus (UnsignedText.plain hspells |>.isWord (by decide))

theorem SizedText.isWord (h : SizedText text width value) : Text.IsWord text := by
  cases h with
  | mk hwidth _ _ hvalue =>
    obtain ⟨hne, hall⟩ := hwidth.isWord (by decide)
    exact ⟨List.append_ne_nil_of_left_ne_nil hne _,
      List.forall_mem_append.mpr ⟨hall, List.forall_mem_cons.mpr ⟨rfl, hvalue.isWord.2⟩⟩⟩

theorem isWord_of_mem_spellings {opcode : Opcode} {name : String} (h : name ∈ opcode.spellings) :
    Text.IsWord name.toList := by
  have hall : ∀ opcode ∈ Opcode.all, ∀ name ∈ opcode.spellings,
      name.toList ≠ [] ∧ name.toList.all Char.isAlphanum = true := by decide +kernel
  have hmem : opcode ∈ Opcode.all := by cases opcode <;> decide
  obtain ⟨hne, hletters⟩ := hall opcode hmem name h
  exact ⟨hne, fun c hc => Text.not_isBlank_of_isAlphanum (List.all_eq_true.mp hletters c hc)⟩

theorem code?_of_mem_spellings {opcode : Opcode} {name : String} (h : name ∈ opcode.spellings) :
    Token.code? name.toList = some [opcode.byte] := by
  apply Token.code?_of_mnemonic
  rw [String.ofList_toList]
  exact Opcode.ofMnemonic?_of_mem_spellings h

end

end Assembly

/-! ## Written instructions -/

namespace Instruction

/-- The words that an instruction can be written with: a name of its opcode and, if it has an
immediate, a number of that width. -/
inductive Written : Instruction → List (List Char) → Prop where
  | bare {opcode : Opcode} {name : String} : name ∈ opcode.spellings → opcode.immediateSize = 0 →
      Written ⟨opcode, 0⟩ [name.toList]
  | half {opcode : Opcode} {name : String} {text : List Char} {value : Int} :
      name ∈ opcode.spellings → opcode.immediateSize = 2 → Assembly.SizedText text 2 value →
      Written ⟨opcode, value⟩ [name.toList, text]
  | word {opcode : Opcode} {name : String} {text : List Char} {value : Int} :
      name ∈ opcode.spellings → opcode.immediateSize = 8 → Assembly.IntegerText text value →
      Written ⟨opcode, value⟩ [name.toList, text]

variable {instruction : Instruction} {block : List (List Char)}

theorem Written.isWord (h : Written instruction block) : ∀ word ∈ block, Text.IsWord word := by
  cases h with
  | bare hname _ =>
    exact List.forall_mem_singleton.mpr (Assembly.isWord_of_mem_spellings hname)
  | half hname _ hvalue | word hname _ hvalue =>
    exact List.forall_mem_cons.mpr
      ⟨Assembly.isWord_of_mem_spellings hname, List.forall_mem_singleton.mpr hvalue.isWord⟩

/-- The code of the words is the bytes of the instruction. -/
theorem Written.code (h : Written instruction block) :
    ∃ parts, List.Forall₂ (fun word part => Assembly.Token.code? word = some part) block parts ∧
      parts.flatten = instruction.bytes := by
  cases h with
  | bare hname hsize =>
    refine ⟨[[_]], .cons (Assembly.code?_of_mem_spellings hname) .nil, ?_⟩
    rw [bytes, hsize]
    rfl
  | half hname hsize hvalue =>
    have hcode := Assembly.Token.code?_of_sized (Assembly.sized?_eq_some_iff.mpr hvalue)
    refine ⟨_, .cons (Assembly.code?_of_mem_spellings hname) (.cons hcode .nil), ?_⟩
    rw [bytes, hsize, List.flatten_cons, List.flatten_singleton]
    rfl
  | word hname hsize hvalue =>
    have hcode := Assembly.Token.code?_of_integer (Assembly.integer?_eq_some_iff.mpr hvalue)
    refine ⟨_, .cons (Assembly.code?_of_mem_spellings hname) (.cons hcode .nil), ?_⟩
    rw [bytes, hsize, List.flatten_cons, List.flatten_singleton]
    rfl

variable {instructions : List Instruction} {blocks : List (List (List Char))}

theorem code_of_written (h : List.Forall₂ Written instructions blocks) :
    ∃ parts, List.Forall₂ (fun word part => Assembly.Token.code? word = some part) blocks.flatten
      parts ∧ parts.flatten = instructions.flatMap bytes := by
  induction h with
  | nil => exact ⟨[], .nil, rfl⟩
  | cons hfirst _ ih =>
    obtain ⟨parts, hparts, hbytes⟩ := hfirst.code
    obtain ⟨others, hothers, hrest⟩ := ih
    refine ⟨parts ++ others, List.rel_append hparts hothers, ?_⟩
    rw [List.flatten_append, hbytes, hrest, List.flatMap_cons]

theorem isWord_of_written (h : List.Forall₂ Written instructions blocks) :
    ∀ word ∈ blocks.flatten, Text.IsWord word := by
  induction h with
  | nil => exact List.forall_mem_nil _
  | cons hfirst _ ih => exact List.forall_mem_append.mpr ⟨hfirst.isWord, ih⟩

/-! ## Printed instructions -/

/-- The range of the immediates that can be written: none, a half word of either sign, or a word and
its negative. -/
def Fits (instruction : Instruction) : Prop :=
  (instruction.opcode.immediateSize = 0 → instruction.immediate = 0) ∧
  (instruction.opcode.immediateSize = 2 →
    -32768 ≤ instruction.immediate ∧ instruction.immediate ≤ 65535) ∧
  (instruction.opcode.immediateSize = 8 → instruction.immediate.natAbs < 2 ^ 64)

instance (instruction : Instruction) : Decidable instruction.Fits :=
  inferInstanceAs (Decidable ((_ → _) ∧ (_ → _) ∧ (_ → _)))

/-- The shortest numeral of a value in a base, with the mark of the base. -/
def numeral (mark : List Char) (base : Nat) (value : Int) : List Char :=
  if value < 0 then '-' :: (mark ++ Nat.toDigits base value.natAbs)
  else mark ++ Nat.toDigits base value.natAbs

/-- The words of an instruction under one name of its opcode.  A word is written in the base of the
mark, a half word in decimal. -/
def print (name : String) (mark : List Char) (base : Nat) (instruction : Instruction) :
    List (List Char) :=
  match instruction.opcode.immediateSize with
  | 0 => [name.toList]
  | 2 => [name.toList, '2' :: 'd' :: numeral [] 10 instruction.immediate]
  | _ => [name.toList, numeral mark base instruction.immediate]

theorem numeral_cases (mark : List Char) (base : Nat) (value : Int) :
    ∃ n, value.natAbs = n ∧
      (value = n ∧ numeral mark base value = mark ++ Nat.toDigits base n ∨
        value = -n ∧ numeral mark base value = '-' :: (mark ++ Nat.toDigits base n)) := by
  refine ⟨value.natAbs, rfl, ?_⟩
  rw [numeral]
  split
  · exact .inr ⟨by omega, rfl⟩
  · exact .inl ⟨by omega, rfl⟩

theorem integerText_numeral {mark : List Char} {base : Nat} (hmark : (mark, base) ∈ Assembly.marks)
    {value : Int} (h : value.natAbs < 2 ^ 64) :
    Assembly.IntegerText (numeral mark base value) value := by
  have hbase : 1 < base := by
    simp only [Assembly.marks, List.mem_cons, Prod.mk.injEq, List.not_mem_nil, or_false] at hmark
    omega
  obtain ⟨n, hn, hcases⟩ := numeral_cases mark base value
  have hdigits := Assembly.MagnitudeText.mk hmark (.plain (Assembly.spells_toDigits hbase n)) (hn ▸ h)
  obtain ⟨rfl, htext⟩ | ⟨rfl, htext⟩ := hcases
  · rw [htext]
    exact .plain hdigits
  · rw [htext]
    exact .minus hdigits

theorem signedText_numeral {value : Int} (h : -32768 ≤ value ∧ value ≤ 65535) :
    Assembly.SignedText (numeral [] 10 value) value := by
  obtain ⟨n, -, ⟨rfl, htext⟩ | ⟨rfl, htext⟩⟩ := numeral_cases [] 10 value
  · rw [htext]
    exact .plain (.plain (Assembly.spells_toDigits (by decide) n)) (by omega)
  · rw [htext]
    exact .minus (Assembly.spells_toDigits (by decide) n) (by omega)

theorem written_print {name : String} {mark : List Char} {base : Nat} (h : instruction.Fits)
    (hname : name ∈ instruction.opcode.spellings) (hmark : (mark, base) ∈ Assembly.marks) :
    Written instruction (instruction.print name mark base) := by
  obtain ⟨opcode, immediate⟩ := instruction
  rcases immediateSize_cases opcode with hsize | hsize | hsize
  · have hzero : immediate = 0 := h.1 hsize
    simp only [print, hsize, hzero]
    exact .bare hname hsize
  · have htwo : Assembly.UnsignedText 10 ['2'] 2 := .plain (Assembly.spells_toDigits (by decide) 2)
    simp only [print, hsize]
    exact .half hname hsize (.mk htwo (by decide) (by decide) (signedText_numeral (h.2.1 hsize)))
  · simp only [print, hsize]
    exact .word hname hsize (integerText_numeral hmark (h.2.2 hsize))

end Instruction

namespace Assembly

open Instruction in
/-- Decoding the code of a program gives the instructions that it was written from, and nothing is
left of the code.  Every instruction whose immediate fits can be written, under each name of its
opcode and in each base. -/
theorem decodes_to_written :
    (∀ (instruction : Instruction), instruction.Fits → ∀ name ∈ instruction.opcode.spellings,
      ∀ mark base, (mark, base) ∈ marks → Written instruction (instruction.print name mark base)) ∧
    ∀ instructions blocks text, List.Forall₂ Written instructions blocks →
      Text.Separated blocks.flatten text →
      ∃ code, assemble (String.ofList text) = .ok code ∧
        decode? code = some (instructions.map stored) := by
  refine ⟨fun _ hfits _ hname _ _ hmark => written_print hfits hname hmark, ?_⟩
  intro instructions blocks text hwritten htext
  obtain ⟨parts, hparts, hbytes⟩ := code_of_written hwritten
  have hwords : Text.words text = blocks.flatten :=
    Text.words_of_separated htext (isWord_of_written hwritten)
  refine ⟨parts.flatten, ?_, ?_⟩
  · rw [assemble, String.toList_ofList, hwords]
    exact assembleWords_eq_ok_iff.mpr ⟨parts, hparts, rfl⟩
  · rw [hbytes, decode?_flatMap]

/-- The least values of both widths, one in hexadecimal under a long name and one in decimal. -/
def leastValues : List Char :=
  "pushConst64\n\t-0x8000000000000000 argC16 2d-32768\x0bret0".toList

theorem separated_leastValues :
    Text.Separated ["pushConst64".toList, "-0x8000000000000000".toList, "argC16".toList,
      "2d-32768".toList, "ret0".toList] leastValues :=
  .cons (List.cons_ne_nil '\n' ['\t']) (List.all_eq_true.mp rfl)
    (.cons (List.cons_ne_nil ' ' []) (List.all_eq_true.mp rfl)
      (.cons (List.cons_ne_nil ' ' []) (List.all_eq_true.mp rfl)
        (.cons (List.cons_ne_nil '\x0b' []) (List.all_eq_true.mp rfl) (.single _))))

open Instruction in
/-- The least values come back as their two's complements. -/
theorem decodes_to_written_leastValues :
    ∃ code, assemble (String.ofList leastValues) = .ok code ∧
      decode? code = some [⟨.pushC64, 9223372036854775808⟩, ⟨.argC16, 32768⟩, ⟨.ret0, 0⟩] := by
  have hword := decodes_to_written.1 ⟨.pushC64, -9223372036854775808⟩ (by decide) "pushConst64"
    (by decide) ['0', 'x'] 16 (by decide)
  have hhalf := decodes_to_written.1 ⟨.argC16, -32768⟩ (by decide) "argC16" (by decide) [] 10
    (by decide)
  have hbare := decodes_to_written.1 ⟨.ret0, 0⟩ (by decide) "ret0" (by decide) [] 10 (by decide)
  exact decodes_to_written.2 _ _ _ (.cons hword (.cons hhalf (.cons hbare .nil)))
    separated_leastValues

end Assembly

end LaneMachine
