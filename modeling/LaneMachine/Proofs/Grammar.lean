import LaneMachine.Assembly.Program
import LaneMachine.Proofs.Numerals
import LaneMachine.Proofs.WrittenIdentifier
set_option autoImplicit false

/-!
# The grammar of assembly programs

A token is an integer, a sized number or a mnemonic, and no text is two of these
(`Assembly.Token.exclusive`): how a token begins tells a mnemonic from a number, and its second
character tells a hexadecimal numeral with a `d` among its digits from a sized number.  So it does not
matter in which order the three are tried.

A program is its tokens and nothing else.  It has code exactly if each of them has, and its code is
theirs, one after the other (`Assembly.assembles_token_by_token`).
-/

namespace LaneMachine

namespace Text

/-! ## Letters and digits -/

theorem isAlpha_iff (c : Char) : c.isAlpha = true ↔
    0x41 ≤ c.toNat ∧ c.toNat ≤ 0x5a ∨ 0x61 ≤ c.toNat ∧ c.toNat ≤ 0x7a := by
  have hdef : c.isAlpha = (decide (0x41 ≤ c.val ∧ c.val ≤ 0x5a) ||
      (decide (0x61 ≤ c.val) && decide (c.val ≤ 0x7a))) := rfl
  rw [hdef, Bool.or_eq_true, Bool.and_eq_true, decide_eq_true_eq, decide_eq_true_eq,
    decide_eq_true_eq]
  exact Iff.rfl

theorem isDigit_iff (c : Char) : c.isDigit = true ↔ 0x30 ≤ c.toNat ∧ c.toNat ≤ 0x39 := by
  have hdef : c.isDigit = (decide (0x30 ≤ c.val) && decide (c.val ≤ 0x39)) := rfl
  rw [hdef, Bool.and_eq_true, decide_eq_true_eq, decide_eq_true_eq]
  exact Iff.rfl

theorem not_isAlpha_of_isDigit {c : Char} (h : c.isDigit = true) : ¬ c.isAlpha = true := by
  rw [isAlpha_iff]
  rw [isDigit_iff] at h
  omega

/-! ## The words of a text -/

theorem wordsFrom_eq_filter (begun text : List Char) :
    wordsFrom begun text =
      (text.splitOnPPrepend isBlank begun).filter fun word => !word.isEmpty := by
  induction text generalizing begun with
  | nil =>
    cases begun with
    | nil => rfl
    | cons c begun => simp [wordsFrom]
  | cons c text ih =>
    rw [wordsFrom, List.splitOnPPrepend_cons_eq_if]
    split
    · rw [List.filter_cons, ih]
      cases begun with
      | nil => rfl
      | cons c begun => simp
    · exact ih (c :: begun)

/-- The words of a text are the pieces between its blanks that are not empty. -/
theorem words_eq_filter (text : List Char) :
    words text = (text.splitOnP isBlank).filter fun word => !word.isEmpty :=
  wordsFrom_eq_filter [] text

theorem words_append_of_blank {gap : List Char} (h : ∀ c ∈ gap, isBlank c = true)
    (text : List Char) : words (gap ++ text) = words text := by
  induction gap with
  | nil => rfl
  | cons c gap ih =>
    have hwords := words_append_blank [] (gap ++ text) c (h c List.mem_cons_self)
    rw [List.cons_append]
    exact hwords.trans (ih fun c hc => h c (List.mem_cons_of_mem _ hc))

/-- White space between two texts separates their words. -/
theorem words_append_gap {gap : List Char} (hne : gap ≠ []) (h : ∀ c ∈ gap, isBlank c = true)
    (text more : List Char) : words (text ++ gap ++ more) = words text ++ words more := by
  obtain ⟨c, gap, rfl⟩ := List.exists_cons_of_ne_nil hne
  rw [List.append_assoc, List.cons_append, words_append_blank _ _ _ (h c List.mem_cons_self),
    words_append_of_blank fun c hc => h c (List.mem_cons_of_mem _ hc)]

end Text

namespace Assembly

/-! ## How tokens begin -/

section

variable {text rest : List Char} {c : Char} {value : Int} {width : Nat}

/-- An integer begins with a sign or a digit. -/
theorem IntegerText.head (h : IntegerText text value) :
    ∃ c rest, text = c :: rest ∧ (c = '-' ∨ c = '+' ∨ c.isDigit = true) := by
  cases h with
  | minus _ => exact ⟨'-', _, rfl, .inl rfl⟩
  | plain hmagnitude =>
    obtain ⟨c, rest, htext, hc⟩ := hmagnitude.head
    exact ⟨c, rest, htext, .inr hc⟩

/-- A sized number begins with a plus sign or a digit, and a digit or the letter `d` follows. -/
theorem SizedText.head (h : SizedText text width value) :
    ∃ first second rest, text = first :: second :: rest ∧ (first = '+' ∨ first.isDigit = true) ∧
      (second = 'd' ∨ second.isDigit = true) := by
  cases h with
  | @mk before after _ _ hwidth _ _ _ =>
    obtain ⟨first, tail, rfl, hfirst⟩ := hwidth.head_ten
    cases tail with
    | nil => exact ⟨first, 'd', after, rfl, hfirst, .inl rfl⟩
    | cons second tail =>
      obtain ⟨d, hd⟩ := hwidth.tail List.mem_cons_self
      exact ⟨first, second, tail ++ 'd' :: after, rfl, hfirst, .inr (isDigit_ten hd)⟩

/-- A name of an opcode begins with a letter. -/
theorem head_of_mem_spellings {opcode : Opcode} {name : String} (h : name ∈ opcode.spellings) :
    ∃ c rest, name.toList = c :: rest ∧ c.isAlpha = true := by
  have hall : ∀ opcode ∈ Opcode.all, ∀ name ∈ opcode.spellings,
      name.toList.head?.any Char.isAlpha = true := by decide +kernel
  have hmem : opcode ∈ Opcode.all := by cases opcode <;> decide
  have hhead := hall opcode hmem name h
  cases htext : name.toList with
  | nil =>
    rw [htext] at hhead
    cases hhead
  | cons c rest =>
    rw [htext] at hhead
    exact ⟨c, rest, rfl, hhead⟩

/-! ## No text is two kinds of token -/

theorem not_sizedText_of_integerText (h : IntegerText text value) {v : Int} :
    ¬ SizedText text width v := by
  intro hsized
  obtain ⟨first, second, rest, htext, hfirst, hsecond⟩ := hsized.head
  cases h with
  | minus _ =>
    obtain ⟨rfl, -⟩ := List.cons.inj htext
    exact absurd hfirst (by decide)
  | plain hmagnitude =>
    cases hmagnitude with
    | mk hmark hunsigned _ =>
      obtain ⟨rfl, rfl⟩ | ⟨letter, rfl, halpha, hd⟩ := mark_cases hmark
      · -- a decimal numeral has no `d`
        cases hsized
        exact absurd (hunsigned.ne_d 'd' (by simp)) (by decide)
      · obtain ⟨-, htail⟩ := List.cons.inj htext
        obtain ⟨rfl, -⟩ := List.cons.inj htail
        exact hsecond.elim hd (Text.not_isAlpha_of_isDigit · halpha)

end

namespace Token

/-- The three ways to read a token. -/
def readers : List (List Char → Option Token) :=
  [fun text => (integer? text).map .integer,
   fun text => (sized? text).map fun (width, value) => .sized width value,
   fun text => (Opcode.ofMnemonic? (String.ofList text)).map .opcode]

theorem ofText?_eq_findSome? (text : List Char) :
    ofText? text = readers.findSome? fun read => read text := by
  unfold ofText? readers
  simp only [List.findSome?_cons, List.findSome?_nil]
  cases integer? text with
  | some value => rfl
  | none =>
    cases sized? text with
    | some sized => rfl
    | none =>
      cases Opcode.ofMnemonic? (String.ofList text) with
      | some opcode => rfl
      | none => rfl

theorem ofText?_eq_none_iff {text : List Char} :
    ofText? text = none ↔ ∀ read ∈ readers, read text = none := by
  rw [ofText?_eq_findSome?, List.findSome?_eq_none_iff]

theorem not_alpha_of_number {text : List Char}
    (h : (∃ value, integer? text = some value) ∨ ∃ sized, sized? text = some sized) :
    ∃ c rest, text = c :: rest ∧ ¬ c.isAlpha = true := by
  rcases h with ⟨value, hvalue⟩ | ⟨⟨width, value⟩, hsized⟩
  · obtain ⟨c, rest, htext, rfl | rfl | hdigit⟩ := (integer?_eq_some_iff.mp hvalue).head
    · exact ⟨'-', rest, htext, by decide⟩
    · exact ⟨'+', rest, htext, by decide⟩
    · exact ⟨c, rest, htext, Text.not_isAlpha_of_isDigit hdigit⟩
  · obtain ⟨first, second, rest, htext, rfl | hdigit, -⟩ := (sized?_eq_some_iff.mp hsized).head
    · exact ⟨'+', second :: rest, htext, by decide⟩
    · exact ⟨first, second :: rest, htext, Text.not_isAlpha_of_isDigit hdigit⟩

theorem ofMnemonic?_of_number {text : List Char}
    (h : (∃ value, integer? text = some value) ∨ ∃ sized, sized? text = some sized) :
    Opcode.ofMnemonic? (String.ofList text) = none := by
  obtain ⟨c, rest, rfl, hc⟩ := not_alpha_of_number h
  refine Option.eq_none_iff_forall_ne_some.mpr fun opcode hopcode => ?_
  obtain ⟨first, tail, hname, halpha⟩ :=
    head_of_mem_spellings (Opcode.mem_spellings_of_ofMnemonic? hopcode)
  rw [String.toList_ofList] at hname
  obtain ⟨rfl, -⟩ := List.cons.inj hname
  exact hc halpha

/-- No text is read in two ways. -/
theorem exclusive (text : List Char) :
    readers.Pairwise fun read other => read text = none ∨ other text = none := by
  have hsized : integer? text = none ∨ sized? text = none := by
    refine Classical.or_iff_not_imp_left.mpr fun hne => ?_
    obtain ⟨value, hvalue⟩ := Option.ne_none_iff_exists'.mp hne
    refine Option.eq_none_iff_forall_ne_some.mpr fun ⟨width, v⟩ hsome => ?_
    exact not_sizedText_of_integerText (integer?_eq_some_iff.mp hvalue)
      (sized?_eq_some_iff.mp hsome)
  have hinteger : integer? text = none ∨ Opcode.ofMnemonic? (String.ofList text) = none := by
    refine Classical.or_iff_not_imp_left.mpr fun hne => ?_
    exact ofMnemonic?_of_number (.inl (Option.ne_none_iff_exists'.mp hne))
  have hopcode : sized? text = none ∨ Opcode.ofMnemonic? (String.ofList text) = none := by
    refine Classical.or_iff_not_imp_left.mpr fun hne => ?_
    exact ofMnemonic?_of_number (.inr (Option.ne_none_iff_exists'.mp hne))
  simp only [readers, List.pairwise_cons, List.mem_cons, List.not_mem_nil, or_false,
    forall_eq_or_imp, forall_eq, Option.map_eq_none_iff, List.Pairwise.nil, and_true,
    IsEmpty.forall_iff, implies_true]
  exact ⟨⟨hsized, hinteger⟩, hopcode⟩

end Token

/-- Where at most one of a list has a value, the order of a search does not matter. -/
theorem findSome?_perm {α β : Type} {f : α → Option β} {order list : List α}
    (hperm : order.Perm list) (h : list.Pairwise fun a b => f a = none ∨ f b = none) :
    order.findSome? f = list.findSome? f := by
  induction hperm with
  | nil => rfl
  | cons a _ ih =>
    rw [List.findSome?_cons, List.findSome?_cons, ih (List.pairwise_cons.mp h).2]
  | swap a b rest =>
    rw [List.findSome?_cons, List.findSome?_cons, List.findSome?_cons, List.findSome?_cons]
    rcases (List.pairwise_cons.mp h).1 b List.mem_cons_self with hnone | hnone
    · rw [hnone]
    · rw [hnone]
  | trans _ hsecond ihfirst ihsecond =>
    rw [ihfirst ((hsecond.pairwise_iff fun hab => hab.symm).mpr h), ihsecond h]

/-! ## The bytes of a token -/

theorem take_bytesOfNat {width size : Nat} (h : width ≤ size) (n : Nat) :
    (bytesOfNat size n).take width = bytesOfNat width n := by
  induction width generalizing size n with
  | zero => rfl
  | succ width ih =>
    cases size with
    | zero => exact absurd h (Nat.not_succ_le_zero width)
    | succ size =>
      rw [bytesOfNat, List.take_succ_cons, bytesOfNat, ih (Nat.le_of_succ_le_succ h)]

theorem length_bytesOfInt {width : Nat} (h : width ≤ 8) (value : Int) :
    (Token.bytesOfInt width value).length = width := by
  rw [Token.bytesOfInt, List.length_take, length_bytesOfWord, Nat.min_eq_left h]

theorem toNat_ofInt (value : Int) : ((UInt64.ofInt value).toNat : Int) = value % 2 ^ 64 := by
  have hlow : 0 ≤ value % 2 ^ 64 := Int.emod_nonneg value (by decide)
  have hhigh : value % 2 ^ 64 < 2 ^ 64 := Int.emod_lt_of_pos value (by decide)
  have hlt : (value % 2 ^ 64).toNat < UInt64.size := by
    rw [show UInt64.size = 2 ^ 64 from rfl]
    omega
  calc ((UInt64.ofInt value).toNat : Int) = ((value % 2 ^ 64).toNat : Int) :=
        congrArg Nat.cast (UInt64.toNat_ofNat_of_lt' hlt)
    _ = value % 2 ^ 64 := Int.toNat_of_nonneg hlow

/-- The lowest bytes of an integer spell it modulo their span. -/
theorem natOfBytes_bytesOfInt {width : Nat} (h : width ≤ 8) (value : Int) :
    (natOfBytes (Token.bytesOfInt width value) : Int) = value % 256 ^ width := by
  have hsize : width ≤ wordSize := h
  have hdvd : (256 : Int) ^ width ∣ 2 ^ 64 := pow_dvd_pow 256 h
  rw [Token.bytesOfInt, bytesOfWord, take_bytesOfNat hsize, natOfBytes_bytesOfNat, byteSpan_eq,
    Int.natCast_mod, toNat_ofInt, Nat.cast_pow]
  exact Int.emod_emod_of_dvd value hdvd

namespace Token

/-- The bytes that a token stands for, if it stands for any. -/
def code? (text : List Char) : Option (List UInt8) :=
  (ofText? text).map bytes

variable {text : List Char}

/-- Whatever a reader finds is what the token is. -/
theorem ofText?_of_read {read : List Char → Option Token} {token : Token} (hread : read ∈ readers)
    (htoken : read text = some token) : ofText? text = some token := by
  obtain ⟨before, after, hreaders⟩ := List.append_of_mem hread
  have hfirst : (read :: (before ++ after)).Perm readers := by
    rw [hreaders]
    exact List.perm_middle.symm
  rw [ofText?_eq_findSome?, ← findSome?_perm hfirst (exclusive text),
    List.findSome?_cons_of_isSome (by rw [htoken, Option.isSome_some]), htoken]

theorem code?_of_integer {value : Int} (h : integer? text = some value) :
    code? text = some (bytesOfInt 8 value) := by
  have hread : ofText? text = some (.integer value) :=
    ofText?_of_read List.mem_cons_self (by rw [h]; rfl)
  rw [code?, hread]
  rfl

theorem code?_of_sized {width : Nat} {value : Int} (h : sized? text = some (width, value)) :
    code? text = some (bytesOfInt width value) := by
  have hread : ofText? text = some (.sized width value) :=
    ofText?_of_read (List.mem_cons_of_mem _ List.mem_cons_self) (by rw [h]; rfl)
  rw [code?, hread]
  rfl

theorem code?_of_mnemonic {opcode : Opcode}
    (h : Opcode.ofMnemonic? (String.ofList text) = some opcode) :
    code? text = some [opcode.byte] := by
  have hread : ofText? text = some (.opcode opcode) :=
    ofText?_of_read (List.mem_cons_of_mem _ (List.mem_cons_of_mem _ List.mem_cons_self))
      (by rw [h]; rfl)
  rw [code?, hread]
  rfl

/-- What the readers make of a text: at most one of them accepts it, and each accepts the texts of the
grammar, with the bytes that these stand for. -/
structure Unambiguous (text : List Char) : Prop where
  exclusive : readers.Pairwise fun read other => read text = none ∨ other text = none
  anyOrder : ∀ order : List (List Char → Option Token), order.Perm readers →
    (order.findSome? fun read => read text) = ofText? text
  integer : ∀ value, integer? text = some value ↔ IntegerText text value
  sized : ∀ width value, sized? text = some (width, value) ↔ SizedText text width value
  mnemonic : ∀ opcode, Opcode.ofMnemonic? (String.ofList text) = some opcode ↔
    String.ofList text ∈ opcode.spellings
  integerCode : ∀ value, integer? text = some value → ∃ bytes, code? text = some bytes ∧
    bytes.length = 8 ∧ (natOfBytes bytes : Int) = value % 2 ^ 64
  sizedCode : ∀ width value, sized? text = some (width, value) → ∃ bytes, code? text = some bytes ∧
    bytes.length = width ∧ (natOfBytes bytes : Int) = value % 256 ^ width
  mnemonicCode : ∀ opcode, Opcode.ofMnemonic? (String.ofList text) = some opcode →
    code? text = some [opcode.byte]

theorem unambiguous (text : List Char) : Unambiguous text where
  exclusive := exclusive text
  anyOrder order hperm := by rw [ofText?_eq_findSome?, findSome?_perm hperm (exclusive text)]
  integer _ := integer?_eq_some_iff
  sized _ _ := sized?_eq_some_iff
  mnemonic _ := ⟨Opcode.mem_spellings_of_ofMnemonic?, Opcode.ofMnemonic?_of_mem_spellings⟩
  integerCode value h :=
    ⟨_, code?_of_integer h, length_bytesOfInt (Nat.le_refl 8) value,
      natOfBytes_bytesOfInt (Nat.le_refl 8) value⟩
  sizedCode width value h := by
    have hwidth : width ≤ 8 := by
      cases sized?_eq_some_iff.mp h with
      | mk _ _ hhigh _ => exact hhigh
    exact ⟨_, code?_of_sized h, length_bytesOfInt hwidth value, natOfBytes_bytesOfInt hwidth value⟩
  mnemonicCode _ := code?_of_mnemonic

end Token

/-! ## Programs -/

/-- The code of a list of words is the code of each of them, one after the other. -/
theorem assembleWords_eq_ok_iff {words : List (List Char)} {code : List UInt8} :
    assembleWords words = .ok code ↔
      ∃ parts, List.Forall₂ (fun word part => Token.code? word = some part) words parts ∧
        code = parts.flatten := by
  induction words generalizing code with
  | nil =>
    simp only [assembleWords, Except.ok.injEq, List.forall₂_nil_left_iff, exists_eq_left,
      List.flatten_nil]
    exact eq_comm
  | cons word rest ih =>
    rw [assembleWords]
    constructor
    · intro h
      split at h
      · cases h
      · rename_i token htoken
        split at h
        · cases h
        · rename_i bytes hrest
          cases h
          obtain ⟨parts, hparts, rfl⟩ := ih.mp hrest
          refine ⟨token.bytes :: parts, .cons ?_ hparts, rfl⟩
          rw [Token.code?, htoken, Option.map_some]
    · rintro ⟨parts, hparts, rfl⟩
      cases hparts with
      | @cons _ part _ parts hpart hrest =>
        obtain ⟨token, htoken, rfl⟩ := Option.map_eq_some_iff.mp hpart
        have hassembled : assembleWords rest = .ok parts.flatten := ih.mpr ⟨parts, hrest, rfl⟩
        rw [htoken, hassembled]
        rfl

/-- The first word that stands for nothing is named. -/
theorem exists_of_assembleWords_eq_error {words : List (List Char)} {e : Error}
    (h : assembleWords words = .error e) :
    ∃ before word after, words = before ++ word :: after ∧
      (∀ earlier ∈ before, Token.ofText? earlier ≠ none) ∧ Token.ofText? word = none ∧
      e = .unknownInstruction (String.ofList word) := by
  induction words with
  | nil => cases h
  | cons word rest ih =>
    rw [assembleWords] at h
    split at h
    · rename_i hnone
      cases h
      exact ⟨[], word, rest, rfl, List.forall_mem_nil _, hnone, rfl⟩
    · rename_i token htoken
      split at h
      · rename_i e' hrest
        cases h
        obtain ⟨before, bad, after, rfl, hbefore, hbad, he⟩ := ih hrest
        refine ⟨word :: before, bad, after, rfl, ?_, hbad, he⟩
        refine List.forall_mem_cons.mpr ⟨?_, hbefore⟩
        rw [htoken]
        exact Option.some_ne_none token
      · cases h

theorem assembleWords_fails_iff {words : List (List Char)} :
    (∃ e, assembleWords words = .error e) ↔ ∃ word ∈ words, Token.ofText? word = none := by
  constructor
  · rintro ⟨e, he⟩
    obtain ⟨before, word, after, rfl, -, hword, -⟩ := exists_of_assembleWords_eq_error he
    exact ⟨word, List.mem_append_right before List.mem_cons_self, hword⟩
  · rintro ⟨word, hmem, hword⟩
    cases hassembled : assembleWords words with
    | error e => exact ⟨e, rfl⟩
    | ok code =>
      obtain ⟨parts, hparts, -⟩ := assembleWords_eq_ok_iff.mp hassembled
      have hsome : ∀ word part, Token.code? word = some part →
          Token.ofText? word ≠ none ∧ Token.code? word = some part := by
        intro word part hpart
        obtain ⟨token, htoken, -⟩ := Option.map_eq_some_iff.mp hpart
        exact ⟨by rw [htoken]; exact Option.some_ne_none token, hpart⟩
      have hall := ((List.forall₂_and_left words parts).mp (hparts.imp hsome)).1
      exact absurd hword (hall word hmem)

/-- The tokens of a program: the pieces between white space that are not empty. -/
def tokens (program : String) : List (List Char) :=
  (program.toList.splitOnP Text.isBlank).filter fun token => !token.isEmpty

theorem assemble_eq (program : String) : assemble program = assembleWords (tokens program) := by
  rw [assemble, Text.words_eq_filter, tokens]

theorem tokens_append {program gap more : String} (hne : gap ≠ "")
    (hgap : ∀ c ∈ gap.toList, Text.isBlank c = true) :
    tokens (program ++ gap ++ more) = tokens program ++ tokens more := by
  have hlist : gap.toList ≠ [] := by simpa using hne
  rw [tokens, tokens, tokens, ← Text.words_eq_filter, ← Text.words_eq_filter,
    ← Text.words_eq_filter, String.toList_append, String.toList_append,
    Text.words_append_gap hlist hgap]

/-- How a program is assembled from its tokens. -/
structure Tokenwise (program : String) : Prop where
  fails_iff : (∃ e, assemble program = .error e) ↔
    ∃ token ∈ tokens program, ∀ read ∈ Token.readers, read token = none
  namesFirst : ∀ e, assemble program = .error e → ∃ before token after,
    tokens program = before ++ token :: after ∧
      (∀ earlier ∈ before, ∃ read ∈ Token.readers, read earlier ≠ none) ∧
      (∀ read ∈ Token.readers, read token = none) ∧
      e = .unknownInstruction (String.ofList token)
  concatenates : ∀ code, assemble program = .ok code ↔
    ∃ parts, List.Forall₂ (fun token part => Token.code? token = some part) (tokens program) parts ∧
      code = parts.flatten

theorem tokenwise (program : String) : Tokenwise program := by
  refine ⟨?_, ?_, ?_⟩
  · simp only [assemble_eq, assembleWords_fails_iff, Token.ofText?_eq_none_iff]
  · intro e he
    rw [assemble_eq] at he
    obtain ⟨before, token, after, htokens, hbefore, htoken, rfl⟩ :=
      exists_of_assembleWords_eq_error he
    refine ⟨before, token, after, htokens, ?_, Token.ofText?_eq_none_iff.mp htoken, rfl⟩
    intro earlier hmem
    by_contra hnone
    refine hbefore earlier hmem (Token.ofText?_eq_none_iff.mpr fun read hread => ?_)
    by_contra hne
    exact hnone ⟨read, hread, hne⟩
  · intro code
    rw [assemble_eq]
    exact assembleWords_eq_ok_iff

/-- No text is two kinds of token, and each kind stands for the bytes of its value.  A program fails
at its first token that is of no kind, and else has the code of its tokens, one after the other.  So
programs with white space between them have the code of both. -/
theorem assembles_token_by_token :
    (∀ text, Token.Unambiguous text) ∧ (∀ program, Tokenwise program) ∧
    ∀ program gap more code rest, gap ≠ "" → (∀ c ∈ gap.toList, Text.isBlank c = true) →
      assemble program = .ok code → assemble more = .ok rest →
      assemble (program ++ gap ++ more) = .ok (code ++ rest) := by
  refine ⟨Token.unambiguous, tokenwise, ?_⟩
  intro program gap more code rest hne hgap hcode hrest
  rw [assemble_eq] at hcode hrest ⊢
  obtain ⟨parts, hparts, rfl⟩ := assembleWords_eq_ok_iff.mp hcode
  obtain ⟨others, hothers, rfl⟩ := assembleWords_eq_ok_iff.mp hrest
  rw [tokens_append hne hgap, assembleWords_eq_ok_iff]
  exact ⟨parts ++ others, List.rel_append hparts hothers, List.flatten_append.symm⟩

end Assembly

end LaneMachine
