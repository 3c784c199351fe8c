import Mathlib.Data.List.Forall2
import Mathlib.Data.Nat.Digits.Defs
import Mathlib.Tactic.IntervalCases
import Mathlib.Tactic.Ring
import LaneMachine.Assembly.Numeral
set_option autoImplicit false

/-!
# What numerals spell

The numbers of the assembly language, as a grammar: which texts are numerals, and which number each of
them spells.  A digit is a character and its value, a run of digits spells the number that has these
digits in a base, and around it stand the signs, the mark of the base and the width that a token may
have.  Each reader of the assembler accepts exactly the texts of the grammar, with their values
(`Assembly.integer?_eq_some_iff`, `Assembly.sized?_eq_some_iff`).

The bases are sixteen at most.  Digits of larger ones could be read, but no mark announces them.
-/

namespace LaneMachine

namespace Assembly

/-! ## Digits -/

/-- `c` is the digit `d` of a base.  Digits from ten on are letters, of either case. -/
def IsDigit (base : Nat) (c : Char) (d : Nat) : Prop :=
  d < base ∧ (c = Nat.digitChar d ∨ c = (Nat.digitChar d).toUpper)

/-- The text is a run of digits, at least one, that spells `n`. -/
def Spells (base : Nat) (text : List Char) (n : Nat) : Prop :=
  text ≠ [] ∧ ∃ digits, List.Forall₂ (IsDigit base) text digits ∧ n = Nat.ofDigits base digits.reverse

section

variable {base : Nat} {c : Char} {d n value : Nat} {text : List Char}

theorem isDigit_of_digitValue? (hbase : base ≤ 16) (h : digitValue? base c = some d) :
    IsDigit base c d := by
  obtain ⟨hvalue, hlt⟩ := Option.filter_eq_some_iff.mp h
  have hd : d < base := of_decide_eq_true hlt
  have hsmall : d < 16 := Nat.lt_of_lt_of_le hd hbase
  have hcode : c.toNat = 48 + d ∧ d < 10 ∨ (c.toNat = 87 + d ∨ c.toNat = 55 + d) ∧ 10 ≤ d := by
    simp only [Bool.and_eq_true, decide_eq_true_eq] at hvalue
    split_ifs at hvalue <;> cases hvalue <;> omega
  refine ⟨hd, ?_⟩
  rcases hcode with ⟨hcode, hten⟩ | ⟨hcode | hcode, hten⟩
  · left
    apply Char.toNat_inj.mp
    rw [hcode, Nat.toNat_digitChar_of_lt_ten hten]
  · left
    apply Char.toNat_inj.mp
    rw [hcode]
    clear h hlt hd hvalue
    interval_cases d <;> rfl
  · right
    apply Char.toNat_inj.mp
    rw [hcode]
    clear h hlt hd hvalue
    interval_cases d <;> rfl

theorem digitValue?_of_isDigit (hbase : base ≤ 16) (h : IsDigit base c d) :
    digitValue? base c = some d := by
  obtain ⟨hd, hc⟩ := h
  have hsmall : d < 16 := Nat.lt_of_lt_of_le hd hbase
  apply Option.filter_eq_some_iff.mpr
  refine ⟨?_, decide_eq_true hd⟩
  clear hd
  interval_cases d <;> rcases hc with rfl | rfl <;> rfl

/-! ## Runs of digits -/

theorem digitsFrom?_eq_some_iff (hbase : base ≤ 16) :
    digitsFrom? base value text = some n ↔ ∃ digits, List.Forall₂ (IsDigit base) text digits ∧
      n = value * base ^ text.length + Nat.ofDigits base digits.reverse := by
  induction text generalizing value with
  | nil =>
    simp only [digitsFrom?, Option.some.injEq, List.forall₂_nil_left_iff, exists_eq_left,
      List.length_nil, pow_zero, mul_one, List.reverse_nil, Nat.ofDigits_nil, add_zero]
    exact eq_comm
  | cons c text ih =>
    -- the digits read so far move up by one place
    have hmove : ∀ (d : Nat) (digits : List Nat), digits.length = text.length →
        (value * base + d) * base ^ text.length + Nat.ofDigits base digits.reverse =
          value * base ^ (c :: text).length + Nat.ofDigits base (d :: digits).reverse := by
      intro d digits hlength
      rw [Nat.ofDigits_reverse_cons, hlength, List.length_cons, pow_succ]
      ring
    rw [digitsFrom?]
    constructor
    · intro h
      cases hdigit : digitValue? base c with
      | none =>
        rw [hdigit] at h
        cases h
      | some d =>
        rw [hdigit] at h
        obtain ⟨digits, hdigits, hn⟩ := ih.mp h
        refine ⟨d :: digits, .cons (isDigit_of_digitValue? hbase hdigit) hdigits, ?_⟩
        rw [hn, hmove d digits hdigits.length_eq.symm]
    · rintro ⟨digits, hdigits, hn⟩
      cases hdigits with
      | @cons _ d _ digits hdigit hrest =>
        rw [digitValue?_of_isDigit hbase hdigit]
        refine ih.mpr ⟨digits, hrest, ?_⟩
        rw [hn, hmove d digits hrest.length_eq.symm]

theorem digits?_eq_some_iff (hbase : base ≤ 16) :
    digits? base text = some n ↔ Spells base text n := by
  rw [digits?, Spells]
  cases text with
  | nil => simp only [List.isEmpty_nil, if_true, reduceCtorEq, ne_eq, not_true_eq_false, false_and]
  | cons c text =>
    simp only [List.isEmpty_cons, Bool.false_eq_true, if_false, ne_eq, reduceCtorEq,
      not_false_eq_true, true_and, digitsFrom?_eq_some_iff hbase, zero_mul, zero_add]

theorem Spells.isDigit (h : Spells base text n) (hc : c ∈ text) : ∃ d, IsDigit base c d := by
  obtain ⟨-, digits, hdigits, -⟩ := h
  have hall := hdigits.imp fun c d hd => (⟨⟨d, hd⟩, hd⟩ : (∃ d, IsDigit base c d) ∧ IsDigit base c d)
  exact ((List.forall₂_and_left text digits).mp hall).1 c hc

/-- The shortest numeral of a number spells it. -/
theorem spells_toDigits (hbase : 1 < base) (n : Nat) : Spells base (Nat.toDigits base n) n := by
  refine ⟨Nat.toDigits_ne_nil, ?_⟩
  induction n using Nat.strongRecOn with
  | ind n ih =>
    rw [Nat.toDigits_eq_if hbase]
    split
    · rename_i hlt
      refine ⟨[n], .cons ⟨hlt, .inl rfl⟩ .nil, ?_⟩
      rw [List.reverse_singleton, Nat.ofDigits_singleton]
    · rename_i hge
      have hpos : 0 < n := by omega
      obtain ⟨digits, hdigits, hn⟩ := ih (n / base) (Nat.div_lt_self hpos hbase)
      have hlast : IsDigit base (Nat.digitChar (n % base)) (n % base) :=
        ⟨Nat.mod_lt n (by omega), .inl rfl⟩
      refine ⟨digits ++ [n % base], List.rel_append hdigits (.cons hlast .nil), ?_⟩
      rw [List.reverse_concat, Nat.ofDigits_cons, ← hn]
      exact (Nat.mod_add_div n base).symm

end

/-! ## The grammar of numerals -/

/-- Digits with an optional plus sign. -/
inductive UnsignedText (base : Nat) : List Char → Nat → Prop where
  | plain {text : List Char} {n : Nat} : Spells base text n → UnsignedText base text n
  | plus {text : List Char} {n : Nat} : Spells base text n → UnsignedText base ('+' :: text) n

/-- The bases and the marks that announce them. -/
def marks : List (List Char × Nat) :=
  [([], 10), (['0', 'x'], 16), (['0', 'X'], 16), (['0', 'o'], 8), (['0', 'O'], 8), (['0', 'b'], 2),
   (['0', 'B'], 2)]

/-- A numeral in a base that it announces, decimal without a mark, in the range of a word. -/
inductive MagnitudeText : List Char → Nat → Prop where
  | mk {mark text : List Char} {base n : Nat} : (mark, base) ∈ marks → UnsignedText base text n →
      n < UInt64.size → MagnitudeText (mark ++ text) n

/-- An integer: a numeral with an optional minus sign in front. -/
inductive IntegerText : List Char → Int → Prop where
  | plain {text : List Char} {n : Nat} : MagnitudeText text n → IntegerText text n
  | minus {text : List Char} {n : Nat} : MagnitudeText text n → IntegerText ('-' :: text) (-n)

/-- A decimal number with an optional sign, in the range of a signed word. -/
inductive SignedText : List Char → Int → Prop where
  | plain {text : List Char} {n : Nat} : UnsignedText 10 text n → n < 2 ^ 63 → SignedText text n
  | minus {text : List Char} {n : Nat} : Spells 10 text n → n ≤ 2 ^ 63 → SignedText ('-' :: text) (-n)

/-- A sized number: a width of one to eight bytes, the letter `d` and a value. -/
inductive SizedText : List Char → Nat → Int → Prop where
  | mk {width value : List Char} {w : Nat} {v : Int} : UnsignedText 10 width w → 1 ≤ w → w ≤ 8 →
      SignedText value v → SizedText (width ++ 'd' :: value) w v

/-! ## Characters of numerals -/

section

variable {base n : Nat} {c : Char} {text : List Char}

theorem not_isDigit_plus (hbase : base ≤ 16) (d : Nat) : ¬ IsDigit base '+' d := by
  intro h
  cases digitValue?_of_isDigit hbase h

theorem isDigit_ten {d : Nat} (h : IsDigit 10 c d) : c.isDigit = true := by
  obtain ⟨hd, hc⟩ := h
  interval_cases d <;> rcases hc with rfl | rfl <;> rfl

theorem mark_base_le {mark : List Char} (h : (mark, base) ∈ marks) : base ≤ 16 := by
  simp only [marks, List.mem_cons, Prod.mk.injEq, List.not_mem_nil, or_false] at h
  omega

/-- Decimal is not marked.  The other marks are a zero and a letter, which is not the `d` of sized
numbers. -/
theorem mark_cases {mark : List Char} (h : (mark, base) ∈ marks) :
    mark = [] ∧ base = 10 ∨ ∃ letter, mark = ['0', letter] ∧ letter.isAlpha = true ∧ letter ≠ 'd' := by
  simp only [marks, List.mem_cons, Prod.mk.injEq, List.not_mem_nil, or_false] at h
  rcases h with hplain | ⟨rfl, -⟩ | ⟨rfl, -⟩ | ⟨rfl, -⟩ | ⟨rfl, -⟩ | ⟨rfl, -⟩ | ⟨rfl, -⟩
  · exact .inl hplain
  all_goals exact .inr ⟨_, rfl, by decide, by decide⟩

theorem UnsignedText.ne_nil (h : UnsignedText base text n) : text ≠ [] := by
  cases h with
  | plain hspells => exact hspells.1
  | plus _ => exact List.cons_ne_nil _ _

theorem UnsignedText.mem (h : UnsignedText base text n) (hc : c ∈ text) :
    c = '+' ∨ ∃ d, IsDigit base c d := by
  cases h with
  | plain hspells => exact .inr (hspells.isDigit hc)
  | plus hspells => exact (List.mem_cons.mp hc).imp_right hspells.isDigit

theorem UnsignedText.mem_ten (h : UnsignedText 10 text n) (hc : c ∈ text) :
    c = '+' ∨ c.isDigit = true :=
  (h.mem hc).imp_right fun ⟨_, hd⟩ => isDigit_ten hd

theorem UnsignedText.head_ten (h : UnsignedText 10 text n) :
    ∃ c rest, text = c :: rest ∧ (c = '+' ∨ c.isDigit = true) := by
  obtain ⟨c, rest, rfl⟩ := List.exists_cons_of_ne_nil h.ne_nil
  exact ⟨c, rest, rfl, h.mem_ten List.mem_cons_self⟩

theorem UnsignedText.tail (h : UnsignedText base text n) (hc : c ∈ text.tail) :
    ∃ d, IsDigit base c d := by
  cases h with
  | plain hspells => exact hspells.isDigit (List.mem_of_mem_tail hc)
  | plus hspells => exact hspells.isDigit hc

theorem MagnitudeText.head (h : MagnitudeText text n) :
    ∃ c rest, text = c :: rest ∧ (c = '+' ∨ c.isDigit = true) := by
  cases h with
  | mk hmark hunsigned _ =>
    obtain ⟨rfl, rfl⟩ | ⟨letter, rfl, -⟩ := mark_cases hmark
    · exact hunsigned.head_ten
    · exact ⟨'0', _, rfl, .inr rfl⟩

/-! ## Reading numerals -/

theorem unsigned?_eq_some_iff (hbase : base ≤ 16) :
    unsigned? base text = some n ↔ UnsignedText base text n := by
  constructor
  · intro h
    unfold unsigned? at h
    split at h
    · exact .plus ((digits?_eq_some_iff hbase).mp h)
    · exact .plain ((digits?_eq_some_iff hbase).mp h)
  · intro h
    cases h with
    | plus hspells => exact (digits?_eq_some_iff hbase).mpr hspells
    | plain hspells =>
      unfold unsigned?
      split
      · obtain ⟨d, hd⟩ := hspells.isDigit List.mem_cons_self
        exact absurd hd (not_isDigit_plus hbase d)
      · exact (digits?_eq_some_iff hbase).mpr hspells

theorem radix_cases (text : List Char) :
    ∃ mark base rest, (mark, base) ∈ marks ∧ text = mark ++ rest ∧ radix text = (base, rest) := by
  unfold radix
  split
  case h_7 => exact ⟨[], 10, text, by decide, rfl, rfl⟩
  all_goals exact ⟨['0', _], _, _, by decide, rfl, rfl⟩

theorem radix_of_mark {mark : List Char} (hmark : (mark, base) ∈ marks) (hne : mark ≠ [])
    (text : List Char) : radix (mark ++ text) = (base, text) := by
  simp only [marks, List.mem_cons, Prod.mk.injEq, List.not_mem_nil, or_false] at hmark
  rcases hmark with ⟨rfl, rfl⟩ | ⟨rfl, rfl⟩ | ⟨rfl, rfl⟩ | ⟨rfl, rfl⟩ | ⟨rfl, rfl⟩ | ⟨rfl, rfl⟩ |
    ⟨rfl, rfl⟩
  · exact absurd rfl hne
  all_goals rfl

/-- A decimal numeral announces no other base: its second character is a digit. -/
theorem radix_of_unsignedText (h : UnsignedText 10 text n) : radix text = (10, text) := by
  unfold radix
  split
  case h_7 => rfl
  all_goals
    obtain ⟨d, hd⟩ := h.tail List.mem_cons_self
    exact absurd (isDigit_ten hd) (by decide)

theorem magnitude?_eq_some_iff : magnitude? text = some n ↔ MagnitudeText text n := by
  rw [magnitude?, Option.filter_eq_some_iff, decide_eq_true_eq]
  constructor
  · rintro ⟨hread, hlt⟩
    obtain ⟨mark, base, rest, hmark, rfl, hradix⟩ := radix_cases text
    rw [hradix, unsigned?_eq_some_iff (mark_base_le hmark)] at hread
    exact .mk hmark hread hlt
  · intro h
    cases h with
    | @mk mark rest base _ hmark hunsigned hlt =>
      refine ⟨?_, hlt⟩
      have hradix : radix (mark ++ rest) = (base, rest) := by
        obtain ⟨rfl, rfl⟩ | ⟨letter, rfl, -⟩ := mark_cases hmark
        · exact radix_of_unsignedText hunsigned
        · exact radix_of_mark hmark (List.cons_ne_nil _ _) rest
      rw [hradix]
      exact (unsigned?_eq_some_iff (mark_base_le hmark)).mpr hunsigned

theorem ne_minus_cons (h : ∃ c rest, text = c :: rest ∧ (c = '+' ∨ c.isDigit = true)) :
    ∀ rest, text ≠ '-' :: rest := by
  obtain ⟨c, rest, rfl, hc⟩ := h
  intro tail heq
  obtain rfl := (List.cons.inj heq).1
  exact absurd hc (by decide)

theorem integer?_minus (text : List Char) :
    integer? ('-' :: text) = (magnitude? text).map fun n : Nat => -(n : Int) := by
  rw [integer?]
  cases magnitude? text with
  | none => rfl
  | some n => rfl

theorem integer?_of_head_ne (h : ∀ rest, text ≠ '-' :: rest) :
    integer? text = (magnitude? text).map fun n : Nat => (n : Int) := by
  rw [integer?]
  · cases magnitude? text with
    | none => rfl
    | some n => rfl
  · exact h

/-- Integers are read as the grammar says. -/
theorem integer?_eq_some_iff {value : Int} :
    integer? text = some value ↔ IntegerText text value := by
  constructor
  · intro h
    by_cases hminus : ∃ rest, text = '-' :: rest
    · obtain ⟨rest, rfl⟩ := hminus
      rw [integer?_minus] at h
      obtain ⟨n, hn, rfl⟩ := Option.map_eq_some_iff.mp h
      exact .minus (magnitude?_eq_some_iff.mp hn)
    · rw [integer?_of_head_ne (not_exists.mp hminus)] at h
      obtain ⟨n, hn, rfl⟩ := Option.map_eq_some_iff.mp h
      exact .plain (magnitude?_eq_some_iff.mp hn)
  · intro h
    cases h with
    | minus hmagnitude =>
      rw [integer?_minus, magnitude?_eq_some_iff.mpr hmagnitude, Option.map_some]
    | plain hmagnitude =>
      rw [integer?_of_head_ne (ne_minus_cons hmagnitude.head),
        magnitude?_eq_some_iff.mpr hmagnitude, Option.map_some]

/-- Whether a signed word can hold the value. -/
def inSignedRange (value : Int) : Bool :=
  Int64.minValue.toInt ≤ value && value ≤ Int64.maxValue.toInt

theorem inSignedRange_iff (value : Int) :
    inSignedRange value = true ↔ -2 ^ 63 ≤ value ∧ value < 2 ^ 63 := by
  have hmin : Int64.minValue.toInt = -2 ^ 63 := rfl
  have hmax : Int64.maxValue.toInt = 2 ^ 63 - 1 := rfl
  rw [inSignedRange, hmin, hmax, Bool.and_eq_true, decide_eq_true_eq, decide_eq_true_eq]
  omega

theorem signed?_minus (text : List Char) :
    signed? ('-' :: text) =
      ((digits? 10 text).map fun n : Nat => -(n : Int)).filter inSignedRange := by
  rw [signed?]
  cases digits? 10 text with
  | none => rfl
  | some n => rfl

theorem signed?_of_head_ne (h : ∀ rest, text ≠ '-' :: rest) :
    signed? text = ((unsigned? 10 text).map fun n : Nat => (n : Int)).filter inSignedRange := by
  unfold signed?
  split
  · exact absurd rfl (h _)
  · cases unsigned? 10 text with
    | none => rfl
    | some n => rfl

theorem signed?_eq_some_iff {value : Int} : signed? text = some value ↔ SignedText text value := by
  constructor
  · intro h
    by_cases hminus : ∃ rest, text = '-' :: rest
    · obtain ⟨rest, rfl⟩ := hminus
      rw [signed?_minus, Option.filter_eq_some_iff, inSignedRange_iff] at h
      obtain ⟨hread, hlow, -⟩ := h
      obtain ⟨n, hn, rfl⟩ := Option.map_eq_some_iff.mp hread
      exact .minus ((digits?_eq_some_iff (by decide)).mp hn) (by omega)
    · rw [signed?_of_head_ne (not_exists.mp hminus), Option.filter_eq_some_iff,
        inSignedRange_iff] at h
      obtain ⟨hread, -, hhigh⟩ := h
      obtain ⟨n, hn, rfl⟩ := Option.map_eq_some_iff.mp hread
      exact .plain ((unsigned?_eq_some_iff (by decide)).mp hn) (by omega)
  · intro h
    cases h with
    | minus hspells hle =>
      rw [signed?_minus, (digits?_eq_some_iff (by decide)).mpr hspells, Option.map_some,
        Option.filter_eq_some_iff, inSignedRange_iff]
      exact ⟨rfl, by omega, by omega⟩
    | plain hunsigned hlt =>
      rw [signed?_of_head_ne (ne_minus_cons hunsigned.head_ten),
        (unsigned?_eq_some_iff (by decide)).mpr hunsigned, Option.map_some,
        Option.filter_eq_some_iff, inSignedRange_iff]
      exact ⟨rfl, by omega, by omega⟩

theorem UnsignedText.ne_d (h : UnsignedText 10 text n) : ∀ c ∈ text, (c != 'd') = true := by
  intro c hc
  rw [bne_iff_ne]
  rintro rfl
  exact absurd (h.mem_ten hc) (by decide)

theorem eq_append_of_dropWhile {rest : List Char} (h : text.dropWhile (· != 'd') = c :: rest) :
    text = text.takeWhile (· != 'd') ++ 'd' :: rest := by
  have hhead := List.head?_dropWhile_not (· != 'd') text
  rw [h] at hhead
  have hd : c = 'd' := bne_eq_false_iff_eq.mp hhead
  rw [hd] at h
  rw [← h, List.takeWhile_append_dropWhile]

/-- Sized numbers are read as the grammar says. -/
theorem sized?_eq_some_iff {width : Nat} {value : Int} :
    sized? text = some (width, value) ↔ SizedText text width value := by
  constructor
  · intro h
    unfold sized? at h
    split at h
    · cases h
    · rename_i c rest hdrop
      split at h
      · cases h
      · rename_i w hwidth
        split at h
        · rename_i hrange
          obtain ⟨v, hv, heq⟩ := Option.map_eq_some_iff.mp h
          cases heq
          rw [Bool.and_eq_true, decide_eq_true_eq, decide_eq_true_eq] at hrange
          rw [eq_append_of_dropWhile hdrop]
          exact .mk ((unsigned?_eq_some_iff (by decide)).mp hwidth) hrange.1 hrange.2
            (signed?_eq_some_iff.mp hv)
        · cases h
  · intro h
    cases h with
    | @mk before after _ _ hwidth hlow hhigh hvalue =>
      have htake : (before ++ 'd' :: after).takeWhile (· != 'd') = before := by
        rw [List.takeWhile_append_of_pos hwidth.ne_d, List.takeWhile_cons_of_neg (by decide),
          List.append_nil]
      have hdrop : (before ++ 'd' :: after).dropWhile (· != 'd') = 'd' :: after := by
        rw [List.dropWhile_append_of_pos hwidth.ne_d, List.dropWhile_cons_of_neg (by decide)]
      have hrange : (1 ≤ width && width ≤ 8) = true := by
        rw [Bool.and_eq_true, decide_eq_true_eq, decide_eq_true_eq]
        exact ⟨hlow, hhigh⟩
      rw [sized?, htake, hdrop]
      dsimp only
      rw [(unsigned?_eq_some_iff (by decide)).mpr hwidth]
      dsimp only
      rw [if_pos hrange, signed?_eq_some_iff.mpr hvalue, Option.map_some]

end

end Assembly

end LaneMachine
