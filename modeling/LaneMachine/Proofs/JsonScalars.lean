import Mathlib.Data.List.Forall2
import LaneMachine.Json.Reader
import LaneMachine.Proofs.Grammar
set_option autoImplicit false

/-!
# Numbers and strings of JSON texts

The grammar of the parts of a JSON text that hold no further values, as relations between a value
and the characters that spell it, and the reader's agreement with them.

A natural number has one spelling, its digits without a leading zero.  A number with a sign, a point
or a power of ten is kept as it is spelled.  A string is spelled in two layers: characters and escapes
stand for units, and one unit, or two halves of a surrogate pair, for a character.

For each part there is a pair of statements: what the reader takes off a text spells what it returns
(`readNumber?_sound`, `readString?_sound`), and a spelling is taken off whatever follows it
(`NumberText.read`, `StringText.read`).  A number does not say where it ends, so there what follows
must not go on with it (`EndsNumber`).
-/

namespace LaneMachine

namespace Json

/-! ## The grammar of numbers -/

/-- A run of decimal digits, at least one. -/
def IsDigits (text : List Char) : Prop :=
  text ≠ [] ∧ ∀ c ∈ text, c.isDigit = true

/-- The digits after a point, with the point, or nothing. -/
inductive FractionText : List Char → Prop where
  | absent : FractionText []
  | point {digits : List Char} : IsDigits digits → FractionText ('.' :: digits)

/-- A power of ten, or nothing. -/
inductive ExponentText : List Char → Prop where
  | absent : ExponentText []
  | power {mark : Char} {sign digits : List Char} : mark = 'e' ∨ mark = 'E' →
      sign = [] ∨ sign = ['+'] ∨ sign = ['-'] → IsDigits digits →
      ExponentText (mark :: (sign ++ digits))

/-- The spellings of a number. -/
inductive NumberText : Json → List Char → Prop where
  | natural (n : Nat) : NumberText (.natural n) (Nat.toDigits 10 n)
  | decimal {sign fraction exponent text : List Char} {n : Nat} : sign = [] ∨ sign = ['-'] →
      FractionText fraction → ExponentText exponent → sign ++ fraction ++ exponent ≠ [] →
      text = sign ++ Nat.toDigits 10 n ++ fraction ++ exponent →
      NumberText (.decimal (String.ofList text)) text

/-- The text does not go on with digits. -/
def NoDigit (rest : List Char) : Prop :=
  ∀ c ∈ rest.head?, c.isDigit = false

/-- A number may end before this text. -/
def EndsNumber (rest : List Char) : Prop :=
  ∀ c ∈ rest.head?, c.isDigit = false ∧ c ≠ '.' ∧ c ≠ 'e' ∧ c ≠ 'E'

/-! ## Digits -/

section

variable {c : Char} {n : Nat} {text rest digits : List Char}

theorem isDigit_eq (c : Char) : isDigit c = c.isDigit := by
  rw [Bool.eq_iff_iff, Text.isDigit_iff, isDigit, Bool.and_eq_true, decide_eq_true_eq,
    decide_eq_true_eq]

theorem readDigits?_sound (h : readDigits? text = some (digits, rest)) :
    text = digits ++ rest ∧ IsDigits digits := by
  rw [readDigits?] at h
  split at h
  · cases h
  · rename_i hne
    obtain ⟨rfl, rfl⟩ := Prod.mk.inj (Option.some.inj h)
    refine ⟨List.takeWhile_append_dropWhile.symm, hne, fun c hc => ?_⟩
    rw [← isDigit_eq]
    exact List.all_eq_true.mp List.all_takeWhile c hc

theorem IsDigits.read (h : IsDigits digits) (hrest : NoDigit rest) :
    readDigits? (digits ++ rest) = some (digits, rest) := by
  have hall : ∀ c ∈ digits, isDigit c = true := fun c hc => by rw [isDigit_eq, h.2 c hc]
  have hstop : rest.takeWhile isDigit = [] ∧ rest.dropWhile isDigit = rest := by
    cases rest with
    | nil => exact ⟨rfl, rfl⟩
    | cons c rest =>
      have hc : ¬ isDigit c = true := by
        rw [isDigit_eq, hrest c rfl]
        exact Bool.false_ne_true
      exact ⟨List.takeWhile_cons_of_neg hc, List.dropWhile_cons_of_neg hc⟩
  rw [readDigits?, List.takeWhile_append_of_pos hall, List.dropWhile_append_of_pos hall, hstop.1,
    hstop.2, List.append_nil]
  obtain ⟨c, tail, rfl⟩ := List.exists_cons_of_ne_nil h.1
  rfl

theorem digitChar_sub (h : c.isDigit = true) :
    c.toNat - 48 < 10 ∧ Nat.digitChar (c.toNat - 48) = c := by
  rw [Text.isDigit_iff] at h
  have hlt : c.toNat - 48 < 10 := by omega
  refine ⟨hlt, Char.toNat_inj.mp ?_⟩
  rw [Nat.toNat_digitChar_of_lt_ten hlt]
  omega

/-- Digits that follow a positive number are its further digits. -/
theorem toDigits_ofDigitChars (hn : 0 < n) (h : ∀ c ∈ digits, c.isDigit = true) :
    Nat.toDigits 10 (Nat.ofDigitChars 10 digits n) = Nat.toDigits 10 n ++ digits := by
  induction digits generalizing n with
  | nil => rw [Nat.ofDigitChars_nil, List.append_nil]
  | cons c digits ih =>
    obtain ⟨hc, htail⟩ := List.forall_mem_cons.mp h
    obtain ⟨hlt, hchar⟩ := digitChar_sub hc
    have hstep : Nat.ofDigitChars 10 (c :: digits) n =
        Nat.ofDigitChars 10 digits (10 * n + (c.toNat - 48)) := rfl
    rw [hstep, ih (by omega) htail, ← Nat.toDigits_append_toDigits (by decide) hn hlt,
      Nat.toDigits_of_lt_base hlt, hchar, List.append_assoc, List.singleton_append]

/-- Digits without a leading zero are the digits of the number that they spell. -/
theorem toDigits_natOfDigits (hc : c ≠ '0') (h : ∀ d ∈ c :: digits, d.isDigit = true) :
    Nat.toDigits 10 (natOfDigits (c :: digits)) = c :: digits := by
  obtain ⟨hdigit, htail⟩ := List.forall_mem_cons.mp h
  obtain ⟨hlt, hchar⟩ := digitChar_sub hdigit
  have hpos : 0 < c.toNat - 48 := by
    have hne : c.toNat ≠ 48 := fun heq => hc (Char.toNat_inj.mp heq)
    rw [Text.isDigit_iff] at hdigit
    omega
  have hstep : natOfDigits (c :: digits) = Nat.ofDigitChars 10 digits (c.toNat - 48) := by
    rw [natOfDigits, Nat.ofDigitChars_eq_foldl, List.foldl_cons, Nat.mul_zero, Nat.zero_add]
    rfl
  rw [hstep, toDigits_ofDigitChars hpos htail, Nat.toDigits_of_lt_base hlt, hchar,
    List.singleton_append]

theorem natOfDigits_toDigits (n : Nat) : natOfDigits (Nat.toDigits 10 n) = n :=
  Nat.ofDigitChars_ten_toDigits

theorem isDigits_toDigits (n : Nat) : IsDigits (Nat.toDigits 10 n) :=
  ⟨Nat.toDigits_ne_nil, fun _ hc => Nat.isDigit_of_mem_toDigits (by decide) (by decide) hc⟩

theorem toDigits_eq_cons (hn : 0 < n) : ∃ c tail, Nat.toDigits 10 n = c :: tail ∧ c ≠ '0' := by
  induction n using Nat.strongRecOn with
  | ind n ih =>
    by_cases hlt : n < 10
    · refine ⟨Nat.digitChar n, [], Nat.toDigits_of_lt_base hlt, fun hzero => ?_⟩
      have hcode := congrArg Char.toNat hzero
      rw [Nat.toNat_digitChar_of_lt_ten hlt] at hcode
      have : 48 + n = 48 := hcode
      omega
    · obtain ⟨c, tail, htail, hc⟩ := ih (n / 10) (by omega) (by omega)
      have hsplit : n = 10 * (n / 10) + n % 10 := (Nat.div_add_mod n 10).symm
      refine ⟨c, tail ++ Nat.toDigits 10 (n % 10), ?_, hc⟩
      rw [hsplit, ← Nat.toDigits_append_toDigits (by decide) (by omega) (by omega), htail,
        ← hsplit, List.cons_append]

/-! ## Numbers are read as they are spelled -/

theorem readWhole?_sound (h : readWhole? text = some (digits, rest)) :
    text = digits ++ rest ∧ digits = Nat.toDigits 10 (natOfDigits digits) := by
  unfold readWhole? at h
  split at h
  · obtain ⟨rfl, rfl⟩ := Prod.mk.inj (Option.some.inj h)
    exact ⟨rfl, rfl⟩
  · rename_i hzero
    obtain ⟨rfl, hne, hall⟩ := readDigits?_sound h
    obtain ⟨c, tail, rfl⟩ := List.exists_cons_of_ne_nil hne
    have hc : c ≠ '0' := fun heq => hzero (tail ++ rest) (by rw [heq, List.cons_append])
    exact ⟨rfl, (toDigits_natOfDigits hc hall).symm⟩

theorem readWhole?_toDigits (n : Nat) (hrest : NoDigit rest) :
    readWhole? (Nat.toDigits 10 n ++ rest) = some (Nat.toDigits 10 n, rest) := by
  rcases Nat.eq_zero_or_pos n with rfl | hn
  · rfl
  · obtain ⟨c, tail, htext, hc⟩ := toDigits_eq_cons hn
    have hread := (isDigits_toDigits n).read hrest
    rw [htext] at hread ⊢
    rw [List.cons_append, readWhole?]
    · exact hread
    · intro _ heq
      exact hc (List.cons.inj heq).1

end

section

variable {fraction exponent rest text : List Char} {value : Json} {n : Nat}

theorem readFraction?_sound (h : readFraction? text = some (fraction, rest)) :
    text = fraction ++ rest ∧ FractionText fraction := by
  unfold readFraction? at h
  split at h
  · obtain ⟨⟨digits, tail⟩, hdigits, heq⟩ := Option.map_eq_some_iff.mp h
    obtain ⟨rfl, rfl⟩ := Prod.mk.inj heq
    obtain ⟨rfl, hall⟩ := readDigits?_sound hdigits
    exact ⟨rfl, .point hall⟩
  · obtain ⟨rfl, rfl⟩ := Prod.mk.inj (Option.some.inj h)
    exact ⟨rfl, .absent⟩

theorem FractionText.read (h : FractionText fraction)
    (hrest : ∀ c ∈ rest.head?, c.isDigit = false ∧ c ≠ '.') :
    readFraction? (fraction ++ rest) = some (fraction, rest) := by
  cases h with
  | absent =>
    rw [List.nil_append, readFraction?]
    intro tail heq
    exact (hrest '.' (by rw [heq]; rfl)).2 rfl
  | point hdigits =>
    rw [List.cons_append, readFraction?, hdigits.read fun c hc => (hrest c hc).1]
    rfl

theorem readExponent?_sound (h : readExponent? text = some (exponent, rest)) :
    text = exponent ++ rest ∧ ExponentText exponent := by
  unfold readExponent? at h
  split at h
  · rename_i mark tail
    split at h
    · rename_i hmark
      split at h
      all_goals
        obtain ⟨⟨digits, tail⟩, hdigits, heq⟩ := Option.map_eq_some_iff.mp h
        obtain ⟨rfl, rfl⟩ := Prod.mk.inj heq
        obtain ⟨rfl, hall⟩ := readDigits?_sound hdigits
      · exact ⟨rfl, .power hmark (.inr (.inl rfl)) hall⟩
      · exact ⟨rfl, .power hmark (.inr (.inr rfl)) hall⟩
      · exact ⟨rfl, .power hmark (.inl rfl) hall⟩
    · obtain ⟨rfl, rfl⟩ := Prod.mk.inj (Option.some.inj h)
      exact ⟨rfl, .absent⟩
  · obtain ⟨rfl, rfl⟩ := Prod.mk.inj (Option.some.inj h)
    exact ⟨rfl, .absent⟩

theorem ExponentText.read (h : ExponentText exponent) (hrest : EndsNumber rest) :
    readExponent? (exponent ++ rest) = some (exponent, rest) := by
  cases h with
  | absent =>
    unfold readExponent?
    split
    · rename_i c tail htext
      obtain ⟨-, -, hlower, hupper⟩ := hrest c (by rw [← List.nil_append rest, htext]; rfl)
      rw [if_neg (not_or.mpr ⟨hlower, hupper⟩), ← htext, List.nil_append]
    · rename_i htext
      rw [← htext, List.nil_append]
  | @power mark sign digits hmark hsign hdigits =>
    have hread := hdigits.read fun c hc => (hrest c hc).1
    rcases hsign with rfl | rfl | rfl
    · -- the first digit is no sign
      have hfirst : ∀ c tail, digits ++ rest = c :: tail → c.isDigit = true := by
        obtain ⟨d, others, rfl⟩ := List.exists_cons_of_ne_nil hdigits.1
        intro c tail heq
        obtain rfl := (List.cons.inj heq).1
        exact hdigits.2 d List.mem_cons_self
      rw [List.nil_append, List.cons_append, readExponent?, if_pos hmark, hread]
      · rfl
      · exact fun tail heq => absurd (hfirst _ tail heq) (by decide)
      · exact fun tail heq => absurd (hfirst _ tail heq) (by decide)
    · rw [List.singleton_append, List.cons_append, List.cons_append, readExponent?, if_pos hmark,
        hread]
      rfl
    · rw [List.singleton_append, List.cons_append, List.cons_append, readExponent?, if_pos hmark,
        hread]
      rfl

/-- What follows the digits before the point does not go on with them. -/
theorem noDigit_exponent (h : ExponentText exponent) (hrest : EndsNumber rest) :
    ∀ c ∈ (exponent ++ rest).head?, c.isDigit = false ∧ c ≠ '.' := by
  cases h with
  | absent => exact fun c hc => ⟨(hrest c hc).1, (hrest c hc).2.1⟩
  | power hmark _ _ =>
    intro c hc
    obtain rfl := Option.some.inj hc
    rcases hmark with rfl | rfl <;> decide

theorem noDigit_fraction (hfraction : FractionText fraction) (h : NoDigit rest) :
    NoDigit (fraction ++ rest) := by
  cases hfraction with
  | absent => exact h
  | point _ =>
    intro c hc
    obtain rfl := Option.some.inj hc
    rfl

/-- The value of a number without a sign, by its parts. -/
def unsigned (n : Nat) (fraction exponent : List Char) : Json :=
  if fraction.isEmpty && exponent.isEmpty then .natural n
  else .decimal (String.ofList (Nat.toDigits 10 n ++ fraction ++ exponent))

theorem unsigned_eq_decimal (h : fraction ++ exponent ≠ []) : unsigned n fraction exponent =
    .decimal (String.ofList (Nat.toDigits 10 n ++ fraction ++ exponent)) := by
  rw [unsigned, if_neg]
  rwa [Bool.and_eq_true, List.isEmpty_iff, List.isEmpty_iff, ← List.append_eq_nil_iff]

theorem readUnsigned?_sound (h : readUnsigned? text = some (value, rest)) :
    ∃ n fraction exponent, FractionText fraction ∧ ExponentText exponent ∧
      text = Nat.toDigits 10 n ++ fraction ++ exponent ++ rest ∧
      value = unsigned n fraction exponent := by
  obtain ⟨⟨whole, afterWhole⟩, hwhole, h⟩ := Option.bind_eq_some_iff.mp h
  obtain ⟨⟨fraction, afterFraction⟩, hfraction, h⟩ := Option.bind_eq_some_iff.mp h
  obtain ⟨⟨exponent, afterExponent⟩, hexponent, h⟩ := Option.bind_eq_some_iff.mp h
  obtain ⟨hwholeText, hdigits⟩ := readWhole?_sound hwhole
  obtain ⟨hfractionText, hfraction'⟩ := readFraction?_sound hfraction
  obtain ⟨hexponentText, hexponent'⟩ := readExponent?_sound hexponent
  have hvalue : unsigned (natOfDigits whole) fraction exponent = value ∧ afterExponent = rest := by
    rw [unsigned, ← hdigits]
    dsimp only at h
    split at h
    · rename_i hempty
      rw [if_pos hempty]
      exact Prod.mk.inj (Option.some.inj h)
    · rename_i hempty
      rw [if_neg hempty]
      exact Prod.mk.inj (Option.some.inj h)
  obtain ⟨rfl, rfl⟩ := hvalue
  refine ⟨natOfDigits whole, fraction, exponent, hfraction', hexponent', ?_, rfl⟩
  rw [hwholeText, hfractionText, hexponentText, ← hdigits, List.append_assoc, List.append_assoc]

theorem readUnsigned?_append (n : Nat) (hfraction : FractionText fraction)
    (hexponent : ExponentText exponent) (hrest : EndsNumber rest) :
    readUnsigned? (Nat.toDigits 10 n ++ fraction ++ exponent ++ rest) =
      some (unsigned n fraction exponent, rest) := by
  have hafter := noDigit_exponent hexponent hrest
  have hnodigit := noDigit_fraction hfraction fun c hc => (hafter c hc).1
  have hwhole : readWhole? (Nat.toDigits 10 n ++ fraction ++ exponent ++ rest) =
      some (Nat.toDigits 10 n, fraction ++ (exponent ++ rest)) := by
    rw [List.append_assoc, List.append_assoc, readWhole?_toDigits n hnodigit]
  simp only [readUnsigned?, hwhole, hfraction.read hafter, hexponent.read hrest,
    Option.bind_eq_bind, Option.bind_some, unsigned, natOfDigits_toDigits]
  split <;> rfl

theorem minus_append (text : List Char) :
    "-" ++ String.ofList text = String.ofList ('-' :: text) := by
  apply String.toList_inj.mp
  simp only [String.toList_append, String.toList_ofList]
  rfl

/-- A sign in front is kept with the number. -/
theorem readNumber?_minus (hread : readUnsigned? text = some (unsigned n fraction exponent, rest)) :
    readNumber? ('-' :: text) =
      some (.decimal (String.ofList ('-' :: (Nat.toDigits 10 n ++ fraction ++ exponent))), rest) := by
  rw [readNumber?, hread, ← minus_append]
  by_cases hne : fraction ++ exponent = []
  · obtain ⟨rfl, rfl⟩ := List.append_eq_nil_iff.mp hne
    rw [List.append_nil, List.append_nil, ← Nat.toString_eq_ofList_toDigits]
    rfl
  · rw [unsigned_eq_decimal hne]
    rfl

theorem readNumber?_sound (h : readNumber? text = some (value, rest)) :
    ∃ number, text = number ++ rest ∧ NumberText value number := by
  by_cases hminus : ∃ tail, text = '-' :: tail
  · obtain ⟨tail, rfl⟩ := hminus
    have hunsigned : ∃ found, readUnsigned? tail = some found :=
      (Option.bind_eq_some_iff.mp h).imp fun _ => And.left
    obtain ⟨⟨found, after⟩, hfound⟩ := hunsigned
    obtain ⟨n, fraction, exponent, hfraction, hexponent, htail, rfl⟩ := readUnsigned?_sound hfound
    rw [readNumber?_minus hfound] at h
    obtain ⟨rfl, rfl⟩ := Prod.mk.inj (Option.some.inj h)
    refine ⟨_, ?_, .decimal (.inr rfl) hfraction hexponent (List.cons_ne_nil _ _) rfl⟩
    rw [htail]
    rfl
  · have hread : readNumber? text = readUnsigned? text := by
      rw [readNumber?]
      exact fun tail heq => hminus ⟨tail, heq⟩
    rw [hread] at h
    obtain ⟨n, fraction, exponent, hfraction, hexponent, rfl, rfl⟩ := readUnsigned?_sound h
    refine ⟨_, rfl, ?_⟩
    by_cases hne : fraction ++ exponent = []
    · obtain ⟨rfl, rfl⟩ := List.append_eq_nil_iff.mp hne
      rw [List.append_nil, List.append_nil]
      exact .natural n
    · rw [unsigned_eq_decimal hne]
      exact .decimal (.inl rfl) hfraction hexponent hne rfl

theorem readNumber?_digit (hread : readUnsigned? text = some (value, rest))
    (hdigits : ∃ c tail, text = c :: tail ∧ c.isDigit = true) :
    readNumber? text = some (value, rest) := by
  obtain ⟨c, tail, rfl, hc⟩ := hdigits
  rw [readNumber?, hread]
  intro _ heq
  cases (List.cons.inj heq).1
  cases hc

theorem toDigits_append_eq_cons (n : Nat) (text : List Char) :
    ∃ c tail, Nat.toDigits 10 n ++ text = c :: tail ∧ c.isDigit = true := by
  obtain ⟨hne, hall⟩ := isDigits_toDigits n
  obtain ⟨c, tail, hdigits⟩ := List.exists_cons_of_ne_nil hne
  rw [hdigits] at hall ⊢
  exact ⟨c, tail ++ text, rfl, hall c List.mem_cons_self⟩

theorem NumberText.read (h : NumberText value text) (hrest : EndsNumber rest) :
    readNumber? (text ++ rest) = some (value, rest) := by
  cases h with
  | natural n =>
    refine readNumber?_digit ?_ (toDigits_append_eq_cons n rest)
    have hread := readUnsigned?_append n .absent .absent hrest
    rwa [List.append_nil, List.append_nil] at hread
  | @decimal sign fraction exponent _ n hsign hfraction hexponent hne htext =>
    have hread := readUnsigned?_append n hfraction hexponent hrest
    rcases hsign with rfl | rfl
    · rw [List.nil_append] at hne
      rw [unsigned_eq_decimal hne] at hread
      rw [htext, List.nil_append]
      refine readNumber?_digit hread ?_
      rw [List.append_assoc, List.append_assoc]
      exact toDigits_append_eq_cons n _
    · rw [htext]
      exact readNumber?_minus hread

end

/-! ## The grammar of strings -/

/-- The letters after a backslash and the units that they stand for. -/
def escapes : List (Char × Nat) :=
  [('"', 0x22), ('\\', 0x5c), ('/', 0x2f), ('b', 0x08), ('f', 0x0c), ('n', 0x0a), ('r', 0x0d),
   ('t', 0x09)]

/-- The spellings of a unit: a character as it is, a letter after a backslash, or four digits. -/
inductive UnitText : Nat → List Char → Prop where
  | plain {c : Char} : 0x20 ≤ c.toNat → c ≠ '"' → c ≠ '\\' → UnitText c.toNat [c]
  | escape {letter : Char} {unit : Nat} : (letter, unit) ∈ escapes → UnitText unit ['\\', letter]
  | hex {a b c d : Char} {i j k l : Nat} : Assembly.IsDigit 16 a i → Assembly.IsDigit 16 b j →
      Assembly.IsDigit 16 c k → Assembly.IsDigit 16 d l →
      UnitText (((i * 16 + j) * 16 + k) * 16 + l) ['\\', 'u', a, b, c, d]

/-- The units that stand for a character: its code point, or two halves above the sixteen-bit
range. -/
inductive CharUnits : Char → List Nat → Prop where
  | single (c : Char) : CharUnits c [c.toNat]
  | pair {c : Char} : 0x10000 ≤ c.toNat → CharUnits c
      [0xd800 + (c.toNat - 0x10000) / 0x400, 0xdc00 + (c.toNat - 0x10000) % 0x400]

/-- The units stand for the characters, in order. -/
def UnitsOf (chars : List Char) (units : List Nat) : Prop :=
  ∃ groups, List.Forall₂ CharUnits chars groups ∧ units = groups.flatten

/-- The spellings of a string between its quotes.  Units may stand for no text: half of a surrogate
pair may be alone. -/
inductive StringText : Option String → List Char → Prop where
  | spelled {text : String} {units : List Nat} {parts : List (List Char)} :
      List.Forall₂ UnitText units parts → UnitsOf text.toList units →
      StringText (some text) parts.flatten
  | unpaired {units : List Nat} {parts : List (List Char)} : List.Forall₂ UnitText units parts →
      (∀ chars, ¬ UnitsOf chars units) → StringText none parts.flatten

/-! ## Units are read as they are spelled -/

section

variable {c : Char} {unit : Nat} {units : List Nat} {part text rest : List Char}

theorem hexValue?_eq (c : Char) : hexValue? c = Assembly.digitValue? 16 c := by
  refine Option.ext fun d => ?_
  rw [Assembly.digitValue?, Option.filter_eq_some_iff, hexValue?]
  simp only [Bool.and_eq_true, decide_eq_true_eq]
  split_ifs <;> simp only [Option.some.injEq, false_and, false_iff] <;> omega

theorem hexValue?_eq_some_iff {d : Nat} : hexValue? c = some d ↔ Assembly.IsDigit 16 c d := by
  rw [hexValue?_eq]
  exact ⟨Assembly.isDigit_of_digitValue? (by decide), Assembly.digitValue?_of_isDigit (by decide)⟩

theorem escapedChar?_eq_some_iff : escapedChar? c = some unit ↔ (c, unit) ∈ escapes := by
  constructor
  · intro h
    unfold escapedChar? at h
    split at h
    case h_9 => cases h
    all_goals
      obtain rfl := Option.some.inj h
      decide
  · intro h
    simp only [escapes, List.mem_cons, Prod.mk.injEq, List.not_mem_nil, or_false] at h
    rcases h with ⟨rfl, rfl⟩ | ⟨rfl, rfl⟩ | ⟨rfl, rfl⟩ | ⟨rfl, rfl⟩ | ⟨rfl, rfl⟩ | ⟨rfl, rfl⟩ |
      ⟨rfl, rfl⟩ | ⟨rfl, rfl⟩ <;> rfl

theorem escape_ne_u {letter : Char} (h : (letter, unit) ∈ escapes) : letter ≠ 'u' := by
  rintro rfl
  cases escapedChar?_eq_some_iff.mpr h

/-- Reading takes off one unit and goes on with what follows it. -/
theorem UnitText.read (h : UnitText unit part) (rest : List Char) :
    readUnits? (part ++ rest) = (readUnits? rest).map fun found => (unit :: found.1, found.2) := by
  cases h with
  | @plain c hcontrol hquote hbackslash =>
    have hplain : ¬ (decide (c.toNat < 0x20) || decide (c = '\\')) = true := by
      rw [Bool.or_eq_true, decide_eq_true_eq, decide_eq_true_eq]
      exact not_or.mpr ⟨by omega, hbackslash⟩
    rw [List.singleton_append, readUnits?, if_neg hplain]
    · cases readUnits? rest with
      | none => rfl
      | some found => rfl
    · exact hquote
    · exact fun _ _ _ _ _ heq _ => hbackslash heq
    · exact fun _ _ heq _ => hbackslash heq
  | @escape letter _ hletter =>
    rw [List.cons_append, List.singleton_append, readUnits?, escapedChar?_eq_some_iff.mpr hletter]
    · cases readUnits? rest with
      | none => rfl
      | some found => rfl
    · exact fun _ _ _ _ _ heq _ => escape_ne_u hletter heq
  | @hex a b c d i j k l ha hb hc hd =>
    have hunit : (i * 16 + j) * 256 + k * 16 + l = ((i * 16 + j) * 16 + k) * 16 + l := by omega
    simp only [List.cons_append, List.nil_append, readUnits?, hexValue?_eq_some_iff.mpr ha,
      hexValue?_eq_some_iff.mpr hb, hexValue?_eq_some_iff.mpr hc, hexValue?_eq_some_iff.mpr hd,
      Option.bind_eq_bind, Option.bind_some, hunit]
    cases readUnits? rest with
    | none => rfl
    | some found => rfl

theorem readUnits?_flatten {parts : List (List Char)} (h : List.Forall₂ UnitText units parts)
    (rest : List Char) : readUnits? (parts.flatten ++ '"' :: rest) = some (units, rest) := by
  induction h with
  | nil => rfl
  | cons hunit _ ih =>
    rw [List.flatten_cons, List.append_assoc, hunit.read, ih, Option.map_some]

theorem readUnits?_sound (h : readUnits? text = some (units, rest)) :
    ∃ parts, List.Forall₂ UnitText units parts ∧ text = parts.flatten ++ '"' :: rest := by
  fun_induction readUnits? text generalizing units with
  | case1 => cases h
  | case2 =>
    obtain ⟨rfl, rfl⟩ := Prod.mk.inj (Option.some.inj h)
    exact ⟨[], .nil, rfl⟩
  | case3 a b c d tail ih =>
    obtain ⟨i, hi, h⟩ := Option.bind_eq_some_iff.mp h
    obtain ⟨j, hj, h⟩ := Option.bind_eq_some_iff.mp h
    obtain ⟨k, hk, h⟩ := Option.bind_eq_some_iff.mp h
    obtain ⟨l, hl, h⟩ := Option.bind_eq_some_iff.mp h
    obtain ⟨⟨found, after⟩, hfound, h⟩ := Option.bind_eq_some_iff.mp h
    obtain ⟨rfl, rfl⟩ := Prod.mk.inj (Option.some.inj h)
    obtain ⟨parts, hparts, rfl⟩ := ih hfound
    have hunit : (i * 16 + j) * 256 + k * 16 + l = ((i * 16 + j) * 16 + k) * 16 + l := by omega
    refine ⟨['\\', 'u', a, b, c, d] :: parts, .cons ?_ hparts, rfl⟩
    rw [hunit]
    exact .hex (hexValue?_eq_some_iff.mp hi) (hexValue?_eq_some_iff.mp hj)
      (hexValue?_eq_some_iff.mp hk) (hexValue?_eq_some_iff.mp hl)
  | case4 letter tail _ ih =>
    obtain ⟨unit, hunit, h⟩ := Option.bind_eq_some_iff.mp h
    obtain ⟨⟨found, after⟩, hfound, h⟩ := Option.bind_eq_some_iff.mp h
    obtain ⟨rfl, rfl⟩ := Prod.mk.inj (Option.some.inj h)
    obtain ⟨parts, hparts, rfl⟩ := ih hfound
    exact ⟨['\\', letter] :: parts, .cons (.escape (escapedChar?_eq_some_iff.mp hunit)) hparts, rfl⟩
  | case5 => cases h
  | case6 c tail hquote _ _ hplain ih =>
    obtain ⟨⟨found, after⟩, hfound, h⟩ := Option.bind_eq_some_iff.mp h
    obtain ⟨rfl, rfl⟩ := Prod.mk.inj (Option.some.inj h)
    obtain ⟨parts, hparts, rfl⟩ := ih hfound
    rw [Bool.or_eq_true, decide_eq_true_eq, decide_eq_true_eq, not_or] at hplain
    exact ⟨[c] :: parts, .cons (.plain (by omega) hquote hplain.2) hparts, rfl⟩

/-! ## Characters stand for their units -/

/-- Code points of characters are no halves of surrogate pairs. -/
theorem toNat_cases (c : Char) :
    c.toNat < 0xd800 ∨ 0xdfff < c.toNat ∧ c.toNat < 0x110000 := c.valid

theorem toNat_ofNat {n : Nat} (h : n < 0xd800 ∨ 0xdfff < n ∧ n < 0x110000) :
    (Char.ofNat n).toNat = n := by
  have hvalid : n.isValidChar := h
  rw [Char.ofNat, dif_pos hvalid]
  rfl

theorem isHighSurrogate_iff (unit : Nat) :
    isHighSurrogate unit = true ↔ 0xd800 ≤ unit ∧ unit ≤ 0xdbff := by
  rw [isHighSurrogate, Bool.and_eq_true, decide_eq_true_eq, decide_eq_true_eq]

theorem isLowSurrogate_iff (unit : Nat) :
    isLowSurrogate unit = true ↔ 0xdc00 ≤ unit ∧ unit ≤ 0xdfff := by
  rw [isLowSurrogate, Bool.and_eq_true, decide_eq_true_eq, decide_eq_true_eq]

theorem UnitText.lt (h : UnitText unit part) : unit < 0x110000 := by
  cases h with
  | @plain c _ _ _ =>
    have hc := toNat_cases c
    omega
  | escape hletter =>
    have hall : ∀ pair ∈ escapes, pair.2 < 0x110000 := by decide
    exact hall _ hletter
  | hex ha hb hc hd =>
    have := ha.1
    have := hb.1
    have := hc.1
    have := hd.1
    omega

/-- Reading takes off the units of one character and goes on with what follows them. -/
theorem CharUnits.read (h : CharUnits c units) (rest : List Nat) :
    charsOfUnits? (units ++ rest) = (charsOfUnits? rest).map (c :: ·) := by
  have hc := toNat_cases c
  cases h with
  | single =>
    have hhigh : ¬ isHighSurrogate c.toNat = true := by
      rw [isHighSurrogate_iff]
      omega
    have hlow : ¬ isLowSurrogate c.toNat = true := by
      rw [isLowSurrogate_iff]
      omega
    rw [List.singleton_append, charsOfUnits?.eq_def]
    dsimp only
    rw [if_neg hhigh, if_neg hlow, Char.ofNat_toNat]
  | pair hpair =>
    generalize hoffset : c.toNat - 0x10000 = offset
    have hhigh : isHighSurrogate (0xd800 + offset / 0x400) = true := by
      rw [isHighSurrogate_iff]
      omega
    have hlow : isLowSurrogate (0xdc00 + offset % 0x400) = true := by
      rw [isLowSurrogate_iff]
      omega
    have hcode : 0x10000 + (0xd800 + offset / 0x400 - 0xd800) * 0x400 +
        (0xdc00 + offset % 0x400 - 0xdc00) = c.toNat := by
      omega
    rw [List.cons_append, List.singleton_append, charsOfUnits?, if_pos hhigh, if_pos hlow, hcode,
      Char.ofNat_toNat]

theorem charsOfUnits?_of_unitsOf {chars : List Char} (h : UnitsOf chars units) :
    charsOfUnits? units = some chars := by
  obtain ⟨groups, hgroups, rfl⟩ := h
  induction hgroups with
  | nil => rfl
  | cons hc _ ih => rw [List.flatten_cons, hc.read, ih, Option.map_some]

theorem UnitsOf.cons {chars : List Char} {group : List Nat} (hc : CharUnits c group)
    (h : UnitsOf chars units) : UnitsOf (c :: chars) (group ++ units) := by
  obtain ⟨groups, hgroups, rfl⟩ := h
  exact ⟨group :: groups, .cons hc hgroups, rfl⟩

theorem unitsOf_of_charsOfUnits? {chars : List Char} (hunits : ∀ unit ∈ units, unit < 0x110000)
    (h : charsOfUnits? units = some chars) : UnitsOf chars units := by
  fun_induction charsOfUnits? units generalizing chars with
  | case1 =>
    obtain rfl := Option.some.inj h
    exact ⟨[], .nil, rfl⟩
  | case2 => cases h
  | case3 high hhigh low rest hlow ih =>
    obtain ⟨others, hothers, rfl⟩ := Option.map_eq_some_iff.mp h
    rw [isHighSurrogate_iff] at hhigh
    rw [isLowSurrogate_iff] at hlow
    have hrest := ih (fun unit hmem =>
      hunits unit (List.mem_cons_of_mem _ (List.mem_cons_of_mem _ hmem))) hothers
    have hcode : (Char.ofNat (0x10000 + (high - 0xd800) * 0x400 + (low - 0xdc00))).toNat =
        0x10000 + (high - 0xd800) * 0x400 + (low - 0xdc00) :=
      toNat_ofNat (by omega)
    have hpair := CharUnits.pair (by rw [hcode]; omega)
    rw [hcode] at hpair
    have hfirst : 0xd800 + (0x10000 + (high - 0xd800) * 0x400 + (low - 0xdc00) - 0x10000) / 0x400 =
        high := by omega
    have hsecond : 0xdc00 + (0x10000 + (high - 0xd800) * 0x400 + (low - 0xdc00) - 0x10000) % 0x400 =
        low := by omega
    rw [hfirst, hsecond] at hpair
    exact hrest.cons hpair
  | case4 => cases h
  | case5 => cases h
  | case6 unit rest hhigh hlow ih =>
    obtain ⟨others, hothers, rfl⟩ := Option.map_eq_some_iff.mp h
    rw [isHighSurrogate_iff] at hhigh
    rw [isLowSurrogate_iff] at hlow
    obtain ⟨hlt, hrest⟩ := List.forall_mem_cons.mp hunits
    have hcode : (Char.ofNat unit).toNat = unit := toNat_ofNat (by omega)
    have hsingle := CharUnits.single (Char.ofNat unit)
    rw [hcode] at hsingle
    exact (ih hrest hothers).cons hsingle

/-! ## Strings are read as they are spelled -/

theorem lt_of_spelled {parts : List (List Char)} (h : List.Forall₂ UnitText units parts) :
    ∀ unit ∈ units, unit < 0x110000 := by
  induction h with
  | nil => exact List.forall_mem_nil _
  | cons hunit _ ih => exact List.forall_mem_cons.mpr ⟨hunit.lt, ih⟩

theorem readString?_sound {string : Option String} (h : readString? text = some (string, rest)) :
    ∃ body, text = body ++ '"' :: rest ∧ StringText string body := by
  obtain ⟨⟨units, after⟩, hunits, h⟩ := Option.bind_eq_some_iff.mp h
  obtain ⟨rfl, rfl⟩ := Prod.mk.inj (Option.some.inj h)
  obtain ⟨parts, hparts, rfl⟩ := readUnits?_sound hunits
  refine ⟨parts.flatten, rfl, ?_⟩
  cases hchars : charsOfUnits? units with
  | none =>
    refine .unpaired hparts fun chars hspelled => ?_
    rw [charsOfUnits?_of_unitsOf hspelled] at hchars
    cases hchars
  | some chars =>
    refine .spelled hparts ?_
    rw [String.toList_ofList]
    exact unitsOf_of_charsOfUnits? (lt_of_spelled hparts) hchars

theorem readString?_of_units (h : readUnits? text = some (units, rest)) :
    readString? text = some ((charsOfUnits? units).map String.ofList, rest) := by
  rw [readString?, h]
  rfl

theorem StringText.read {string : Option String} {body : List Char} (h : StringText string body)
    (rest : List Char) : readString? (body ++ '"' :: rest) = some (string, rest) := by
  cases h with
  | @spelled string units parts hparts hunits =>
    rw [readString?_of_units (readUnits?_flatten hparts rest), charsOfUnits?_of_unitsOf hunits,
      Option.map_some, String.ofList_toList]
  | @unpaired units parts hparts hnone =>
    have hchars : charsOfUnits? units = none := by
      refine Option.eq_none_iff_forall_ne_some.mpr fun chars hchars => hnone chars ?_
      exact unitsOf_of_charsOfUnits? (lt_of_spelled hparts) hchars
    rw [readString?_of_units (readUnits?_flatten hparts rest), hchars, Option.map_none]

end

end Json

end LaneMachine
