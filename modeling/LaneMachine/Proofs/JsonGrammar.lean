import LaneMachine.Proofs.JsonScalars
set_option autoImplicit false

/-!
# The grammar of JSON texts

Which texts spell which value, as relations that mention no reader: a value is spelled by its scalar
spelling, or by the spellings of its parts with brackets, commas and colons, and blanks may stand
around every part.

The reader accepts exactly the texts of this grammar, each with the value that it spells
(`read?_eq_some_iff`).  Both directions go by induction on the fuel, for values, elements and members
together: `Sound` and `Complete` say what holds with a given amount of it, and one more unit extends
each of the three parts.  A spelling needs at most two units for each of its characters, so that the
fuel computed from the length of a text never runs out.
-/

namespace LaneMachine

namespace Json

/-! ## The grammar -/

/-- Blanks alone. -/
def IsGap (text : List Char) : Prop :=
  ∀ c ∈ text, isSpace c = true

/-- A spelling with blanks around it. -/
inductive Padded (inner : List Char) : List Char → Prop where
  | mk {before after : List Char} : IsGap before → IsGap after →
      Padded inner (before ++ inner ++ after)

/-- The spellings of a name, with blanks around them. -/
inductive KeyText (name : Option String) : List Char → Prop where
  | mk {body key : List Char} : StringText name body → Padded ('"' :: (body ++ ['"'])) key →
      KeyText name key

mutual

/-- The spellings of a value, without blanks around it. -/
inductive Spelled : Json → List Char → Prop where
  | null : Spelled .null ['n', 'u', 'l', 'l']
  | boolTrue : Spelled (.bool true) ['t', 'r', 'u', 'e']
  | boolFalse : Spelled (.bool false) ['f', 'a', 'l', 's', 'e']
  | number {value : Json} {text : List Char} : NumberText value text → Spelled value text
  | string {string : Option String} {body : List Char} : StringText string body →
      Spelled (.string string) ('"' :: (body ++ ['"']))
  | emptyArray {gap : List Char} : IsGap gap → Spelled (.array []) ('[' :: (gap ++ [']']))
  | array {elements : List Json} {text : List Char} : ElementsText elements text →
      Spelled (.array elements) ('[' :: (text ++ [']']))
  | emptyObject {gap : List Char} : IsGap gap → Spelled (.object []) ('\x7b' :: (gap ++ ['\x7d']))
  | object {members : List (Option String × Json)} {text : List Char} : MembersText members text →
      Spelled (.object members) ('\x7b' :: (text ++ ['\x7d']))

/-- The spellings of the elements of an array, at least one. -/
inductive ElementsText : List Json → List Char → Prop where
  | last {element : Json} {inner text : List Char} : Spelled element inner → Padded inner text →
      ElementsText [element] text
  | more {element : Json} {elements : List Json} {inner text rest : List Char} :
      Spelled element inner → Padded inner text → ElementsText elements rest →
      ElementsText (element :: elements) (text ++ ',' :: rest)

/-- The spellings of the members of an object, at least one. -/
inductive MembersText : List (Option String × Json) → List Char → Prop where
  | last {name : Option String} {value : Json} {key inner text : List Char} :
      KeyText name key → Spelled value inner → Padded inner text →
      MembersText [(name, value)] (key ++ ':' :: text)
  | more {name : Option String} {value : Json} {members : List (Option String × Json)}
      {key inner text rest : List Char} : KeyText name key → Spelled value inner →
      Padded inner text → MembersText members rest →
      MembersText ((name, value) :: members) (key ++ ':' :: text ++ ',' :: rest)

end

/-- The texts that spell a value, as a whole. -/
def Document (value : Json) (text : List Char) : Prop :=
  ∃ inner, Spelled value inner ∧ Padded inner text

/-! ## Blanks -/

section

variable {c : Char} {gap text rest : List Char}

theorem skipSpace_append (h : IsGap gap) (rest : List Char) :
    skipSpace (gap ++ rest) = skipSpace rest :=
  List.dropWhile_append_of_pos h

theorem skipSpace_cons (h : isSpace c = false) (rest : List Char) :
    skipSpace (c :: rest) = c :: rest :=
  List.dropWhile_cons_of_neg (by rw [h]; exact Bool.false_ne_true)

theorem exists_gap (text : List Char) : ∃ gap, IsGap gap ∧ text = gap ++ skipSpace text :=
  ⟨text.takeWhile isSpace, List.all_eq_true.mp List.all_takeWhile,
    List.takeWhile_append_dropWhile.symm⟩

theorem skipSpace_skipSpace (text : List Char) : skipSpace (skipSpace text) = skipSpace text := by
  obtain ⟨gap, hgap, htext⟩ := exists_gap text
  rw [← skipSpace_append hgap, ← htext]

theorem isGap_nil : IsGap [] :=
  List.forall_mem_nil _

theorem IsGap.append {other : List Char} (h : IsGap gap) (hother : IsGap other) :
    IsGap (gap ++ other) :=
  List.forall_mem_append.mpr ⟨h, hother⟩

theorem padded_self (text : List Char) : Padded text text := by
  have hpadded : Padded text ([] ++ text ++ []) := .mk isGap_nil isGap_nil
  rwa [List.nil_append, List.append_nil] at hpadded

theorem endsNumber_cons (c : Char) (h : c.isDigit = false ∧ c ≠ '.' ∧ c ≠ 'e' ∧ c ≠ 'E')
    (rest : List Char) : EndsNumber (c :: rest) := by
  intro d hd
  obtain rfl := Option.some.inj hd
  exact h

theorem EndsNumber.after_gap (hgap : IsGap gap) (h : EndsNumber rest) :
    EndsNumber (gap ++ rest) := by
  cases gap with
  | nil => exact h
  | cons c gap =>
    have hspace : isSpace c = true := hgap c List.mem_cons_self
    refine endsNumber_cons c ?_ _
    simp only [isSpace, Bool.or_eq_true, beq_iff_eq] at hspace
    rcases hspace with ((rfl | rfl) | rfl) | rfl <;> decide

end

/-! ## One step of the reader -/

section

variable {fuel : Nat} {value : Json} {text rest gap inner : List Char}

theorem readValue?_skipSpace (fuel : Nat) (text : List Char) :
    readValue? fuel (skipSpace text) = readValue? fuel text := by
  cases fuel with
  | zero => rfl
  | succ fuel => rw [readValue?, readValue?, skipSpace_skipSpace]

theorem readElements?_skipSpace (fuel : Nat) (text : List Char) :
    readElements? fuel (skipSpace text) = readElements? fuel text := by
  cases fuel with
  | zero => rfl
  | succ fuel => rw [readElements?, readElements?, readValue?_skipSpace]

theorem readMembers?_skipSpace (fuel : Nat) (text : List Char) :
    readMembers? fuel (skipSpace text) = readMembers? fuel text := by
  cases fuel with
  | zero => rfl
  | succ fuel => rw [readMembers?, readMembers?, skipSpace_skipSpace]

theorem readValue?_gap (h : IsGap gap) (fuel : Nat) (text : List Char) :
    readValue? fuel (gap ++ text) = readValue? fuel text := by
  rw [← readValue?_skipSpace, skipSpace_append h, readValue?_skipSpace]

theorem NumberText.head (h : NumberText value text) :
    ∃ c tail, text = c :: tail ∧ (c = '-' ∨ c.isDigit = true) := by
  cases h with
  | natural n =>
    obtain ⟨c, tail, htext, hc⟩ := toDigits_append_eq_cons n []
    rw [List.append_nil] at htext
    exact ⟨c, tail, htext, .inr hc⟩
  | @decimal _ fraction exponent _ n hsign _ _ _ htext =>
    rcases hsign with rfl | rfl
    · obtain ⟨c, tail, hdigits, hc⟩ := toDigits_append_eq_cons n (fraction ++ exponent)
      rw [List.nil_append, List.append_assoc, hdigits] at htext
      exact ⟨c, tail, htext, .inr hc⟩
    · exact ⟨'-', _, htext, .inl rfl⟩

theorem not_isSpace_of_number {c : Char} (h : c = '-' ∨ c.isDigit = true) : isSpace c = false := by
  rcases h with rfl | hdigit
  · rfl
  · refine Bool.eq_false_iff.mpr fun hspace => ?_
    simp only [isSpace, Bool.or_eq_true, beq_iff_eq] at hspace
    rcases hspace with ((rfl | rfl) | rfl) | rfl <;> cases hdigit

theorem readValue?_number {c : Char} (h : c = '-' ∨ c.isDigit = true) (fuel : Nat)
    (rest : List Char) : readValue? (fuel + 1) (c :: rest) = readNumber? (c :: rest) := by
  rw [readValue?, skipSpace_cons (not_isSpace_of_number h)]
  split
  case h_7 => rfl
  all_goals
    rename_i heq
    cases (List.cons.inj heq).1
    exact absurd h (by decide)

/-- A value starts with a character that is no blank and closes nothing. -/
theorem Spelled.head (h : Spelled value text) :
    ∃ c tail, text = c :: tail ∧ isSpace c = false ∧ c ≠ ']' := by
  cases h with
  | number hnumber =>
    obtain ⟨c, tail, htext, hc⟩ := hnumber.head
    refine ⟨c, tail, htext, not_isSpace_of_number hc, ?_⟩
    rintro rfl
    exact absurd hc (by decide)
  | null | boolTrue | boolFalse | string | emptyArray | array | emptyObject | object =>
    exact ⟨_, _, rfl, rfl, by decide⟩

theorem readValue?_quote (fuel : Nat) (text : List Char) : readValue? (fuel + 1) ('"' :: text) =
    (readString? text).map fun found => (.string found.1, found.2) := by
  rw [readValue?, skipSpace_cons rfl]
  rfl

theorem readValue?_bracket (fuel : Nat) (text : List Char) : readValue? (fuel + 1) ('[' :: text) =
    match skipSpace text with
    | ']' :: rest => some (.array [], rest)
    | rest => (readElements? fuel rest).map fun found => (.array found.1, found.2) := by
  rw [readValue?, skipSpace_cons rfl]
  rfl

theorem readValue?_brace (fuel : Nat) (text : List Char) : readValue? (fuel + 1) ('\x7b' :: text) =
    match skipSpace text with
    | '\x7d' :: rest => some (.object [], rest)
    | rest => (readMembers? fuel rest).map fun found => (.object found.1, found.2) := by
  rw [readValue?, skipSpace_cons rfl]
  rfl

/-- An array that is not closed at once is read by its elements. -/
theorem readValue?_elements {elements : List Json} (hclose : ∀ tail, skipSpace text ≠ ']' :: tail)
    (h : readElements? fuel text = some (elements, rest)) :
    readValue? (fuel + 1) ('[' :: text) = some (.array elements, rest) := by
  rw [readValue?_bracket]
  split
  · rename_i heq
    exact absurd heq (hclose _)
  · rw [readElements?_skipSpace, h, Option.map_some]

/-- An object that is not closed at once is read by its members. -/
theorem readValue?_members {members : List (Option String × Json)}
    (hclose : ∀ tail, skipSpace text ≠ '\x7d' :: tail)
    (h : readMembers? fuel text = some (members, rest)) :
    readValue? (fuel + 1) ('\x7b' :: text) = some (.object members, rest) := by
  rw [readValue?_brace]
  split
  · rename_i heq
    exact absurd heq (hclose _)
  · rw [readMembers?_skipSpace, h, Option.map_some]

/-- After an element stands a bracket, or a comma and more elements. -/
theorem readElements?_succ_eq_some_iff {elements : List Json} :
    readElements? (fuel + 1) text = some (elements, rest) ↔
      ∃ element after, readValue? fuel text = some (element, after) ∧
        (skipSpace after = ']' :: rest ∧ elements = [element] ∨
          ∃ next others, skipSpace after = ',' :: next ∧
            readElements? fuel next = some (others, rest) ∧ elements = element :: others) := by
  rw [readElements?]
  constructor
  · intro h
    split at h
    · cases h
    · rename_i element after hvalue
      refine ⟨element, after, hvalue, ?_⟩
      split at h
      · rename_i hclose
        obtain ⟨rfl, rfl⟩ := Prod.mk.inj (Option.some.inj h)
        exact .inl ⟨hclose, rfl⟩
      · rename_i hcomma
        obtain ⟨⟨others, _⟩, hothers, heq⟩ := Option.map_eq_some_iff.mp h
        obtain ⟨rfl, rfl⟩ := Prod.mk.inj heq
        exact .inr ⟨_, others, hcomma, hothers, rfl⟩
      · cases h
  · rintro ⟨element, after, hvalue, ⟨hclose, rfl⟩ | ⟨next, others, hcomma, hothers, rfl⟩⟩
    · rw [hvalue]
      dsimp only
      rw [hclose]
      rfl
    · rw [hvalue]
      dsimp only
      rw [hcomma]
      simp only [hothers, Option.map_some]

/-- A member is a string, a colon and a value.  After it stands a brace, or a comma and more
members. -/
theorem readMembers?_succ_eq_some_iff {members : List (Option String × Json)} :
    readMembers? (fuel + 1) text = some (members, rest) ↔
      ∃ body name afterName valueText value after, skipSpace text = '"' :: body ∧
        readString? body = some (name, afterName) ∧ skipSpace afterName = ':' :: valueText ∧
        readValue? fuel valueText = some (value, after) ∧
        (skipSpace after = '\x7d' :: rest ∧ members = [(name, value)] ∨
          ∃ next others, skipSpace after = ',' :: next ∧
            readMembers? fuel next = some (others, rest) ∧ members = (name, value) :: others) := by
  rw [readMembers?]
  constructor
  · intro h
    split at h
    · rename_i body hbody
      split at h
      · cases h
      · rename_i name afterName hname
        split at h
        · rename_i valueText hcolon
          split at h
          · cases h
          · rename_i value after hvalue
            refine ⟨body, name, afterName, valueText, value, after, hbody, hname, hcolon, hvalue, ?_⟩
            split at h
            · rename_i hclose
              obtain ⟨rfl, rfl⟩ := Prod.mk.inj (Option.some.inj h)
              exact .inl ⟨hclose, rfl⟩
            · rename_i hcomma
              obtain ⟨⟨others, _⟩, hothers, heq⟩ := Option.map_eq_some_iff.mp h
              obtain ⟨rfl, rfl⟩ := Prod.mk.inj heq
              exact .inr ⟨_, others, hcomma, hothers, rfl⟩
            · cases h
        · cases h
    · cases h
  · rintro ⟨body, name, afterName, valueText, value, after, hbody, hname, hcolon, hvalue,
      ⟨hclose, rfl⟩ | ⟨next, others, hcomma, hothers, rfl⟩⟩
    · simp only [hbody, hname, hcolon, hvalue, hclose]
    · simp only [hbody, hname, hcolon, hvalue, hcomma, hothers, Option.map_some]

end

/-! ## Spellings are read -/

section

variable {text rest inner : List Char}

theorem skipSpace_padded (hpadded : Padded inner text) (rest : List Char) :
    ∃ tail, skipSpace (text ++ rest) = skipSpace (inner ++ tail) := by
  cases hpadded with
  | @mk before after hbefore _ =>
    refine ⟨after ++ rest, ?_⟩
    rw [List.append_assoc, List.append_assoc, skipSpace_append hbefore]

/-- The elements of an array do not close it. -/
theorem ElementsText.head {elements : List Json} (h : ElementsText elements text)
    (rest tail : List Char) : skipSpace (text ++ rest) ≠ ']' :: tail := by
  have hfirst : ∃ element inner text' rest', Spelled element inner ∧ Padded inner text' ∧
      text ++ rest = text' ++ rest' := by
    cases h with
    | last hvalue hpadded => exact ⟨_, _, _, _, hvalue, hpadded, rfl⟩
    | more hvalue hpadded _ => exact ⟨_, _, _, _, hvalue, hpadded, List.append_assoc _ _ _⟩
  obtain ⟨element, inner, text', rest', hvalue, hpadded, heq⟩ := hfirst
  obtain ⟨after, hskip⟩ := skipSpace_padded hpadded rest'
  obtain ⟨c, others, rfl, hspace, hc⟩ := hvalue.head
  rw [heq, hskip, List.cons_append, skipSpace_cons hspace]
  exact fun hclose => hc (List.cons.inj hclose).1

/-- A name is read up to its colon. -/
theorem KeyText.read {name : Option String} {key : List Char} (h : KeyText name key)
    (rest : List Char) : ∃ body after, skipSpace (key ++ ':' :: rest) = '"' :: body ∧
      readString? body = some (name, after) ∧ skipSpace after = ':' :: rest := by
  obtain ⟨hname, hpadded⟩ := h
  cases hpadded with
  | @mk before after hbefore hafter =>
    refine ⟨_ ++ '"' :: (after ++ ':' :: rest), after ++ ':' :: rest, ?_, hname.read _, ?_⟩
    · rw [List.append_assoc, List.append_assoc, skipSpace_append hbefore, List.cons_append,
        skipSpace_cons rfl, List.append_assoc, List.singleton_append]
    · rw [skipSpace_append hafter, skipSpace_cons rfl]

/-- The members of an object do not close it. -/
theorem MembersText.head {members : List (Option String × Json)} (h : MembersText members text)
    (rest tail : List Char) : skipSpace (text ++ rest) ≠ '\x7d' :: tail := by
  have hfirst : ∃ name key rest', KeyText name key ∧ text ++ rest = key ++ ':' :: rest' := by
    cases h with
    | last hkey _ _ => exact ⟨_, _, _, hkey, List.append_assoc _ _ _⟩
    | more hkey _ _ _ =>
      rw [List.append_assoc, List.append_assoc]
      exact ⟨_, _, _, hkey, rfl⟩
  obtain ⟨name, key, rest', hkey, heq⟩ := hfirst
  obtain ⟨body, after, hquote, -, -⟩ := hkey.read rest'
  rw [heq, hquote]
  exact fun hclose => absurd (List.cons.inj hclose).1 (by decide)

end

/-- With this much fuel, spellings that are not too long are read. -/
structure Complete (fuel : Nat) : Prop where
  value {value : Json} {text rest : List Char} : Spelled value text → EndsNumber rest →
    2 * text.length < fuel → readValue? fuel (text ++ rest) = some (value, rest)
  elements {elements : List Json} {text : List Char} (rest : List Char) :
    ElementsText elements text → 2 * text.length + 1 < fuel →
    readElements? fuel (text ++ ']' :: rest) = some (elements, rest)
  members {members : List (Option String × Json)} {text : List Char} (rest : List Char) :
    MembersText members text → 2 * text.length + 1 < fuel →
    readMembers? fuel (text ++ '\x7d' :: rest) = some (members, rest)

namespace Complete

variable {fuel : Nat} {value : Json} {text rest inner : List Char}

theorem padded (h : Complete fuel) (hvalue : Spelled value inner) (hpadded : Padded inner text)
    (hfuel : 2 * text.length < fuel) (hrest : EndsNumber rest) :
    ∃ after, IsGap after ∧ readValue? fuel (text ++ rest) = some (value, after ++ rest) := by
  cases hpadded with
  | @mk before after hbefore hafter =>
    refine ⟨after, hafter, ?_⟩
    rw [List.length_append, List.length_append] at hfuel
    rw [List.append_assoc, List.append_assoc, readValue?_gap hbefore]
    exact h.value hvalue (hrest.after_gap hafter) (by omega)

theorem value_succ (h : Complete fuel) (hvalue : Spelled value text) (hrest : EndsNumber rest)
    (hfuel : 2 * text.length < fuel + 1) :
    readValue? (fuel + 1) (text ++ rest) = some (value, rest) := by
  cases hvalue with
  | null | boolTrue | boolFalse => rfl
  | number hnumber =>
    obtain ⟨c, tail, rfl, hc⟩ := hnumber.head
    rw [List.cons_append, readValue?_number hc]
    exact hnumber.read hrest
  | @string _ body hstring =>
    rw [List.cons_append, List.append_assoc, List.singleton_append, readValue?_quote,
      hstring.read rest, Option.map_some]
  | @emptyArray gap hgap =>
    rw [List.cons_append, List.append_assoc, List.singleton_append, readValue?_bracket,
      skipSpace_append hgap, skipSpace_cons rfl]
    rfl
  | @array elements inner helements =>
    rw [List.length_cons, List.length_append, List.length_singleton] at hfuel
    rw [List.cons_append, List.append_assoc, List.singleton_append]
    exact readValue?_elements (helements.head _) (h.elements rest helements (by omega))
  | @emptyObject gap hgap =>
    rw [List.cons_append, List.append_assoc, List.singleton_append, readValue?_brace,
      skipSpace_append hgap, skipSpace_cons rfl]
    rfl
  | @object members inner hmembers =>
    rw [List.length_cons, List.length_append, List.length_singleton] at hfuel
    rw [List.cons_append, List.append_assoc, List.singleton_append]
    exact readValue?_members (hmembers.head _) (h.members rest hmembers (by omega))

theorem elements_succ (h : Complete fuel) {elements : List Json}
    (helements : ElementsText elements text) (hfuel : 2 * text.length + 1 < fuel + 1) :
    readElements? (fuel + 1) (text ++ ']' :: rest) = some (elements, rest) := by
  rw [readElements?_succ_eq_some_iff]
  cases helements with
  | last hvalue hpadded =>
    obtain ⟨gap, hgap, hread⟩ :=
      h.padded hvalue hpadded (by omega) (endsNumber_cons ']' (by decide) rest)
    refine ⟨_, _, hread, .inl ⟨?_, rfl⟩⟩
    rw [skipSpace_append hgap, skipSpace_cons rfl]
  | @more element elements inner text others hvalue hpadded hothers =>
    -- the comma pays for the unit that is spent on this element
    rw [List.length_append, List.length_cons] at hfuel
    obtain ⟨gap, hgap, hread⟩ :=
      h.padded hvalue hpadded (by omega) (endsNumber_cons ',' (by decide) (others ++ ']' :: rest))
    rw [List.append_assoc, List.cons_append]
    refine ⟨_, _, hread, .inr ⟨_, _, ?_, h.elements rest hothers (by omega), rfl⟩⟩
    rw [skipSpace_append hgap, skipSpace_cons rfl]

theorem members_succ (h : Complete fuel) {members : List (Option String × Json)}
    (hmembers : MembersText members text) (hfuel : 2 * text.length + 1 < fuel + 1) :
    readMembers? (fuel + 1) (text ++ '\x7d' :: rest) = some (members, rest) := by
  rw [readMembers?_succ_eq_some_iff]
  cases hmembers with
  | @last name value key inner text hkey hvalue hpadded =>
    rw [List.length_append, List.length_cons] at hfuel
    rw [List.append_assoc, List.cons_append]
    obtain ⟨body, after, hquote, hstring, hcolon⟩ := hkey.read (text ++ '\x7d' :: rest)
    obtain ⟨gap, hgap, hread⟩ :=
      h.padded hvalue hpadded (by omega) (endsNumber_cons '\x7d' (by decide) rest)
    refine ⟨_, _, _, _, _, _, hquote, hstring, hcolon, hread, .inl ⟨?_, rfl⟩⟩
    rw [skipSpace_append hgap, skipSpace_cons rfl]
  | @more name value members key inner text others hkey hvalue hpadded hothers =>
    rw [List.length_append, List.length_append, List.length_cons, List.length_cons] at hfuel
    rw [List.append_assoc, List.append_assoc, List.cons_append, List.cons_append]
    obtain ⟨body, after, hquote, hstring, hcolon⟩ :=
      hkey.read (text ++ ',' :: (others ++ '\x7d' :: rest))
    obtain ⟨gap, hgap, hread⟩ :=
      h.padded hvalue hpadded (by omega) (endsNumber_cons ',' (by decide) (others ++ '\x7d' :: rest))
    refine ⟨_, _, _, _, _, _, hquote, hstring, hcolon, hread,
      .inr ⟨_, _, ?_, h.members rest hothers (by omega), rfl⟩⟩
    rw [skipSpace_append hgap, skipSpace_cons rfl]

end Complete

theorem complete (fuel : Nat) : Complete fuel := by
  induction fuel with
  | zero =>
    exact ⟨fun _ _ hfuel => absurd hfuel (Nat.not_lt_zero _),
      fun _ _ hfuel => absurd hfuel (Nat.not_lt_zero _),
      fun _ _ hfuel => absurd hfuel (Nat.not_lt_zero _)⟩
  | succ fuel ih => exact ⟨ih.value_succ, fun _ => ih.elements_succ, fun _ => ih.members_succ⟩

/-! ## What is read is a spelling -/

/-- With this much fuel, what is read off a text spells what is returned. -/
structure Sound (fuel : Nat) : Prop where
  value {value : Json} {text rest : List Char} : readValue? fuel text = some (value, rest) →
    ∃ gap inner, IsGap gap ∧ Spelled value inner ∧ text = gap ++ inner ++ rest
  elements {elements : List Json} {text rest : List Char} :
    readElements? fuel text = some (elements, rest) →
    ∃ inner, ElementsText elements inner ∧ text = inner ++ ']' :: rest
  members {members : List (Option String × Json)} {text rest : List Char} :
    readMembers? fuel text = some (members, rest) →
    ∃ inner, MembersText members inner ∧ text = inner ++ '\x7d' :: rest

theorem Padded.gap {gap inner text : List Char} (hgap : IsGap gap) (h : Padded inner text) :
    Padded inner (gap ++ text) := by
  cases h with
  | mk hbefore hafter =>
    rw [← List.append_assoc, ← List.append_assoc]
    exact .mk (hgap.append hbefore) hafter

theorem KeyText.gap {gap key : List Char} {name : Option String} (hgap : IsGap gap)
    (h : KeyText name key) : KeyText name (gap ++ key) := by
  obtain ⟨hname, hpadded⟩ := h
  exact .mk hname (hpadded.gap hgap)

theorem ElementsText.gap {gap text : List Char} {elements : List Json} (hgap : IsGap gap)
    (h : ElementsText elements text) : ElementsText elements (gap ++ text) := by
  cases h with
  | last hvalue hpadded => exact .last hvalue (hpadded.gap hgap)
  | more hvalue hpadded hothers =>
    rw [← List.append_assoc]
    exact .more hvalue (hpadded.gap hgap) hothers

theorem MembersText.gap {gap text : List Char} {members : List (Option String × Json)}
    (hgap : IsGap gap) (h : MembersText members text) : MembersText members (gap ++ text) := by
  cases h with
  | last hkey hvalue hpadded =>
    rw [← List.append_assoc]
    exact .last (hkey.gap hgap) hvalue hpadded
  | more hkey hvalue hpadded hothers =>
    rw [← List.append_assoc, ← List.append_assoc]
    exact .more (hkey.gap hgap) hvalue hpadded hothers

/-- What is read up to a colon is a name. -/
theorem keyText_of_read {text body afterName rest : List Char} {name : Option String}
    (hbody : skipSpace text = '"' :: body) (hname : readString? body = some (name, afterName))
    (hcolon : skipSpace afterName = ':' :: rest) :
    ∃ key, KeyText name key ∧ text = key ++ ':' :: rest := by
  obtain ⟨before, hbefore, htext⟩ := exists_gap text
  obtain ⟨after, hafter, hafterName⟩ := exists_gap afterName
  obtain ⟨inner, hinner, hstring⟩ := readString?_sound hname
  refine ⟨before ++ '"' :: (inner ++ ['"']) ++ after, .mk hstring (.mk hbefore hafter), ?_⟩
  rw [htext, hbody, hinner, hafterName, hcolon]
  simp only [List.append_assoc, List.cons_append, List.nil_append]

namespace Sound

variable {fuel : Nat} {value : Json} {text rest : List Char}

/-- What follows a value up to the next character that is no blank belongs to its padding. -/
theorem padded (h : Sound fuel) {after next : List Char} {c : Char}
    (hread : readValue? fuel text = some (value, after)) (hskip : skipSpace after = c :: next) :
    ∃ inner padded, Spelled value inner ∧ Padded inner padded ∧ text = padded ++ c :: next := by
  obtain ⟨before, inner, hbefore, hvalue, rfl⟩ := h.value hread
  obtain ⟨gap, hgap, hafter⟩ := exists_gap after
  rw [hskip] at hafter
  refine ⟨inner, before ++ inner ++ gap, hvalue, .mk hbefore hgap, ?_⟩
  rw [hafter, List.append_assoc _ gap]

theorem elements_succ (h : Sound fuel) {elements : List Json}
    (hread : readElements? (fuel + 1) text = some (elements, rest)) :
    ∃ inner, ElementsText elements inner ∧ text = inner ++ ']' :: rest := by
  obtain ⟨element, after, hvalue, ⟨hclose, rfl⟩ | ⟨next, others, hcomma, hothers, rfl⟩⟩ :=
    readElements?_succ_eq_some_iff.mp hread
  · obtain ⟨inner, padded, hspelled, hpadded, rfl⟩ := h.padded hvalue hclose
    exact ⟨padded, .last hspelled hpadded, rfl⟩
  · obtain ⟨inner, padded, hspelled, hpadded, rfl⟩ := h.padded hvalue hcomma
    obtain ⟨tail, htail, rfl⟩ := h.elements hothers
    refine ⟨padded ++ ',' :: tail, .more hspelled hpadded htail, ?_⟩
    rw [List.append_assoc, List.cons_append]

theorem members_succ (h : Sound fuel) {members : List (Option String × Json)}
    (hread : readMembers? (fuel + 1) text = some (members, rest)) :
    ∃ inner, MembersText members inner ∧ text = inner ++ '\x7d' :: rest := by
  obtain ⟨body, name, afterName, valueText, value, after, hbody, hname, hcolon, hvalue, hend⟩ :=
    readMembers?_succ_eq_some_iff.mp hread
  obtain ⟨key, hkey, rfl⟩ := keyText_of_read hbody hname hcolon
  obtain ⟨hclose, rfl⟩ | ⟨next, others, hcomma, hothers, rfl⟩ := hend
  · obtain ⟨inner, padded, hspelled, hpadded, rfl⟩ := h.padded hvalue hclose
    refine ⟨key ++ ':' :: padded, .last hkey hspelled hpadded, ?_⟩
    rw [List.append_assoc, List.cons_append]
  · obtain ⟨inner, padded, hspelled, hpadded, rfl⟩ := h.padded hvalue hcomma
    obtain ⟨tail, htail, rfl⟩ := h.members hothers
    refine ⟨key ++ ':' :: padded ++ ',' :: tail, .more hkey hspelled hpadded htail, ?_⟩
    simp only [List.append_assoc, List.cons_append]

/-- What stands behind an opening bracket is a gap and a closing bracket, or elements. -/
theorem array (h : Sound fuel) (hread : readValue? (fuel + 1) ('[' :: text) = some (value, rest)) :
    ∃ inner, Spelled value inner ∧ '[' :: text = inner ++ rest := by
  obtain ⟨gap, hgap, htext⟩ := exists_gap text
  rw [readValue?_bracket] at hread
  split at hread
  · rename_i hclose
    obtain ⟨rfl, rfl⟩ := Prod.mk.inj (Option.some.inj hread)
    refine ⟨_, .emptyArray hgap, ?_⟩
    rw [htext, hclose, List.cons_append, List.append_assoc, List.singleton_append]
  · obtain ⟨⟨elements, _⟩, helements, hpair⟩ := Option.map_eq_some_iff.mp hread
    obtain ⟨rfl, rfl⟩ := Prod.mk.inj hpair
    obtain ⟨inner, hinner, hskip⟩ := h.elements helements
    refine ⟨_, .array (hinner.gap hgap), ?_⟩
    rw [htext, hskip]
    simp only [List.cons_append, List.append_assoc, List.nil_append]

/-- What stands behind an opening brace is a gap and a closing brace, or members. -/
theorem object (h : Sound fuel)
    (hread : readValue? (fuel + 1) ('\x7b' :: text) = some (value, rest)) :
    ∃ inner, Spelled value inner ∧ '\x7b' :: text = inner ++ rest := by
  obtain ⟨gap, hgap, htext⟩ := exists_gap text
  rw [readValue?_brace] at hread
  split at hread
  · rename_i hclose
    obtain ⟨rfl, rfl⟩ := Prod.mk.inj (Option.some.inj hread)
    refine ⟨_, .emptyObject hgap, ?_⟩
    rw [htext, hclose, List.cons_append, List.append_assoc, List.singleton_append]
  · obtain ⟨⟨members, _⟩, hmembers, hpair⟩ := Option.map_eq_some_iff.mp hread
    obtain ⟨rfl, rfl⟩ := Prod.mk.inj hpair
    obtain ⟨inner, hinner, hskip⟩ := h.members hmembers
    refine ⟨_, .object (hinner.gap hgap), ?_⟩
    rw [htext, hskip]
    simp only [List.cons_append, List.append_assoc, List.nil_append]

theorem value_succ (h : Sound fuel) (hread : readValue? (fuel + 1) text = some (value, rest)) :
    ∃ gap inner, IsGap gap ∧ Spelled value inner ∧ text = gap ++ inner ++ rest := by
  obtain ⟨gap, hgap, htext⟩ := exists_gap text
  have hspelled : ∃ inner, Spelled value inner ∧ skipSpace text = inner ++ rest := by
    rw [readValue?] at hread
    split at hread
    · rename_i heq
      obtain ⟨rfl, rfl⟩ := Prod.mk.inj (Option.some.inj hread)
      exact ⟨_, .null, heq⟩
    · rename_i heq
      obtain ⟨rfl, rfl⟩ := Prod.mk.inj (Option.some.inj hread)
      exact ⟨_, .boolTrue, heq⟩
    · rename_i heq
      obtain ⟨rfl, rfl⟩ := Prod.mk.inj (Option.some.inj hread)
      exact ⟨_, .boolFalse, heq⟩
    · rename_i heq
      obtain ⟨⟨string, after⟩, hstring, hpair⟩ := Option.map_eq_some_iff.mp hread
      obtain ⟨rfl, rfl⟩ := Prod.mk.inj hpair
      obtain ⟨body, rfl, hbody⟩ := readString?_sound hstring
      refine ⟨_, .string hbody, ?_⟩
      rw [heq, List.cons_append, List.append_assoc, List.singleton_append]
    · rename_i heq
      rw [heq]
      exact h.array hread
    · rename_i heq
      rw [heq]
      exact h.object hread
    · obtain ⟨number, hnumber, hspelled⟩ := readNumber?_sound hread
      exact ⟨number, .number hspelled, hnumber⟩
  obtain ⟨inner, hinner, hskip⟩ := hspelled
  refine ⟨gap, inner, hgap, hinner, ?_⟩
  rw [htext, hskip, List.append_assoc]

end Sound

theorem sound (fuel : Nat) : Sound fuel := by
  induction fuel with
  | zero => exact ⟨(nomatch ·), (nomatch ·), (nomatch ·)⟩
  | succ fuel ih => exact ⟨ih.value_succ, ih.elements_succ, ih.members_succ⟩

/-- The reader accepts the texts of the grammar, with the values that they spell, and no others. -/
theorem read?_eq_some_iff {text : String} {value : Json} :
    read? text = some value ↔ Document value text.toList := by
  rw [read?]
  constructor
  · intro h
    split at h
    · rename_i found rest hread
      split at h
      · rename_i hempty
        obtain rfl := Option.some.inj h
        obtain ⟨before, inner, hbefore, hvalue, htext⟩ := (sound _).value hread
        obtain ⟨after, hafter, hrest⟩ := exists_gap rest
        rw [List.isEmpty_iff.mp hempty, List.append_nil] at hrest
        rw [htext, hrest]
        exact ⟨inner, hvalue, .mk hbefore hafter⟩
      · cases h
    · cases h
  · rintro ⟨inner, hvalue, hpadded⟩
    have hends : EndsNumber [] := fun c hc => nomatch hc
    obtain ⟨gap, hgap, hread⟩ := (complete (2 * text.toList.length + 2)).padded hvalue hpadded
      (by omega) hends
    rw [List.append_nil, List.append_nil] at hread
    have hskip : skipSpace gap = [] := by
      have := skipSpace_append hgap []
      rwa [List.append_nil] at this
    simp only [hread, hskip, List.isEmpty_nil, if_true]

end Json

end LaneMachine
