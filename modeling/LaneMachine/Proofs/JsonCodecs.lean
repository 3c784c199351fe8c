import LaneMachine.Proofs.JsonGrammar
set_option autoImplicit false

/-!
# Codecs between types and JSON

A host reads and writes JSON with a library of its own.  This module says what such a library is
relied on for, as laws of functions that are given: how the parts of a text are printed compactly
(`PrintsCompactly`), that a text is read as the value which it spells (`Codec.ReadsTexts`), and what
the codecs of integers, enumerations, wrappers, sequences and records make of a value.

A record is read from an object one member after the other (`Layout.Visits`), and from an array one
element after the other (`Layout.Fills`).  What a visit comes to depends only on the values that stand
under each name, and not on their order (`Layout.visits_iff`).
-/

namespace LaneMachine

namespace Json

/-! ## Compact printing -/

/-- A text that needs no escapes. -/
def IsPlain (text : String) : Prop :=
  ∀ c ∈ text.toList, 0x20 ≤ c.toNat ∧ c ≠ '"' ∧ c ≠ '\\'

instance (text : String) : Decidable (IsPlain text) :=
  List.decidableBAll (fun c : Char => 0x20 ≤ c.toNat ∧ c ≠ '"' ∧ c ≠ '\\') text.toList

/-- Compact printing: numbers in decimal digits, plain strings as they are, and nothing but commas and
colons between the parts of arrays and objects. -/
structure PrintsCompactly (compact : Json → List Char) : Prop where
  natural (n : Nat) : compact (.natural n) = Nat.toDigits 10 n
  string {text : String} : IsPlain text →
    compact (.string (some text)) = '"' :: (text.toList ++ ['"'])
  array (elements : List Json) :
    compact (.array elements) = '[' :: ([','].intercalate (elements.map compact) ++ [']'])
  object (members : List (Option String × Json)) :
    compact (.object members) = '\x7b' :: ([','].intercalate (members.map fun member =>
      compact (.string member.1) ++ ':' :: compact member.2) ++ ['\x7d'])

theorem stringText_of_isPlain {text : String} (h : IsPlain text) :
    StringText (some text) text.toList := by
  have hparts : List.Forall₂ UnitText (text.toList.map Char.toNat) (text.toList.map fun c => [c]) := by
    rw [List.forall₂_map_left_iff, List.forall₂_map_right_iff, List.forall₂_same]
    exact fun c hc => .plain (h c hc).1 (h c hc).2.1 (h c hc).2.2
  have hunits : UnitsOf text.toList (text.toList.map Char.toNat) := by
    refine ⟨text.toList.map fun c => [c.toNat], ?_, ?_⟩
    · rw [List.forall₂_map_right_iff, List.forall₂_same]
      exact fun c _ => .single c
    · rw [← List.flatMap_def, ← List.map_eq_flatMap]
  have hspelled := StringText.spelled hparts hunits
  rwa [← List.flatMap_def, ← List.map_eq_flatMap, List.map_id'] at hspelled

namespace PrintsCompactly

variable {compact : Json → List Char}

theorem spelled_natural (h : PrintsCompactly compact) (n : Nat) :
    Spelled (.natural n) (compact (.natural n)) := by
  rw [h.natural]
  exact .number (.natural n)

theorem spelled_string (h : PrintsCompactly compact) {text : String} (hplain : IsPlain text) :
    Spelled (.string (some text)) (compact (.string (some text))) := by
  rw [h.string hplain]
  exact .string (stringText_of_isPlain hplain)

/-- Elements with commas between them spell a list if each spells its element. -/
theorem elementsText {elements : List Json} (hne : elements ≠ [])
    (hspelled : ∀ element ∈ elements, Spelled element (compact element)) :
    ElementsText elements ([','].intercalate (elements.map compact)) := by
  induction elements with
  | nil => exact absurd rfl hne
  | cons element rest ih =>
    obtain ⟨hfirst, hrest⟩ := List.forall_mem_cons.mp hspelled
    cases rest with
    | nil => simpa [List.intercalate] using ElementsText.last hfirst (padded_self _)
    | cons next others =>
      have hmore := ElementsText.more hfirst (padded_self _) (ih (List.cons_ne_nil _ _) hrest)
      simpa [List.intercalate] using hmore

theorem spelled_array (h : PrintsCompactly compact) {elements : List Json}
    (hspelled : ∀ element ∈ elements, Spelled element (compact element)) :
    Spelled (.array elements) (compact (.array elements)) := by
  rw [h.array]
  by_cases hempty : elements = []
  · rw [hempty]
    exact .emptyArray isGap_nil
  · exact .array (elementsText hempty hspelled)

theorem membersText (h : PrintsCompactly compact) {members : List (Option String × Json)}
    (hne : members ≠ [])
    (hnames : ∀ member ∈ members, ∃ name, member.1 = some name ∧ IsPlain name)
    (hspelled : ∀ member ∈ members, Spelled member.2 (compact member.2)) :
    MembersText members ([','].intercalate (members.map fun member =>
      compact (.string member.1) ++ ':' :: compact member.2)) := by
  induction members with
  | nil => exact absurd rfl hne
  | cons member rest ih =>
    obtain ⟨key, value⟩ := member
    obtain ⟨⟨name, hname, hplain⟩, hothers⟩ := List.forall_mem_cons.mp hnames
    obtain ⟨hfirst, hrest⟩ := List.forall_mem_cons.mp hspelled
    have hkey : KeyText key (compact (.string key)) := by
      rw [show key = some name from hname, h.string hplain]
      exact .mk (stringText_of_isPlain hplain) (padded_self _)
    cases rest with
    | nil => simpa [List.intercalate] using MembersText.last hkey hfirst (padded_self _)
    | cons next others =>
      have hmore :=
        MembersText.more hkey hfirst (padded_self _) (ih (List.cons_ne_nil _ _) hothers hrest)
      simpa [List.intercalate] using hmore

theorem spelled_object (h : PrintsCompactly compact) {members : List (Option String × Json)}
    (hnames : ∀ member ∈ members, ∃ name, member.1 = some name ∧ IsPlain name)
    (hspelled : ∀ member ∈ members, Spelled member.2 (compact member.2)) :
    Spelled (.object members) (compact (.object members)) := by
  rw [h.object]
  by_cases hempty : members = []
  · rw [hempty]
    exact .emptyObject isGap_nil
  · exact .object (h.membersText hempty hnames hspelled)

end PrintsCompactly

/-! ## Members by name -/

section

variable {name : String} {members others : List (Option String × Json)}

theorem named_append (name : String) (members others : List (Option String × Json)) :
    named name (members ++ others) = named name members ++ named name others := by
  rw [named, named, named, List.filter_append, List.map_append]

theorem named_cons_self (name : String) (json : Json) (members : List (Option String × Json)) :
    named name ((some name, json) :: members) = json :: named name members := by
  simp [named]

theorem named_cons_of_ne {other : String} (h : other ≠ name) (json : Json)
    (members : List (Option String × Json)) :
    named name ((some other, json) :: members) = named name members := by
  simp [named, h]

theorem named_perm (h : members.Perm others) : (named name members).Perm (named name others) :=
  (h.filter _).map _

theorem named_eq_nil_iff : named name members = [] ↔ ∀ member ∈ members, member.1 ≠ some name := by
  simp only [named, List.map_eq_nil_iff, List.filter_eq_nil_iff, beq_iff_eq, ne_eq]

theorem mem_named {value : Json} (h : (some name, value) ∈ members) : value ∈ named name members :=
  List.mem_map.mpr ⟨(some name, value), List.mem_filter.mpr ⟨h, beq_self_eq_true (some name)⟩, rfl⟩

end

/-! ## Codecs -/

/-- How the values of a type are written as JSON and read back. -/
structure Codec (α : Type) where
  /-- the JSON value that stands for a value -/
  encode : α → Json
  /-- what is made of a JSON value, if anything is -/
  decode : Json → Option α
  /-- the text of a value -/
  print : α → String
  /-- what is made of a text, if anything is -/
  parse : String → Option α

/-- How a record is laid out. -/
structure Layout (F α : Type) where
  /-- the fields, in the order in which they are declared -/
  declared : List F
  /-- the name of a field -/
  name : F → String
  /-- the JSON value of what a record holds in a field -/
  encode : α → F → Json
  /-- whether a JSON value is read as what the record holds in a field -/
  Reads : F → Json → α → Prop
  /-- whether the record holds in a field what stands there if nothing is given -/
  Defaults : F → α → Prop
  /-- no field is declared twice -/
  nodup : declared.Nodup
  /-- every field is declared -/
  mem_declared : ∀ field, field ∈ declared
  /-- different fields have different names -/
  name_injective : Function.Injective name

namespace Layout

variable {F α : Type}

/-- The record as members of an object. -/
def members (layout : Layout F α) (record : α) : List (Option String × Json) :=
  layout.declared.map fun field => (some (layout.name field), layout.encode record field)

/-- A record is read from members, one after the other.  A member of another name is skipped, and a
field that was seen before is refused; so is a name that is no text.  At the end the fields that were
not seen take their defaults. -/
inductive Visits (layout : Layout F α) (record : α) :
    List F → List (Option String × Json) → Prop where
  | done {seen : List F} : (∀ field, field ∉ seen → layout.Defaults field record) →
      Visits layout record seen []
  | skip {seen : List F} {name : String} {json : Json} {members : List (Option String × Json)} :
      (∀ field, layout.name field ≠ name) → Visits layout record seen members →
      Visits layout record seen ((some name, json) :: members)
  | take {seen : List F} {field : F} {json : Json} {members : List (Option String × Json)} :
      field ∉ seen → layout.Reads field json record →
      Visits layout record (field :: seen) members →
      Visits layout record seen ((some (layout.name field), json) :: members)

/-- A record is read from elements, one field after the other.  The fields after the last element take
their defaults, and there may be no more elements than fields. -/
inductive Fills (layout : Layout F α) (record : α) : List F → List Json → Prop where
  | done {fields : List F} : (∀ field ∈ fields, layout.Defaults field record) →
      Fills layout record fields []
  | take {field : F} {fields : List F} {json : Json} {elements : List Json} :
      layout.Reads field json record → Fills layout record fields elements →
      Fills layout record (field :: fields) (json :: elements)

/-- What the values under its name make of a field: none is its default, one is read, and more are
refused. -/
def Settles (layout : Layout F α) (record : α) (field : F) : List Json → Prop
  | [] => layout.Defaults field record
  | [json] => layout.Reads field json record
  | _ => False

variable {layout : Layout F α} {record : α} {seen : List F} {members : List (Option String × Json)}

theorem settles_cons_iff {field : F} {json : Json} {values : List Json} :
    layout.Settles record field (json :: values) ↔ values = [] ∧ layout.Reads field json record := by
  cases values with
  | nil => simp [Settles]
  | cons next others => simp [Settles]

theorem visits_take_iff {field : F} {json : Json} :
    layout.Visits record seen ((some (layout.name field), json) :: members) ↔
      field ∉ seen ∧ layout.Reads field json record ∧
        layout.Visits record (field :: seen) members := by
  refine ⟨fun h => ?_, fun ⟨hnew, hreads, hrest⟩ => .take hnew hreads hrest⟩
  generalize hmember : (some (layout.name field), json) = member at h
  cases h with
  | skip hunknown hrest =>
    obtain ⟨hname, -⟩ := Prod.mk.inj hmember
    exact absurd (Option.some.inj hname) (hunknown field)
  | take hnew hreads hrest =>
    obtain ⟨hname, rfl⟩ := Prod.mk.inj hmember
    obtain rfl := layout.name_injective (Option.some.inj hname)
    exact ⟨hnew, hreads, hrest⟩

theorem visits_skip_iff {name : String} (hname : ∀ field, layout.name field ≠ name) {json : Json} :
    layout.Visits record seen ((some name, json) :: members) ↔ layout.Visits record seen members := by
  refine ⟨fun h => ?_, fun hrest => .skip hname hrest⟩
  generalize hmember : (some name, json) = member at h
  cases h with
  | skip hunknown hrest => exact hrest
  | take hnew hreads hrest =>
    obtain ⟨heq, -⟩ := Prod.mk.inj hmember
    exact absurd (Option.some.inj heq).symm (hname _)

/-- A visit goes well if all names are texts and each field that was not seen before is settled by the
values under its name.  The induction is over the members; a member that is taken is seen by the rest.
-/
theorem visits_iff : layout.Visits record seen members ↔
    (∀ member ∈ members, member.1.isSome = true) ∧
      ∀ field, (field ∈ seen → named (layout.name field) members = []) ∧
        (field ∉ seen → layout.Settles record field (named (layout.name field) members)) := by
  induction members generalizing seen with
  | nil =>
    constructor
    · rintro ⟨hdefaults⟩
      exact ⟨List.forall_mem_nil _, fun field => ⟨fun _ => rfl, hdefaults field⟩⟩
    · rintro ⟨-, h⟩
      exact .done fun field => (h field).2
  | cons member rest ih =>
    obtain ⟨_ | name, json⟩ := member
    · constructor
      · intro h
        cases h
      · rintro ⟨hnames, -⟩
        cases (List.forall_mem_cons.mp hnames).1
    by_cases hname : ∃ field, layout.name field = name
    · obtain ⟨field, rfl⟩ := hname
      have hother : ∀ {other}, other ≠ field → named (layout.name other)
          ((some (layout.name field), json) :: rest) = named (layout.name other) rest :=
        fun hne => named_cons_of_ne (fun heq => hne (layout.name_injective heq).symm) json rest
      rw [visits_take_iff, ih]
      constructor
      · rintro ⟨hnew, hreads, hnames, h⟩
        refine ⟨List.forall_mem_cons.mpr ⟨rfl, hnames⟩, fun other => ?_⟩
        by_cases heq : other = field
        · subst heq
          rw [named_cons_self, (h other).1 List.mem_cons_self]
          exact ⟨fun hseen => absurd hseen hnew, fun _ => hreads⟩
        · rw [hother heq]
          refine ⟨fun hseen => (h other).1 (List.mem_cons_of_mem _ hseen), fun hnot => (h other).2 ?_⟩
          exact List.not_mem_cons_of_ne_of_not_mem heq hnot
      · rintro ⟨hnames, h⟩
        have hfield := h field
        rw [named_cons_self] at hfield
        have hnew : field ∉ seen := fun hseen => List.cons_ne_nil _ _ (hfield.1 hseen)
        obtain ⟨hnone, hreads⟩ := settles_cons_iff.mp (hfield.2 hnew)
        refine ⟨hnew, hreads, (List.forall_mem_cons.mp hnames).2, fun other => ?_⟩
        by_cases heq : other = field
        · subst heq
          exact ⟨fun _ => hnone, fun hnot => absurd List.mem_cons_self hnot⟩
        · have hrest := h other
          rw [hother heq] at hrest
          exact ⟨fun hseen => hrest.1 ((List.mem_cons.mp hseen).resolve_left heq),
            fun hnot => hrest.2 fun hseen => hnot (List.mem_cons_of_mem _ hseen)⟩
    · have hunknown : ∀ field, layout.name field ≠ name := not_exists.mp hname
      rw [visits_skip_iff hunknown, ih, List.forall_mem_cons]
      simp only [named_cons_of_ne (hunknown _).symm, Option.isSome_some, true_and]

/-- An object is read as the record whose fields are settled by the values under their names. -/
theorem visits_nil_iff : layout.Visits record [] members ↔
    (∀ member ∈ members, member.1.isSome = true) ∧
      ∀ field, layout.Settles record field (named (layout.name field) members) := by
  rw [visits_iff]
  simp only [List.not_mem_nil, false_implies, true_and, not_false_eq_true, true_implies]

/-- Members that stand for all fields, in the order of their declaration, are read. -/
theorem visits_declared (hreads : ∀ field, layout.Reads field (layout.encode record field) record)
    {fields : List F} (hnodup : fields.Nodup) (hnew : ∀ field ∈ fields, field ∉ seen)
    (hall : ∀ field, field ∈ seen ∨ field ∈ fields) :
    layout.Visits record seen
      (fields.map fun field => (some (layout.name field), layout.encode record field)) := by
  induction fields generalizing seen with
  | nil => exact .done fun field hnot => absurd ((hall field).resolve_right (List.not_mem_nil)) hnot
  | cons first rest ih =>
    obtain ⟨hfirst, hrest⟩ := List.nodup_cons.mp hnodup
    refine .take (hnew first List.mem_cons_self) (hreads first) (ih hrest ?_ fun field => ?_)
    · intro field hmem hseen
      rcases List.mem_cons.mp hseen with rfl | hseen
      · exact hfirst hmem
      · exact hnew field (List.mem_cons_of_mem _ hmem) hseen
    · rw [List.mem_cons]
      rcases hall field with hseen | hmem
      · exact .inl (.inr hseen)
      · exact (List.mem_cons.mp hmem).imp_left .inl

end Layout

namespace Codec

variable {F α β : Type}

/-! ## What codecs are relied on for -/

/-- A value is printed as the compact text of the JSON value that stands for it, and a text is read
through the JSON value that it spells. -/
structure ReadsTexts (codec : Codec α) (compact : Json → List Char) : Prop where
  print_eq (a : α) : codec.print a = String.ofList (compact (codec.encode a))
  parse_eq {value : Json} {text : String} : Document value text.toList →
    codec.parse text = codec.decode value

/-- Integers are numbers without point and exponent that the type can hold. -/
structure IsInteger (codec : Codec α) (toNat : α → Nat) : Prop where
  encode_eq (a : α) : codec.encode a = .natural (toNat a)
  decode_iff {json : Json} {a : α} : codec.decode json = some a ↔ json = .natural (toNat a)

/-- The values of an enumeration are their names. -/
structure IsEnumeration (codec : Codec α) (name : α → String) : Prop where
  encode_eq (a : α) : codec.encode a = .string (some (name a))
  decode_iff {text : String} {a : α} : codec.decode (.string (some text)) = some a ↔ text = name a

/-- A wrapper does not show. -/
structure IsWrapper (codec : Codec α) (inner : Codec β) (wrap : β → α) : Prop where
  encode_eq (b : β) : codec.encode (wrap b) = inner.encode b
  decode_eq (json : Json) : codec.decode json = (inner.decode json).map wrap

/-- A sequence is an array of its elements. -/
structure IsSequence (codec : Codec (Array β)) (element : Codec β) : Prop where
  encode_eq (bs : Array β) : codec.encode bs = .array (bs.toList.map element.encode)
  decode_eq (elements : List Json) :
    codec.decode (.array elements) = (elements.mapM element.decode).map List.toArray

/-- A record is written as an object, and is read from an object or from an array. -/
structure IsRecord (codec : Codec α) (layout : Layout F α) : Prop where
  encode_eq (record : α) : codec.encode record = .object (layout.members record)
  decode_object {members : List (Option String × Json)} {record : α} :
    codec.decode (.object members) = some record ↔ layout.Visits record [] members
  decode_array {elements : List Json} {record : α} :
    codec.decode (.array elements) = some record ↔ layout.Fills record layout.declared elements

/-! ## What is read back -/

theorem parse_print {compact : Json → List Char} {codec : Codec α}
    (htexts : codec.ReadsTexts compact) {a : α}
    (hspelled : Spelled (codec.encode a) (compact (codec.encode a)))
    (hdecode : codec.decode (codec.encode a) = some a) : codec.parse (codec.print a) = some a := by
  rw [htexts.print_eq, ← hdecode]
  refine htexts.parse_eq ⟨_, hspelled, ?_⟩
  rw [String.toList_ofList]
  exact padded_self _

theorem IsInteger.decode_encode {toNat : α → Nat} {codec : Codec α} (h : codec.IsInteger toNat)
    (a : α) : codec.decode (codec.encode a) = some a :=
  h.decode_iff.mpr (h.encode_eq a)

theorem IsEnumeration.decode_encode {name : α → String} {codec : Codec α}
    (h : codec.IsEnumeration name) (a : α) : codec.decode (codec.encode a) = some a := by
  rw [h.encode_eq]
  exact h.decode_iff.mpr rfl

theorem IsSequence.decode_encode {element : Codec β} {codec : Codec (Array β)}
    (h : codec.IsSequence element) (helement : ∀ b, element.decode (element.encode b) = some b)
    (bs : Array β) : codec.decode (codec.encode bs) = some bs := by
  have hmap : ∀ bs : List β, (bs.map element.encode).mapM element.decode = some bs := by
    intro bs
    induction bs with
    | nil => rfl
    | cons b bs ih =>
      rw [List.map_cons, List.mapM_cons, helement, ih]
      rfl
  rw [h.encode_eq, h.decode_eq, hmap]
  rfl

/-- A sequence is read only if each of its elements is. -/
theorem IsSequence.exists_of_decode {element : Codec β} {codec : Codec (Array β)}
    (h : codec.IsSequence element) {elements : List Json} {bs : Array β}
    (hdecode : codec.decode (.array elements) = some bs) :
    ∀ json ∈ elements, ∃ b, element.decode json = some b := by
  rw [h.decode_eq] at hdecode
  obtain ⟨values, hvalues, -⟩ := Option.map_eq_some_iff.mp hdecode
  clear hdecode
  induction elements generalizing values with
  | nil => exact List.forall_mem_nil _
  | cons first rest ih =>
    rw [List.mapM_cons] at hvalues
    obtain ⟨b, hfirst, hvalues⟩ := Option.bind_eq_some_iff.mp hvalues
    obtain ⟨others, hothers, -⟩ := Option.bind_eq_some_iff.mp hvalues
    exact List.forall_mem_cons.mpr ⟨⟨b, hfirst⟩, ih others hothers⟩

theorem IsRecord.decode_encode {layout : Layout F α} {codec : Codec α} (h : codec.IsRecord layout)
    {record : α} (hreads : ∀ field, layout.Reads field (layout.encode record field) record) :
    codec.decode (codec.encode record) = some record := by
  rw [h.encode_eq]
  refine h.decode_object.mpr (Layout.visits_declared hreads layout.nodup ?_ fun field => ?_)
  · exact fun field _ => List.not_mem_nil
  · exact .inr (layout.mem_declared field)

theorem IsRecord.spelled_encode {compact : Json → List Char} {layout : Layout F α} {codec : Codec α}
    (h : codec.IsRecord layout) (hprints : PrintsCompactly compact) {record : α}
    (hplain : ∀ field, IsPlain (layout.name field))
    (hspelled : ∀ field, Spelled (layout.encode record field) (compact (layout.encode record field))) :
    Spelled (codec.encode record) (compact (codec.encode record)) := by
  rw [h.encode_eq]
  refine hprints.spelled_object (fun member hmember => ?_) (fun member hmember => ?_)
  · obtain ⟨field, -, rfl⟩ := List.mem_map.mp hmember
    exact ⟨_, rfl, hplain field⟩
  · obtain ⟨field, -, rfl⟩ := List.mem_map.mp hmember
    exact hspelled field

end Codec

end Json

end LaneMachine
