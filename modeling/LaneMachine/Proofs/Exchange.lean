import LaneMachine.Proofs.JsonCodecs
import LaneMachine.Session
set_option autoImplicit false

/-!
# What is exchanged with a session

Limits, outcomes, identifiers and statuses are declared here as a JSON library sees them: limits are a
record of six words with defaults, an outcome is a record of bytes and a status, a status is its name,
and an identifier is a mere wrapper of a word.  The library itself is given (`Exchange`), and so is
what it is relied on for: it reads texts (`Exchange.ReadsTexts`) and follows these declarations
(`Exchange.FollowsDeclarations`).

From these laws follows what becomes of each value.  For limits, it comes down to which values stand
under the name of a field (`Limits.named_of_lists`) or at its place.
-/

namespace LaneMachine

open Json (Codec Layout)

/-! ## Limits as a record -/

namespace Limits

/-- Limits with the given values. -/
def ofValues (value : Field → UInt64) : Limits where
  initialOperandStack := value .initialOperandStack
  maxOperandStack := value .maxOperandStack
  initialLocalFrame := value .initialLocalFrame
  maxLocalFrame := value .maxLocalFrame
  maxCallStackDepth := value .maxCallStackDepth
  maxLanes := value .maxLanes

@[simp]
theorem get_ofValues (value : Field → UInt64) (field : Field) :
    (ofValues value).get field = value field := by
  cases field <;> rfl

theorem Field.name_injective : Function.Injective Field.name := by
  intro field other h
  have hname := congrArg Field.ofName? h
  rw [Field.ofName?_name, Field.ofName?_name] at hname
  exact Option.some.inj hname

theorem Field.nodup_all : Field.all.Nodup := by
  decide

theorem Field.isPlain_name (field : Field) : Json.IsPlain field.name := by
  cases field <;> decide +kernel

/-- Limits are a record of six words.  One that is not given has its default. -/
def layout (word : Codec UInt64) : Layout Field Limits where
  declared := Field.all
  name := Field.name
  encode limits field := word.encode (limits.get field)
  Reads field json limits := word.decode json = some (limits.get field)
  Defaults field limits := limits.get field = get {} field
  nodup := Field.nodup_all
  mem_declared := Field.mem_all
  name_injective := Field.name_injective

/-- The members that give some of the limits their values. -/
def written (given : Field → Option UInt64) (fields : List Field) : List (Option String × Json) :=
  fields.filterMap fun field =>
    (given field).map fun value => (some field.name, .natural value.toNat)

/-- The members list the given limits, each of them once, in any order and among any members of
other names. -/
inductive Lists (given : Field → Option UInt64) (members : List (Option String × Json)) : Prop where
  | mk {unknown : List (Option String × Json)} :
      (∀ member ∈ unknown, ∃ name, member.1 = some name ∧ ∀ field : Field, name ≠ field.name) →
      members.Perm (written given Field.all ++ unknown) → Lists given members

variable {given : Field → Option UInt64} {members : List (Option String × Json)}

theorem written_cons (first : Field) (rest : List Field) : written given (first :: rest) =
    ((given first).map fun value => (some first.name, Json.natural value.toNat)).toList ++
      written given rest := by
  rw [written, List.filterMap_cons]
  cases given first with
  | none => rfl
  | some value => rfl

theorem named_written {fields : List Field} (hnodup : fields.Nodup) (field : Field) :
    Json.named field.name (written given fields) =
      if field ∈ fields then (given field).toList.map fun value => .natural value.toNat else [] := by
  induction fields with
  | nil => rfl
  | cons first rest ih =>
    obtain ⟨hfirst, hrest⟩ := List.nodup_cons.mp hnodup
    rw [written_cons, Json.named_append, ih hrest]
    by_cases hfield : field = first
    · rw [hfield, if_neg hfirst, if_pos List.mem_cons_self, List.append_nil]
      cases given first with
      | none => rfl
      | some value => exact Json.named_cons_self _ _ []
    · have hname : first.name ≠ field.name := fun h => hfield (Field.name_injective h).symm
      have hnone : Json.named field.name ((given first).map fun value =>
          (some first.name, Json.natural value.toNat)).toList = [] := by
        cases given first with
        | none => rfl
        | some value => exact Json.named_cons_of_ne hname _ []
      rw [hnone, List.nil_append]
      simp only [List.mem_cons, hfield, false_or]

/-- Each limit is found as often as it is given. -/
theorem named_of_lists (h : Lists given members) (field : Field) :
    Json.named field.name members = (given field).toList.map fun value => .natural value.toNat := by
  obtain ⟨hunknown, hperm⟩ := h
  rename_i unknown
  have hnone : Json.named field.name unknown = [] := by
    refine Json.named_eq_nil_iff.mpr fun member hmember => ?_
    obtain ⟨name, hname, hne⟩ := hunknown member hmember
    rw [hname]
    exact fun heq => hne field (Option.some.inj heq)
  have hnamed := @Json.named_perm field.name _ _ hperm
  rw [Json.named_append, named_written Field.nodup_all, if_pos (Field.mem_all field), hnone,
    List.append_nil] at hnamed
  cases hgiven : given field with
  | none =>
    rw [hgiven] at hnamed
    exact hnamed.eq_nil
  | some value =>
    rw [hgiven] at hnamed
    exact hnamed.eq_singleton

theorem isSome_of_lists (h : Lists given members) : ∀ member ∈ members, member.1.isSome = true := by
  obtain ⟨hunknown, hperm⟩ := h
  intro member hmember
  rcases List.mem_append.mp (hperm.mem_iff.mp hmember) with hwritten | hother
  · obtain ⟨field, -, hfield⟩ := List.mem_filterMap.mp hwritten
    obtain ⟨value, -, rfl⟩ := Option.map_eq_some_iff.mp hfield
    rfl
  · obtain ⟨name, hname, -⟩ := hunknown member hother
    rw [hname]
    rfl

end Limits

/-! ## Outcomes as a record -/

namespace Outcome

/-- The two parts of an outcome. -/
inductive Field where
  | output
  | error
  deriving DecidableEq, Repr

/-- The written name of a part. -/
def Field.name : Field → String
  | .output => "output"
  | .error => "error"

theorem Field.name_injective : Function.Injective Field.name
  | .output, .output, _ => rfl
  | .error, .error, _ => rfl
  | .output, .error, h => absurd h (by decide)
  | .error, .output, h => absurd h (by decide)

/-- An outcome is a record of bytes and a status, and neither may be missing. -/
def layout (bytes : Codec Bytes) (status : Codec Status) : Layout Field Outcome where
  declared := [.output, .error]
  name := Field.name
  encode outcome
    | .output => bytes.encode outcome.output
    | .error => status.encode outcome.error
  Reads
    | .output, json, outcome => bytes.decode json = some outcome.output
    | .error, json, outcome => status.decode json = some outcome.error
  Defaults _ _ := False
  nodup := by decide
  mem_declared field := by cases field <;> decide
  name_injective := Field.name_injective

theorem Field.isPlain_name (field : Field) : Json.IsPlain field.name := by
  cases field <;> decide +kernel

/-- An array is read as an outcome if it holds both parts and no more. -/
theorem fills_iff {bytes : Codec Bytes} {status : Codec Status} {outcome : Outcome}
    {elements : List Json} :
    (layout bytes status).Fills outcome [.output, .error] elements ↔
      ∃ output error, elements = [output, error] ∧ bytes.decode output = some outcome.output ∧
        status.decode error = some outcome.error := by
  constructor
  · intro h
    cases h with
    | done hdefaults => exact (hdefaults .output List.mem_cons_self).elim
    | take houtput hrest =>
      cases hrest with
      | done hdefaults => exact (hdefaults .error List.mem_cons_self).elim
      | take herror hrest =>
        cases hrest
        exact ⟨_, _, rfl, houtput, herror⟩
  · rintro ⟨output, error, rfl, houtput, herror⟩
    exact .take houtput (.take herror (.done (List.forall_mem_nil _)))

/-- An outcome that lacks its output or its error, or whose output holds something that is no number
up to 255. -/
inductive Defective : Json → Prop where
  | lacksMember {members : List (Option String × Json)} {name : String} :
      name = "output" ∨ name = "error" → (∀ member ∈ members, member.1 ≠ some name) →
      Defective (.object members)
  | lacksElement {elements : List Json} : elements.length < 2 → Defective (.array elements)
  | noByteInMember {members : List (Option String × Json)} {bytes : List Json} {element : Json} :
      (some "output", .array bytes) ∈ members → element ∈ bytes →
      (∀ n ≤ 255, element ≠ .natural n) → Defective (.object members)
  | noByteInElement {bytes rest : List Json} {element : Json} : element ∈ bytes →
      (∀ n ≤ 255, element ≠ .natural n) → Defective (.array (.array bytes :: rest))

end Outcome

theorem Status.isPlain_name (status : Status) : Json.IsPlain status.name := by
  cases status <;> decide +kernel

/-! ## A host's JSON library -/

/-- The JSON library of a host: how values are printed, and the codecs of what is exchanged with a
session and of its parts. -/
structure Exchange where
  /-- the compact text of a JSON value -/
  compact : Json → List Char
  word : Codec UInt64
  byte : Codec UInt8
  bytes : Codec Bytes
  identifier : Codec Identifier
  status : Codec Status
  limits : Codec Limits
  outcome : Codec Outcome

namespace Exchange

/-- What is exchanged is printed compactly, and read from the texts that spell it. -/
structure ReadsTexts (host : Exchange) : Prop where
  identifier : host.identifier.ReadsTexts host.compact
  status : host.status.ReadsTexts host.compact
  limits : host.limits.ReadsTexts host.compact
  outcome : host.outcome.ReadsTexts host.compact

/-- Every type is written and read as it is declared. -/
structure FollowsDeclarations (host : Exchange) : Prop where
  word : host.word.IsInteger UInt64.toNat
  byte : host.byte.IsInteger UInt8.toNat
  bytes : host.bytes.IsSequence host.byte
  identifier : host.identifier.IsWrapper host.word Identifier.mk
  status : host.status.IsEnumeration Status.name
  limits : host.limits.IsRecord (Limits.layout host.word)
  outcome : host.outcome.IsRecord (Outcome.layout host.bytes host.status)

namespace FollowsDeclarations

variable {host : Exchange}

theorem decode_encode_limits (h : host.FollowsDeclarations) (limits : Limits) :
    host.limits.decode (host.limits.encode limits) = some limits :=
  h.limits.decode_encode fun field => h.word.decode_encode (limits.get field)

theorem decode_encode_outcome (h : host.FollowsDeclarations) (outcome : Outcome) :
    host.outcome.decode (host.outcome.encode outcome) = some outcome := by
  refine h.outcome.decode_encode fun field => ?_
  cases field with
  | output => exact h.bytes.decode_encode h.byte.decode_encode outcome.output
  | error => exact h.status.decode_encode outcome.error

theorem decode_encode_identifier (h : host.FollowsDeclarations) (id : Identifier) :
    host.identifier.decode (host.identifier.encode id) = some id := by
  rw [h.identifier.decode_eq, h.identifier.encode_eq id.value, h.word.decode_encode]
  rfl

theorem spelled_limits (h : host.FollowsDeclarations) (hprints : Json.PrintsCompactly host.compact)
    (limits : Limits) :
    Json.Spelled (host.limits.encode limits) (host.compact (host.limits.encode limits)) := by
  refine h.limits.spelled_encode hprints Limits.Field.isPlain_name fun field => ?_
  show Json.Spelled (host.word.encode _) (host.compact (host.word.encode _))
  rw [h.word.encode_eq]
  exact hprints.spelled_natural _

theorem spelled_outcome (h : host.FollowsDeclarations) (hprints : Json.PrintsCompactly host.compact)
    (outcome : Outcome) :
    Json.Spelled (host.outcome.encode outcome) (host.compact (host.outcome.encode outcome)) := by
  refine h.outcome.spelled_encode hprints Outcome.Field.isPlain_name fun field => ?_
  cases field with
  | output =>
    show Json.Spelled (host.bytes.encode _) (host.compact (host.bytes.encode _))
    rw [h.bytes.encode_eq]
    refine hprints.spelled_array fun element helement => ?_
    obtain ⟨b, -, rfl⟩ := List.mem_map.mp helement
    rw [h.byte.encode_eq]
    exact hprints.spelled_natural _
  | error =>
    show Json.Spelled (host.status.encode _) (host.compact (host.status.encode _))
    rw [h.status.encode_eq]
    exact hprints.spelled_string outcome.error.isPlain_name

/-! ## Limits by hand -/

/-- The limits that are listed are set, and the others have their defaults. -/
theorem decode_lists (h : host.FollowsDeclarations) {given : Limits.Field → Option UInt64}
    {members : List (Option String × Json)} (hlists : Limits.Lists given members) :
    host.limits.decode (.object members) =
      some (.ofValues fun field => (given field).getD (Limits.get {} field)) := by
  refine h.limits.decode_object.mpr (Layout.visits_nil_iff.mpr ⟨Limits.isSome_of_lists hlists, ?_⟩)
  intro field
  have hnamed := Limits.named_of_lists hlists field
  rw [show (Limits.layout host.word).name field = field.name from rfl, hnamed]
  cases hgiven : given field with
  | none =>
    show Limits.get _ field = Limits.get {} field
    rw [Limits.get_ofValues, hgiven, Option.getD_none]
  | some value =>
    show host.word.decode _ = some (Limits.get _ field)
    rw [Limits.get_ofValues, hgiven, Option.getD_some]
    exact h.word.decode_iff.mpr rfl

/-- The first values fill the first fields. -/
theorem fills_values (h : host.FollowsDeclarations) {limits : Limits} {fields : List Limits.Field}
    {values : List UInt64} (hlength : values.length ≤ fields.length)
    (hget : ∀ (k : Nat) field, fields[k]? = some field →
      limits.get field = values[k]?.getD (Limits.get {} field)) :
    (Limits.layout host.word).Fills limits fields (values.map fun value => .natural value.toNat) := by
  induction fields generalizing values with
  | nil =>
    obtain rfl := List.length_eq_zero_iff.mp (Nat.le_zero.mp hlength)
    exact .done (List.forall_mem_nil _)
  | cons first rest ih =>
    cases values with
    | nil =>
      refine .done fun field hfield => ?_
      obtain ⟨k, hk⟩ := List.mem_iff_getElem?.mp hfield
      exact hget k field hk
    | cons value values =>
      have hfirst : limits.get first = value := hget 0 first rfl
      refine .take (h.word.decode_iff.mpr ?_) (ih (Nat.le_of_succ_le_succ hlength) ?_)
      · rw [hfirst]
      · exact fun k => hget (k + 1)

theorem decode_values (h : host.FollowsDeclarations) {values : List UInt64}
    (hlength : values.length ≤ 6) :
    ∃ limits, host.limits.decode (.array (values.map fun value => .natural value.toNat)) =
        some limits ∧
      ∀ (k : Nat) field, Limits.Field.all[k]? = some field →
        limits.get field = values[k]?.getD (Limits.get {} field) := by
  let limits := Limits.ofValues fun field =>
    values[Limits.Field.all.idxOf field]?.getD (Limits.get {} field)
  have hget : ∀ (k : Nat) field, Limits.Field.all[k]? = some field →
      limits.get field = values[k]?.getD (Limits.get {} field) := by
    intro k field hk
    obtain ⟨hlt, hfield⟩ := List.getElem?_eq_some_iff.mp hk
    rw [Limits.get_ofValues, ← hfield, Limits.Field.nodup_all.idxOf_getElem]
  exact ⟨limits, h.limits.decode_array.mpr (h.fills_values hlength hget), hget⟩

/-! ## Outcomes that are not whole -/

/-- Bytes are read from numbers up to 255 only. -/
theorem le_of_decode_bytes (h : host.FollowsDeclarations) {elements : List Json} {bytes : Bytes}
    (hdecode : host.bytes.decode (.array elements) = some bytes) :
    ∀ element ∈ elements, ∃ n ≤ 255, element = .natural n := by
  intro element helement
  obtain ⟨b, hb⟩ := h.bytes.exists_of_decode hdecode element helement
  exact ⟨b.toNat, Nat.le_of_lt_succ b.toNat_lt, h.byte.decode_iff.mp hb⟩

theorem decode_of_defective (h : host.FollowsDeclarations) {json : Json}
    (hdefective : Outcome.Defective json) : host.outcome.decode json = none := by
  refine Option.eq_none_iff_forall_ne_some.mpr fun outcome hread => ?_
  cases hdefective with
  | lacksMember hname hlacks =>
    obtain ⟨-, hsettles⟩ := Layout.visits_nil_iff.mp (h.outcome.decode_object.mp hread)
    have hnone := Json.named_eq_nil_iff.mpr hlacks
    rcases hname with rfl | rfl
    · have houtput := hsettles .output
      rwa [show (Outcome.layout _ _).name .output = "output" from rfl, hnone] at houtput
    · have herror := hsettles .error
      rwa [show (Outcome.layout _ _).name .error = "error" from rfl, hnone] at herror
  | lacksElement hlength =>
    obtain ⟨_, _, rfl, -⟩ := Outcome.fills_iff.mp (h.outcome.decode_array.mp hread)
    exact absurd hlength (Nat.lt_irrefl 2)
  | noByteInMember hmember helement hnone =>
    obtain ⟨-, hsettles⟩ := Layout.visits_nil_iff.mp (h.outcome.decode_object.mp hread)
    have houtput := hsettles .output
    obtain ⟨first, rest, hnamed⟩ := List.exists_cons_of_ne_nil (List.ne_nil_of_mem
      (Json.mem_named hmember))
    rw [show (Outcome.layout _ _).name .output = "output" from rfl, hnamed,
      Layout.settles_cons_iff] at houtput
    obtain ⟨rfl, hdecode⟩ := houtput
    have hmem := Json.mem_named hmember
    rw [hnamed, List.mem_singleton] at hmem
    subst hmem
    obtain ⟨n, hle, heq⟩ := h.le_of_decode_bytes hdecode _ helement
    exact hnone n hle heq
  | noByteInElement helement hnone =>
    obtain ⟨_, _, heq, hdecode, -⟩ := Outcome.fills_iff.mp (h.outcome.decode_array.mp hread)
    obtain ⟨rfl, -⟩ := List.cons.inj heq
    obtain ⟨n, hle, heq⟩ := h.le_of_decode_bytes hdecode _ helement
    exact hnone n hle heq

end FollowsDeclarations

end Exchange

end LaneMachine
