import LaneMachine.Json.Codec
import LaneMachine.Proofs.Exchange
set_option autoImplicit false

/-!
# Limits, outcomes, identifiers and statuses survive JSON

What a host exchanges with a session comes back from its compact text unchanged.  Limits may also be
written by hand: some of them in an object, in any order and among members of other names, or the
first few in an array; the others keep their defaults.  An outcome has to be whole.  All this holds
over every JSON library that keeps the laws of an `Exchange` (`Session.survives_json`).

The printer, the reader and the codecs of this library are one instance of it (`Exchange.own`).  Their
laws are proved first: what the codecs of records compute in one go is what a visit of the members
comes to.
-/

namespace LaneMachine

open Json (Codec Layout)

/-! ## Texts -/

namespace Json

/-- The codec of two functions between a type and JSON values, over the texts of this library. -/
def Codec.ofFunctions {α : Type} (encode : α → Json) (decode : Json → Option α) : Codec α where
  encode := encode
  decode := decode
  print a := (encode a).text
  parse text := (read? text).bind decode

theorem Codec.readsTexts_ofFunctions {α : Type} (encode : α → Json) (decode : Json → Option α) :
    (ofFunctions encode decode).ReadsTexts chars where
  print_eq a := rfl
  parse_eq htext := by
    show (read? _).bind decode = decode _
    rw [read?_eq_some_iff.mpr htext, Option.bind_some]

theorem quotedChar_of_plain {c : Char} (hcontrol : 0x20 ≤ c.toNat) (hquote : c ≠ '"')
    (hbackslash : c ≠ '\\') : quotedChar c = [c] := by
  have hne : ∀ {other : Char}, other.toNat < 0x20 → c ≠ other := by
    rintro other hother rfl
    omega
  rw [quotedChar, if_neg hquote, if_neg hbackslash, if_neg (by omega), if_neg (by omega),
    if_neg (hne (by decide)), if_neg (hne (by decide)), if_neg (hne (by decide)), if_neg (by omega)]

theorem elementChars_eq (elements : List Json) :
    elementChars elements = [','].intercalate (elements.map chars) := by
  induction elements with
  | nil =>
    rw [elementChars]
    rfl
  | cons element rest ih =>
    cases rest with
    | nil => simp [elementChars, List.intercalate]
    | cons next others =>
      rw [elementChars, ih]
      · simp [List.intercalate]
      · exact List.cons_ne_nil _ _

theorem memberChars_eq (members : List (Option String × Json)) :
    memberChars members = [','].intercalate (members.map fun member =>
      chars (.string member.1) ++ ':' :: chars member.2) := by
  induction members with
  | nil =>
    rw [memberChars]
    rfl
  | cons member rest ih =>
    obtain ⟨name, value⟩ := member
    have hname : chars (.string name) = quoted name := by rw [chars]
    cases rest with
    | nil =>
      rw [memberChars, List.map_singleton, hname]
      simp [List.intercalate]
    | cons next others =>
      rw [memberChars, ih]
      · simp [List.intercalate, hname]
      · exact List.cons_ne_nil _ _

theorem quoted_of_isPlain {text : String} (h : IsPlain text) :
    quoted (some text) = '"' :: (text.toList ++ ['"']) := by
  have hchars : text.toList.flatMap quotedChar = text.toList.flatMap fun c => [c] :=
    List.flatMap_congr fun c hc => quotedChar_of_plain (h c hc).1 (h c hc).2.1 (h c hc).2.2
  show '"' :: text.toList.flatMap quotedChar ++ ['"'] = _
  rw [hchars, List.flatMap_singleton', List.cons_append]

theorem printsCompactly_chars : PrintsCompactly chars where
  natural n := by rw [chars]
  string hplain := by rw [chars, quoted_of_isPlain hplain]
  array elements := by rw [chars, elementChars_eq, List.cons_append]
  object members := by rw [chars, memberChars_eq, List.cons_append]

/-! ## Scalars -/

theorem natural?_eq_some_iff {size n : Nat} {json : Json} :
    json.natural? size = some n ↔ json = .natural n ∧ n < size := by
  cases json with
  | natural m =>
    rw [natural?, Option.ite_none_right_eq_some, Option.some.injEq, Json.natural.injEq]
    exact ⟨fun ⟨hlt, heq⟩ => ⟨heq, heq ▸ hlt⟩, fun ⟨heq, hlt⟩ => ⟨heq ▸ hlt, heq⟩⟩
  | _ => simp [natural?]

/-- A type of the numbers below `size` is read from these numbers. -/
theorem map_natural?_eq_some_iff {α : Type} {size : Nat} {toNat : α → Nat} {ofNat : Nat → α}
    (hlt : ∀ a, toNat a < size) (hofNat : ∀ a, ofNat (toNat a) = a)
    (htoNat : ∀ n < size, toNat (ofNat n) = n) {json : Json} {a : α} :
    (json.natural? size).map ofNat = some a ↔ json = .natural (toNat a) := by
  constructor
  · intro h
    obtain ⟨n, hn, rfl⟩ := Option.map_eq_some_iff.mp h
    obtain ⟨rfl, hsize⟩ := natural?_eq_some_iff.mp hn
    rw [htoNat n hsize]
  · rintro rfl
    rw [natural?_eq_some_iff.mpr ⟨rfl, hlt a⟩, Option.map_some, hofNat]

theorem members?_object_eq_some_iff {members found : List (Option String × Json)} :
    members? (.object members) = some found ↔
      (∀ member ∈ members, member.1.isSome = true) ∧ found = members := by
  rw [members?, Option.ite_none_right_eq_some, Option.some.injEq, List.all_eq_true, eq_comm]

end Json

theorem Status.ofName?_eq_some_iff {name : String} {status : Status} :
    ofName? name = some status ↔ name = status.name := by
  constructor
  · intro h
    rw [ofName?] at h
    have hname := List.find?_some h
    exact (beq_iff_eq.mp hname).symm
  · rintro rfl
    exact ofName?_name status

/-! ## The codecs of this library -/

namespace Exchange

/-- The codecs of this library. -/
def own : Exchange where
  compact := Json.chars
  word := .ofFunctions (fun word => .natural word.toNat) Json.word?
  byte := .ofFunctions (fun byte => .natural byte.toNat) Json.byte?
  bytes := .ofFunctions (fun bytes => .array (bytes.toList.map fun b => .natural b.toNat)) Json.bytes?
  identifier := .ofFunctions Identifier.toJson Identifier.ofJson?
  status := .ofFunctions Status.toJson Status.ofJson?
  limits := .ofFunctions Limits.toJson Limits.ofJson?
  outcome := .ofFunctions Outcome.toJson Outcome.ofJson?

theorem own_readsTexts : own.ReadsTexts where
  identifier := Codec.readsTexts_ofFunctions _ _
  status := Codec.readsTexts_ofFunctions _ _
  limits := Codec.readsTexts_ofFunctions _ _
  outcome := Codec.readsTexts_ofFunctions _ _

end Exchange

namespace Limits

variable {start next result : Limits} {fields : List Field}

theorem get_set_self (limits : Limits) (field : Field) (value : UInt64) :
    (limits.set field value).get field = value := by
  rw [get_set, if_pos rfl]

theorem get_set_of_ne (limits : Limits) {field other : Field} (h : other ≠ field) (value : UInt64) :
    (limits.set field value).get other = limits.get other := by
  rw [get_set, if_neg h]

theorem settles_congr {word : Codec UInt64} {a b : Limits} {field : Field} (values : List Json)
    (h : a.get field = b.get field) :
    (layout word).Settles a field values ↔ (layout word).Settles b field values := by
  match values with
  | [] => exact Eq.congr_left h
  | [json] => exact Eq.congr_right (congrArg some h)
  | _ :: _ :: _ => exact Iff.rfl

/-- The values that are given for a field settle it and leave the others. -/
theorem setFrom?_eq_some_iff {field : Field} {values : List Json}
    (hstart : start.get field = get {} field) :
    start.setFrom? field values = some next ↔
      (layout Exchange.own.word).Settles next field values ∧
        ∀ other, other ≠ field → next.get other = start.get other := by
  match values with
  | [] =>
    rw [setFrom?, Option.some.injEq]
    constructor
    · rintro rfl
      exact ⟨hstart, fun _ _ => rfl⟩
    · rintro ⟨hfield, hothers⟩
      refine ext_get fun other => ?_
      by_cases heq : other = field
      · rw [heq, hstart]
        exact Eq.symm hfield
      · exact (hothers other heq).symm
  | [json] =>
    rw [setFrom?, Option.map_eq_some_iff]
    constructor
    · rintro ⟨value, hvalue, rfl⟩
      refine ⟨?_, fun other hne => get_set_of_ne start hne value⟩
      show json.word? = some _
      rw [hvalue, get_set_self]
    · rintro ⟨hfield, hothers⟩
      refine ⟨next.get field, hfield, ext_get fun other => ?_⟩
      by_cases heq : other = field
      · rw [heq, get_set_self]
      · rw [get_set_of_ne start heq, hothers other heq]
  | _ :: _ :: _ => simp [setFrom?, Layout.Settles]

/-- Setting one field after the other settles each of them. -/
theorem foldlM_setFrom?_eq_some_iff {found : Field → List Json} (hnodup : fields.Nodup)
    (hstart : ∀ field ∈ fields, start.get field = get {} field) :
    fields.foldlM (fun limits field => limits.setFrom? field (found field)) start = some result ↔
      (∀ field ∈ fields, (layout Exchange.own.word).Settles result field (found field)) ∧
        ∀ field, field ∉ fields → result.get field = start.get field := by
  induction fields generalizing start with
  | nil =>
    simp only [List.foldlM_nil, pure, Option.some.injEq, List.not_mem_nil, not_false_eq_true,
      true_implies, false_implies, implies_true, true_and]
    exact ⟨fun heq field => heq ▸ rfl, fun h => (ext_get h).symm⟩
  | cons first rest ih =>
    obtain ⟨hfirst, hrest⟩ := List.nodup_cons.mp hnodup
    obtain ⟨hdefault, hdefaults⟩ := List.forall_mem_cons.mp hstart
    have hne : ∀ field ∈ rest, field ≠ first := fun field hmem heq => hfirst (heq ▸ hmem)
    rw [List.foldlM_cons, Option.bind_eq_bind, Option.bind_eq_some_iff, List.forall_mem_cons]
    constructor
    · rintro ⟨next, hnext, hresult⟩
      obtain ⟨hsettles, hothers⟩ := (setFrom?_eq_some_iff hdefault).mp hnext
      obtain ⟨hfields, hkept⟩ := (ih hrest fun field hmem => by
        rw [hothers field (hne field hmem), hdefaults field hmem]).mp hresult
      refine ⟨⟨(settles_congr _ (hkept first hfirst)).mpr hsettles, hfields⟩, fun field hnot => ?_⟩
      rw [List.mem_cons, not_or] at hnot
      rw [hkept field hnot.2, hothers field hnot.1]
    · rintro ⟨⟨hsettles, hfields⟩, hkept⟩
      refine ⟨start.set first (result.get first), ?_, ?_⟩
      · exact (setFrom?_eq_some_iff hdefault).mpr
          ⟨(settles_congr _ (get_set_self start first _)).mpr hsettles,
            fun field hfield => get_set_of_ne start hfield _⟩
      · refine (ih hrest fun field hmem => ?_).mpr ⟨hfields, fun field hnot => ?_⟩
        · rw [get_set_of_ne start (hne field hmem), hdefaults field hmem]
        · by_cases heq : field = first
          · rw [heq, get_set_self]
          · rw [get_set_of_ne start heq]
            exact hkept field (List.not_mem_cons_of_ne_of_not_mem heq hnot)

/-- Setting fields in order fills them. -/
theorem setInOrder?_eq_some_iff {elements : List Json} (hnodup : fields.Nodup)
    (hstart : ∀ field ∈ fields, start.get field = get {} field) :
    start.setInOrder? fields elements = some result ↔
      (layout Exchange.own.word).Fills result fields elements ∧
        ∀ field, field ∉ fields → result.get field = start.get field := by
  induction elements generalizing start fields with
  | nil =>
    rw [setInOrder?, Option.some.injEq]
    constructor
    · rintro rfl
      exact ⟨.done hstart, fun _ _ => rfl⟩
    · rintro ⟨⟨hdefaults⟩, hkept⟩
      refine (ext_get fun field => ?_).symm
      by_cases hmem : field ∈ fields
      · rw [hstart field hmem]
        exact hdefaults field hmem
      · exact hkept field hmem
  | cons json elements ih =>
    cases fields with
    | nil => exact ⟨nofun, fun h => nomatch h.1⟩
    | cons first rest =>
      obtain ⟨hfirst, hrest⟩ := List.nodup_cons.mp hnodup
      have hnext : ∀ value, ∀ field ∈ rest, (start.set first value).get field = get {} field := by
        intro value field hmem
        have hne : field ≠ first := fun heq => hfirst (heq ▸ hmem)
        rw [get_set_of_ne start hne]
        exact hstart field (List.mem_cons_of_mem _ hmem)
      rw [setInOrder?, Option.bind_eq_some_iff]
      constructor
      · rintro ⟨value, hvalue, hresult⟩
        obtain ⟨hfills, hkept⟩ := (ih hrest (hnext value)).mp hresult
        have hget : result.get first = value :=
          (hkept first hfirst).trans (get_set_self start first value)
        refine ⟨.take (hvalue.trans (congrArg some hget.symm)) hfills, fun field hnot => ?_⟩
        rw [List.mem_cons, not_or] at hnot
        rw [hkept field hnot.2, get_set_of_ne start hnot.1]
      · rintro ⟨hfills, hkept⟩
        cases hfills with
        | take hreads hfills =>
          refine ⟨result.get first, hreads, (ih hrest (hnext _)).mpr ⟨hfills, fun field hnot => ?_⟩⟩
          by_cases heq : field = first
          · rw [heq, get_set_self]
          · rw [get_set_of_ne start heq]
            exact hkept field (List.not_mem_cons_of_ne_of_not_mem heq hnot)

theorem ofJson?_object (members : List (Option String × Json)) :
    ofJson? (.object members) = (Json.members? (.object members)).bind fun members =>
      Field.all.foldlM (fun limits field => limits.setFrom? field (Json.named field.name members)) {} :=
  rfl

theorem ofJson?_isRecord :
    (Codec.ofFunctions toJson ofJson?).IsRecord (layout Exchange.own.word) where
  encode_eq limits := rfl
  decode_object {members limits} := by
    show ofJson? (.object members) = some limits ↔ _
    rw [ofJson?_object, Option.bind_eq_some_iff, Layout.visits_nil_iff]
    constructor
    · rintro ⟨found, hfound, hlimits⟩
      obtain ⟨hnames, rfl⟩ := Json.members?_object_eq_some_iff.mp hfound
      obtain ⟨hsettles, -⟩ := (foldlM_setFrom?_eq_some_iff Field.nodup_all fun _ _ => rfl).mp hlimits
      exact ⟨hnames, fun field => hsettles field (Field.mem_all field)⟩
    · rintro ⟨hnames, hsettles⟩
      refine ⟨members, Json.members?_object_eq_some_iff.mpr ⟨hnames, rfl⟩, ?_⟩
      exact (foldlM_setFrom?_eq_some_iff Field.nodup_all fun _ _ => rfl).mpr
        ⟨fun field _ => hsettles field, fun field hnot => absurd (Field.mem_all field) hnot⟩
  decode_array {elements limits} := by
    show setInOrder? {} Field.all elements = some limits ↔ _
    rw [setInOrder?_eq_some_iff Field.nodup_all fun _ _ => rfl]
    exact and_iff_left fun field hnot => absurd (Field.mem_all field) hnot

end Limits

namespace Outcome

variable {outcome : Outcome}

/-- The values that are given for the two parts settle them. -/
theorem ofValues?_eq_some_iff {outputs errors : List Json} :
    ofValues? outputs errors = some outcome ↔
      (layout Exchange.own.bytes Exchange.own.status).Settles outcome .output outputs ∧
        (layout Exchange.own.bytes Exchange.own.status).Settles outcome .error errors := by
  match outputs, errors with
  | [], _ => exact ⟨nofun, fun h => h.1.elim⟩
  | _ :: _ :: _, _ => exact ⟨nofun, fun h => h.1.elim⟩
  | [_], [] => exact ⟨nofun, fun h => h.2.elim⟩
  | [_], _ :: _ :: _ => exact ⟨nofun, fun h => h.2.elim⟩
  | [output], [error] =>
    show _ ↔ output.bytes? = some outcome.output ∧ Status.ofJson? error = some outcome.error
    constructor
    · intro h
      obtain ⟨bytes, hbytes, h⟩ := Option.bind_eq_some_iff.mp h
      obtain ⟨status, hstatus, h⟩ := Option.bind_eq_some_iff.mp h
      obtain rfl := Option.some.inj h
      exact ⟨hbytes, hstatus⟩
    · rintro ⟨hbytes, hstatus⟩
      rw [ofValues?, hbytes, hstatus]
      rfl

theorem ofJson?_object (members : List (Option String × Json)) :
    ofJson? (.object members) = (Json.members? (.object members)).bind fun members =>
      ofValues? (Json.named "output" members) (Json.named "error" members) := rfl

theorem ofJson?_isRecord : (Codec.ofFunctions toJson ofJson?).IsRecord
    (layout Exchange.own.bytes Exchange.own.status) where
  encode_eq outcome := rfl
  decode_object {members outcome} := by
    show ofJson? (.object members) = some outcome ↔ _
    rw [ofJson?_object, Option.bind_eq_some_iff, Layout.visits_nil_iff]
    constructor
    · rintro ⟨found, hfound, houtcome⟩
      obtain ⟨hnames, rfl⟩ := Json.members?_object_eq_some_iff.mp hfound
      obtain ⟨houtput, herror⟩ := ofValues?_eq_some_iff.mp houtcome
      refine ⟨hnames, fun field => ?_⟩
      cases field with
      | output => exact houtput
      | error => exact herror
    · rintro ⟨hnames, hsettles⟩
      refine ⟨members, Json.members?_object_eq_some_iff.mpr ⟨hnames, rfl⟩, ?_⟩
      exact ofValues?_eq_some_iff.mpr ⟨hsettles .output, hsettles .error⟩
  decode_array {elements outcome} := by
    show ofJson? (.array elements) = some outcome ↔ _
    refine Iff.trans ?_ fills_iff.symm
    constructor
    · intro h
      unfold ofJson? at h
      split at h
      · rename_i output error heq
        exact ⟨output, error, Json.array.inj heq, ofValues?_eq_some_iff.mp h⟩
      · cases h
    · rintro ⟨output, error, rfl, houtput, herror⟩
      show ofValues? [output] [error] = some outcome
      exact ofValues?_eq_some_iff.mpr ⟨houtput, herror⟩

end Outcome

namespace Exchange

theorem own_followsDeclarations : own.FollowsDeclarations where
  word := ⟨fun _ => rfl, Json.map_natural?_eq_some_iff UInt64.toNat_lt (fun _ => UInt64.ofNat_toNat)
    fun _ => UInt64.toNat_ofNat_of_lt'⟩
  byte := ⟨fun _ => rfl, Json.map_natural?_eq_some_iff UInt8.toNat_lt (fun _ => UInt8.ofNat_toNat)
    fun _ => UInt8.toNat_ofNat_of_lt'⟩
  bytes := ⟨fun _ => rfl, fun _ => rfl⟩
  identifier := ⟨fun _ => rfl, fun _ => rfl⟩
  status := ⟨fun _ => rfl, Status.ofName?_eq_some_iff⟩
  limits := Limits.ofJson?_isRecord
  outcome := Outcome.ofJson?_isRecord

end Exchange

/-! ## What survives -/

namespace Session

/-- Over any JSON library that prints compactly, reads texts as the values that they spell, and
follows the declarations of the types: limits, outcomes, identifiers and statuses are read back from
their texts. A text that lists some limits, by name or the first few in order, leaves the others at
their defaults, and a text of an outcome that is not whole is refused. -/
theorem survives_json (host : Exchange) (hprints : Json.PrintsCompactly host.compact)
    (hreads : host.ReadsTexts) (hdeclared : host.FollowsDeclarations) :
    (∀ limits, host.limits.parse (host.limits.print limits) = some limits) ∧
    (∀ outcome, host.outcome.parse (host.outcome.print outcome) = some outcome) ∧
    (∀ id, host.identifier.parse (host.identifier.print id) = some id) ∧
    (∀ status, host.status.parse (host.status.print status) = some status) ∧
    (∀ given members text, Limits.Lists given members →
      Json.Document (.object members) text.toList →
      ∃ limits, host.limits.parse text = some limits ∧
        ∀ field, limits.get field = (given field).getD (Limits.get {} field)) ∧
    (∀ (values : List UInt64) text, values.length ≤ 6 →
      Json.Document (.array (values.map fun value => .natural value.toNat)) text.toList →
      ∃ limits, host.limits.parse text = some limits ∧
        ∀ (k : Nat) field, Limits.Field.all[k]? = some field →
          limits.get field = values[k]?.getD (Limits.get {} field)) ∧
    ∀ json text, Outcome.Defective json → Json.Document json text.toList →
      host.outcome.parse text = none := by
  refine ⟨fun limits => ?_, fun outcome => ?_, fun id => ?_, fun status => ?_, ?_, ?_, ?_⟩
  · exact Codec.parse_print hreads.limits (hdeclared.spelled_limits hprints limits)
      (hdeclared.decode_encode_limits limits)
  · exact Codec.parse_print hreads.outcome (hdeclared.spelled_outcome hprints outcome)
      (hdeclared.decode_encode_outcome outcome)
  · refine Codec.parse_print hreads.identifier ?_ (hdeclared.decode_encode_identifier id)
    rw [hdeclared.identifier.encode_eq id.value, hdeclared.word.encode_eq]
    exact hprints.spelled_natural _
  · refine Codec.parse_print hreads.status ?_ (hdeclared.status.decode_encode status)
    rw [hdeclared.status.encode_eq]
    exact hprints.spelled_string status.isPlain_name
  · intro given members text hlists htext
    rw [hreads.limits.parse_eq htext, hdeclared.decode_lists hlists]
    exact ⟨_, rfl, Limits.get_ofValues _⟩
  · intro values text hlength htext
    rw [hreads.limits.parse_eq htext]
    exact hdeclared.decode_values hlength
  · intro json text hdefective htext
    rw [hreads.outcome.parse_eq htext]
    exact hdeclared.decode_of_defective hdefective

/-- Two limits in reverse order behind a member of another name, with blanks and an escape in a
name. -/
def twoLimits : String :=
  "\x7b \"x\" :[1.5,\"\\ud800\"],\"max_lanes\": 18446744073709551615,\"max_local_fram\\u0065\":8\x7d"

/-- What `twoLimits` gives. -/
def twoGiven : Limits.Field → Option UInt64
  | .maxLanes => some 18446744073709551615
  | .maxLocalFrame => some 8
  | _ => none

/-- The members that `twoLimits` spells. -/
def twoMembers : List (Option String × Json) :=
  [(some "x", .array [.decimal "1.5", .string none]),
   (some "max_lanes", .natural 18446744073709551615), (some "max_local_frame", .natural 8)]

theorem lists_twoLimits : Limits.Lists twoGiven twoMembers := by
  refine .mk (List.forall_mem_singleton.mpr ⟨"x", rfl, fun field => ?_⟩)
    (List.reverse_perm _).symm
  cases field <;> decide

set_option maxRecDepth 2000 in
theorem document_twoLimits : Json.Document (.object twoMembers) twoLimits.toList := by
  refine Json.read?_eq_some_iff.mp ?_
  simp only [Json.read?, twoLimits, String.reduceToList]
  rfl

/-- With the codecs of this library an outcome comes back from its text, two limits are set and the
others keep their defaults, two numbers in an array set the first two, and an outcome with a byte of
256 is refused. -/
theorem survives_json_twoLimits :
    Exchange.own.outcome.parse (Exchange.own.outcome.print ⟨#[0, 255], .overflow⟩) =
      some ⟨#[0, 255], .overflow⟩ ∧
    (∃ limits, Exchange.own.limits.parse twoLimits = some limits ∧
      ∀ field, limits.get field = (twoGiven field).getD (Limits.get {} field)) ∧
    (∃ limits, Exchange.own.limits.parse "[1, 2]" = some limits ∧
      limits.get .maxOperandStack = 2 ∧ limits.get .maxLanes = 1024) ∧
    Exchange.own.outcome.parse "[[0,256],\"NoError\"]" = none := by
  obtain ⟨-, houtcome, -, -, hobject, harray, hdefective⟩ := survives_json Exchange.own
    Json.printsCompactly_chars Exchange.own_readsTexts Exchange.own_followsDeclarations
  refine ⟨houtcome _, hobject twoGiven _ twoLimits lists_twoLimits document_twoLimits, ?_, ?_⟩
  · have hread : Json.read? "[1, 2]" = some (.array [.natural 1, .natural 2]) := by
      simp only [Json.read?, String.reduceToList]
      rfl
    obtain ⟨limits, hlimits, hget⟩ :=
      harray [1, 2] _ (by decide) (Json.read?_eq_some_iff.mp hread)
    exact ⟨limits, hlimits, hget 1 _ rfl, hget 5 _ rfl⟩
  · have hread : Json.read? "[[0,256],\"NoError\"]" =
        some (.array [.array [.natural 0, .natural 256], .string (some "NoError")]) := by
      simp only [Json.read?, String.reduceToList]
      rfl
    have habove : ∀ n ≤ 255, Json.natural 256 ≠ .natural n := by
      rintro n hle ⟨⟩
      exact absurd hle (by decide)
    exact hdefective _ _
      (.noByteInElement (List.mem_cons_of_mem _ List.mem_cons_self) habove)
      (Json.read?_eq_some_iff.mp hread)

end Session

end LaneMachine
