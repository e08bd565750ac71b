import FlatStore.Proofs.Decoding
import FlatStore.Proofs.Dictionary
import FlatStore.Proofs.Order
import FlatStore.Proofs.Storable
import FlatStore.Record.Rule

/-!
Rules in their flat form. A rule whose weight is finite has a flat form, and from this form the rule comes back without
the members that it does not know (`Rule.ofFlat_toFlat`). Its selectors are written in the order of their texts and come
back in the order of the set; everything else is read as it was written.
-/
namespace FlatStore

/-! ### Parts of rules -/

namespace Json

theorem read_int (n : Int64) : Scalar.ofJsonAs? .int (.int n) = some (.int n) :=
  congrArg (Option.map Scalar.int) (Scalar.toInt64?_ofInt64 n)

theorem storable_string (s : String) : (Schema.scalar .string).Storable (.string s) :=
  .scalar (show Scalar.ofJsonAs? .string (.string s) = some (.string s) from rfl)

theorem storable_int (n : Int64) : (Schema.scalar .int).Storable (.int n) := .scalar (read_int n)

theorem normal_int (n : Int64) : (Schema.scalar .int).normal (.int n) = .int n := Schema.normal_scalar (read_int n)

end Json

namespace Condition

/-- The schema of conditions. -/
def layout : Schema := .object ⟨"Condition",
  [{ Field.plain "field_name" (.scalar .string) with wireName := "fieldName" }, .plain "value" (.scalar .string)]⟩

theorem storable (c : Condition) : layout.Storable c.toJson := by
  refine .block rfl (by decide) ?_ ?_
  · exact List.forall_mem_cons.2 ⟨fun _ => Option.some_ne_none _,
      List.forall_mem_singleton.2 fun _ => Option.some_ne_none _⟩
  · exact List.forall_mem_cons.2 ⟨Json.storable_string _, List.forall_mem_singleton.2 (Json.storable_string _)⟩

theorem distinct_toJson (c : Condition) : c.toJson.Distinct := by
  simp [toJson, Json.Distinct, Json.DistinctMembers]

end Condition

namespace Event

/-- The field for the tag of an event. -/
def tagField : Field Schema := { Field.plain "type" (.scalar .string) with optional := true }

/-- A number that some events have. -/
def part (name : String) : Field Schema := { Field.plain name (.scalar .int) with optional := true }

/-- The schema of events. -/
def layout : Schema := .union ⟨"Event", ⟨"type", "type"⟩,
  [⟨"Click", ["click"], none, ⟨"Click", [tagField, part "x", part "y"]⟩⟩,
    ⟨"Tap", ["tap"], none, ⟨"Tap", [tagField, part "duration"]⟩⟩],
  ⟨"EventBase", [tagField, part "x", part "y", part "duration"]⟩⟩

theorem storable (e : Event) : layout.Storable e.toJson := by
  have optional : ∀ shape ∈ layout.shapes, ∀ f ∈ shape.fields, f.optional = true := by decide
  have required : ∀ members, ∀ f ∈ (layout.shapeFor members).fields, f.optional = false → f.value? members ≠ none := by
    intro members f mem required
    rw [optional _ (Schema.shapeFor_mem_shapes rfl members) f mem] at required
    cases required
  cases e with
  | click c =>
    refine .block rfl (by decide) (required _) ?_
    exact List.forall_mem_cons.2 ⟨Json.storable_string _, List.forall_mem_cons.2 ⟨Json.storable_int _,
      List.forall_mem_singleton.2 (Json.storable_int _)⟩⟩
  | tap t =>
    refine .block rfl (by decide) (required _) ?_
    exact List.forall_mem_cons.2 ⟨Json.storable_string _, List.forall_mem_singleton.2 (Json.storable_int _)⟩

theorem normal_toJson (e : Event) : layout.normal e.toJson = e.toJson := by
  cases e with
  | click c =>
    change Json.object [("type", .string "click"), ("x", (Schema.scalar .int).normal (.int c.x)),
      ("y", (Schema.scalar .int).normal (.int c.y))] = _
    rw [Json.normal_int, Json.normal_int]
    rfl
  | tap t =>
    change Json.object [("type", .string "tap"), ("duration", (Schema.scalar .int).normal (.int t.duration))] = _
    rw [Json.normal_int]
    rfl

theorem distinct_toJson (e : Event) : e.toJson.Distinct := by
  cases e <;> simp [toJson, Click.toMembers, Tap.toMembers, Json.Distinct, Json.DistinctMembers, Json.int]

theorem decode_click (c : Click) (form : Form) : Click.decoder form (.ofJson (.object c.toMembers)) = .ok c := by
  have nodup : (c.toMembers.map Prod.fst).Nodup := by simp [Click.toMembers]
  have x : (Members.required "x" .int).Reads form c.toMembers c.x := .one nodup rfl (Decoder.int_ofJson form c.x)
  have y : (Members.required "y" .int).Reads form c.toMembers c.y := .one nodup rfl (Decoder.int_ofJson form c.y)
  exact ((x.and y (by decide)).map _).decoder "struct Click"

theorem decode_tap (t : Tap) (form : Form) : Tap.decoder form (.ofJson (.object t.toMembers)) = .ok t := by
  have nodup : (t.toMembers.map Prod.fst).Nodup := by simp [Tap.toMembers]
  have duration : (Members.required "duration" .int).Reads form t.toMembers t.duration :=
    .one nodup rfl (Decoder.int_ofJson form t.duration)
  exact (duration.map _).decoder "struct Tap"

theorem decode_toJson (e : Event) (form : Form) : decoder form (.ofJson e.toJson) = .ok e := by
  cases e with
  | click c =>
    refine (Tagged.decoder_ofJson rfl (by simp [Click.toMembers]) ?_ form).trans ?_
    · simp [Click.toMembers, Json.Distinct, Json.int]
    · exact congrArg (Except.map Event.click) (decode_click c .buffered)
  | tap t =>
    refine (Tagged.decoder_ofJson rfl (by simp [Tap.toMembers]) ?_ form).trans ?_
    · simp [Tap.toMembers, Json.Distinct, Json.int]
    · exact congrArg (Except.map Event.tap) (decode_tap t .buffered)

end Event

/-! ### Collections of rules -/

namespace Json

variable {schema : Schema} {items : List String}

theorem storable_strings (form : schema.collection? = some (.of (.scalar .string))) (items : List String) :
    schema.Storable (.strings items) := by
  refine .items form (by simp [Collection.of]) (List.forall_mem_map.2 fun s mem => ⟨.inl rfl, ⟨by simp [Collection.unwrap,
    Collection.of], ?_⟩, storable_string s⟩)
  rintro members ⟨⟩

theorem distinct_strings (items : List String) : (strings items).Distinct :=
  distinct_array (List.forall_mem_map.2 fun _ _ => trivial)

/-- Strings are read back as they are arranged. -/
theorem normal_strings (form : schema.collection? = some (.of (.scalar .string))) (items : List String) :
    schema.normal (.strings items) = .array (schema.arranged (items.map .string)) := by
  rw [strings, Schema.normal_items form]
  refine congrArg Json.array ((List.map_congr_left fun item mem => ?_).trans (List.map_id _))
  obtain ⟨s, -, rfl⟩ := List.mem_map.1 ((schema.arranged_perm _).mem_iff.1 mem)
  rfl

/-- The strings of a set are arranged by their texts. -/
theorem setOrder_strings (items : List String) :
    ∃ sorted : List String, sorted.Perm items ∧ Schema.setOrder (items.map .string) = sorted.map .string := by
  let before (a b : String) : Bool := decide ((Json.string a).render ≤ (Json.string b).render)
  refine ⟨items.mergeSort before, List.mergeSort_perm _ _, ?_⟩
  have sorted : (items.mergeSort before).map (fun s => ((Json.string s).render, Json.string s)) =
      (items.map fun s => ((Json.string s).render, Json.string s)).mergeSort fun a b => decide (a.1 ≤ b.1) :=
    List.map_mergeSort fun _ _ _ _ => rfl
  rw [Schema.setOrder, List.map_map]
  change ((items.map fun s => ((Json.string s).render, Json.string s)).mergeSort _).map Prod.snd = _
  rw [← sorted, List.map_map]
  rfl

end Json

namespace Rule

/-- The schema of a list of conditions, which are stored without their wrappers. -/
def conditionsLayout : Schema := .list { Collection.of Condition.layout with wrapper := some "condition" }

theorem storable_conditions (given : List ConditionEntry) :
    conditionsLayout.Storable (.array (given.map ConditionEntry.toJson)) := by
  refine .items rfl (by simp [Collection.of]) (List.forall_mem_map.2 fun e mem => ⟨.inr ⟨_, rfl⟩, ⟨?_, ?_⟩, ?_⟩)
  · exact (Condition.storable e.condition).nonnull
  · rintro members - same
    cases same
    exact List.cons_ne_nil _ _
  · exact Condition.storable e.condition

theorem normal_conditions (given : List ConditionEntry) :
    conditionsLayout.normal (.array (given.map ConditionEntry.toJson)) = .array (given.map ConditionEntry.toJson) := by
  rw [Schema.normal_items rfl]
  change Json.array ((given.map ConditionEntry.toJson).map _) = _
  rw [List.map_map]
  rfl

theorem decode_conditions (given : List ConditionEntry) (form : Form) :
    Decoder.list ConditionEntry.decoder form (.ofJson (.array (given.map ConditionEntry.toJson))) = .ok given :=
  Decoder.list_ofJson fun _ _ => rfl

theorem storable_labels (labels : Dictionary String) :
    (Schema.map (.scalar .string)).Storable (labels.toJson .string) :=
  .map (List.forall_mem_map.2 fun entry _ => Json.storable_string entry.2)

theorem normal_labels (labels : Dictionary String) :
    (Schema.map (.scalar .string)).normal (labels.toJson .string) = labels.toJson .string := by
  have sorted : Schema.mapOrder (labels.entries.map fun entry => (entry.1, Json.string entry.2)) =
      labels.entries.map fun entry => (entry.1, Json.string entry.2) := by
    refine List.mergeSort_of_pairwise ?_
    rw [List.pairwise_map]
    exact labels.sorted.imp fun before => decide_eq_true (Std.le_of_lt before)
  rw [Dictionary.toJson, Schema.normal_map, sorted, List.map_map]
  rfl

theorem decode_labels (labels : Dictionary String) (form : Form) :
    Decoder.sortedDictionary .string form (.ofJson (labels.toJson .string)) = .ok labels := by
  rw [Decoder.sortedDictionary, Decoder.map, Dictionary.toJson,
    Decoder.dictionary_ofJson labels.nodup_keys fun _ _ => rfl]
  exact congrArg Except.ok (Dictionary.ofList_eq_of_perm (.refl _))

/-- A set is read back from its strings in any order. -/
theorem decode_selectors {selectors : StringSet} {items : List String} (perm : items.Perm selectors.keys) (form : Form) :
    Decoder.stringSet form (.ofJson (.strings items)) = .ok selectors := by
  rw [Decoder.stringSet, Decoder.map, Json.strings, Decoder.strings_ofJson]
  refine congrArg Except.ok (Dictionary.ofList_eq_of_perm ((perm.map (·, ())).trans (.of_eq ?_)))
  rw [Dictionary.keys, List.map_map]
  exact List.map_id _

/-! ### Rules -/

/-- The fields of rules before the last one. -/
def leadingFields : List (Field Schema) :=
  [.plain "name" (.scalar .string), { Field.plain "owner" (.scalar .string) with promotedFrom := some "meta" },
    { Field.plain "revision" (.scalar .int) with optional := true, promotedFrom := some "meta" },
    .plain "conditions" conditionsLayout,
    { Field.plain "tags" (.list (.of (.scalar .string))) with optional := true },
    .plain "labels" (.map (.scalar .string)), .plain "selectors" (.set (.of (.scalar .string))),
    { Field.plain "event" Event.layout with optional := true }]

def weightField : Field Schema := .plain "weight" (.scalar .float)

def fields : List (Field Schema) := leadingFields ++ [weightField]

/-- The schema of rules. -/
def layout : Schema := .object ⟨"Rule", fields⟩

theorem nodup_wireNames : (fields.map Field.wireName).Nodup := by decide

/-- Rules know the wire names of their fields. -/
theorem mem_names_of_field : ∀ f ∈ fields, f.wireName ∈ members.names ++ Meta.members.names := by decide

theorem schema_eq : Record.schema Rule = .ok layout := rfl

/-- The members that a rule knows, in the order in which they are written. -/
def knownMembers (r : Rule) : List (String × Json) :=
  [("name", .string r.name)] ++ r.info.toMembers ++ [("conditions", .array (r.conditions.map ConditionEntry.toJson))] ++
    Json.memberOf "tags" .strings r.tags ++
    [("labels", r.labels.toJson .string), ("selectors", .strings r.selectors.keys)] ++
    Json.memberOf "event" Event.toJson r.event ++ [("weight", .number r.weight)]

theorem toJson_eq (r : Rule) : r.toJson = .object (r.knownMembers ++ r.unknown) := rfl

/-- The rule without the members that it does not know. -/
def known (r : Rule) : Rule := { r with others := ⟨[], .nil, by simp⟩ }

/-- The values of the leading fields, with the selectors in a given order. -/
def leadingValues (r : Rule) (selectors : List String) : List (Option Json) :=
  [some (.string r.name), some (.string r.info.owner), r.info.revision.map .int,
    some (.array (r.conditions.map ConditionEntry.toJson)), r.tags.map .strings, some (r.labels.toJson .string),
    some (.strings selectors), r.event.map Event.toJson]

theorem values (r : Rule) : leadingFields.map (·.value? r.knownMembers) = r.leadingValues r.selectors.keys := by
  obtain ⟨name, ⟨owner, revision⟩, conditions, tags, labels, selectors, event, weight, others⟩ := r
  cases revision <;> cases tags <;> rcases event with _ | ⟨_ | _⟩ <;> rfl

theorem value_weight (r : Rule) : weightField.value? r.knownMembers =
    match r.weight with
    | .finite x => some (.float x)
    | _ => none := by
  obtain ⟨name, ⟨owner, revision⟩, conditions, tags, labels, selectors, event, weight, others⟩ := r
  cases revision <;> cases tags <;> cases event <;> cases weight <;> rfl

theorem value?_toMembers (r : Rule) {f : Field Schema} (mem : f ∈ fields) :
    f.value? (r.knownMembers ++ r.unknown) = f.value? r.knownMembers := by
  rw [Field.value?, Field.value?, unknown, r.others.lookup_append (mem_names_of_field f mem)]

/-- Every value of a rule is stored. -/
theorem storable_values (r : Rule) : ∀ f ∈ leadingFields, (f.optional = false → f.value? r.knownMembers ≠ none) ∧
    ∀ v, f.value? r.knownMembers = some v → f.schema.Storable v := by
  have values := r.values
  simp only [leadingFields, leadingValues, List.map_cons, List.map_nil, List.cons.injEq, and_true] at values
  obtain ⟨name, owner, revision, conditions, tags, labels, selectors, event⟩ := values
  have required : ∀ {f : Field Schema} {v : Json}, f.value? r.knownMembers = some v → f.schema.Storable v →
      (f.optional = false → f.value? r.knownMembers ≠ none) ∧
        ∀ v, f.value? r.knownMembers = some v → f.schema.Storable v := by
    intro f v found storable
    rw [found]
    exact ⟨fun _ => Option.some_ne_none _, fun w same => Option.some.inj same ▸ storable⟩
  have optional : ∀ {α : Type} {f : Field Schema} {value : Option α} {write : α → Json}, f.optional = true →
      f.value? r.knownMembers = value.map write → (∀ a, f.schema.Storable (write a)) →
      (f.optional = false → f.value? r.knownMembers ≠ none) ∧
        ∀ v, f.value? r.knownMembers = some v → f.schema.Storable v := by
    intro α f value write optional found storable
    refine ⟨fun required => by simp [optional] at required, fun v there => ?_⟩
    rw [found] at there
    obtain ⟨a, -, rfl⟩ := Option.map_eq_some_iff.1 there
    exact storable a
  simp only [leadingFields, List.forall_mem_cons, List.not_mem_nil, false_imp_iff, implies_true, and_true]
  exact ⟨required name (Json.storable_string _), required owner (Json.storable_string _),
    optional rfl revision Json.storable_int, required conditions (storable_conditions _),
    optional rfl tags (Json.storable_strings rfl), required labels (storable_labels _),
    required selectors (Json.storable_strings rfl _), optional rfl event Event.storable⟩

theorem storable_weight (r : Rule) (v : Json) (found : weightField.value? r.knownMembers = some v) :
    weightField.schema.Storable v := by
  rw [r.value_weight] at found
  cases weight : r.weight with
  | finite x =>
    rw [weight] at found
    cases found
    exact .scalar (show Scalar.ofJsonAs? .float (.float x) = some (.float (.finite x)) from rfl)
  | infinite | nan =>
    rw [weight] at found
    cases found

theorem valid_layout : layout.Valid := by decide

theorem restorable_layout : layout.Restorable := by decide

/-- What a rule writes does not depend on members that it does not know. -/
theorem trace_toJson (r : Rule) : layout.trace false r.toJson .root false =
    layout.trace false (.object r.knownMembers) .root false := by
  rw [toJson_eq, Schema.trace_block rfl, Schema.trace_block rfl]
  refine congrArg (Trace.openBlock .root false ++ ·) (Schema.traceFields_congr fun f mem => ?_)
  rw [Schema.traceField, Schema.traceField, r.value?_toMembers mem]

theorem flatten_toJson (r : Rule) : layout.flatten r.toJson false = layout.flatten (.object r.knownMembers) false := by
  rw [Schema.flatten, Schema.flatten, Schema.flattenInto, Schema.flattenInto, trace_toJson]

/-- Nothing but the weight can be missing. -/
theorem failure_trace (r : Rule) : (layout.trace false (.object r.knownMembers) .root false).failure =
    match r.weight with
    | .finite _ => none
    | _ => some (.missingRequired "weight") := by
  have sound : Schema.SoundShape ⟨"Rule", fields⟩ := Schema.valid_object_iff.1 valid_layout
  have leading : ∀ f ∈ leadingFields, (Schema.traceField false r.knownMembers .root f).failure = none := by
    intro f mem
    obtain ⟨required, storable⟩ := r.storable_values f mem
    rw [Schema.traceField_eq sound (List.mem_append_left _ mem)]
    cases found : f.value? r.knownMembers with
    | some v => exact (storable v found).fits _ false
    | none =>
      cases optional : f.optional with
      | true => rfl
      | false => exact absurd found (required optional)
  have last : (Schema.traceField false r.knownMembers .root weightField).failure =
      match r.weight with
      | .finite _ => none
      | _ => some (.missingRequired "weight") := by
    rw [Schema.traceField_eq sound (List.mem_append_right _ List.mem_cons_self), r.value_weight]
    cases r.weight <;> rfl
  rw [Schema.trace_block rfl, Trace.append_of_ok rfl]
  exact (Schema.failure_traceFields_concat leading).trans last

theorem toFlat_eq (r : Rule) :
    Record.toFlat false r = (layout.flatten (.object r.knownMembers) false).mapError .flatten := by
  rw [← flatten_toJson]
  rfl

/-- A rule with a finite weight has a flat form. -/
theorem exists_toFlat {r : Rule} {x : Finite64} (weight : r.weight = .finite x) :
    ∃ s, Record.toFlat false r = .ok s ∧ layout.flatten (.object r.knownMembers) false = .ok s := by
  have accepted : layout.Accepts (.object r.knownMembers) .root false := by
    rw [Schema.Accepts, failure_trace, weight]
  have flat := Schema.flatten_eq_ok_iff.2 ⟨accepted, rfl⟩
  exact ⟨_, by rw [toFlat_eq, flat]; rfl, flat⟩

/-- No other rule has one. -/
theorem toFlat_eq_error {r : Rule} (weight : ∀ x, r.weight ≠ .finite x) :
    Record.toFlat false r = .error (.flatten (.missingRequired "weight")) := by
  have failed := r.failure_trace
  cases other : r.weight with
  | finite x => exact absurd other (weight x)
  | infinite | nan =>
    rw [other] at failed
    rw [toFlat_eq, Schema.flatten_eq_error failed]
    rfl

/-! ### Reading rules -/

/-- The values that come back are those that were written, with the selectors in the order of their texts. -/
theorem values_back (r : Rule) : ∃ sorted : List String, sorted.Perm r.selectors.keys ∧
    leadingFields.map (fun f => (f.value? r.knownMembers).map f.schema.normal) =
      r.leadingValues sorted := by
  obtain ⟨sorted, perm, arranged⟩ := Json.setOrder_strings r.selectors.keys
  have values := r.values
  simp only [leadingFields, leadingValues, List.map_cons, List.map_nil, List.cons.injEq, and_true] at values ⊢
  obtain ⟨name, owner, revision, conditions, tags, labels, selectors, event⟩ := values
  have kept : ∀ {α : Type} {schema : Schema} {value : Option α} {write : α → Json},
      (∀ a, schema.normal (write a) = write a) → (value.map write).map schema.normal = value.map write := by
    intro α schema value write same
    cases value with
    | none => rfl
    | some a => exact congrArg some (same a)
  refine ⟨sorted, perm, ?_, ?_, ?_, ?_, ?_, ?_, ?_, ?_⟩
  · rw [name]; rfl
  · rw [owner]; rfl
  · rw [revision]; exact kept Json.normal_int
  · rw [conditions]; exact congrArg some (normal_conditions _)
  · rw [tags]; exact kept fun tags => Json.normal_strings rfl tags
  · rw [labels]; exact congrArg some (normal_labels _)
  · rw [selectors]
    exact congrArg some ((Json.normal_strings rfl _).trans (congrArg Json.array arranged))
  · rw [event]; exact kept Event.normal_toJson

/-- A rule of finite weight writes the members that its fields have values for. -/
theorem knownMembers_eq_filled {r : Rule} {x : Finite64} (weight : r.weight = .finite x) :
    r.knownMembers = filled (·.value? r.knownMembers) fields := by
  obtain ⟨name, ⟨owner, revision⟩, conditions, tags, labels, selectors, event, _, others⟩ := r
  cases weight
  cases revision <;> cases tags <;> rcases event with _ | ⟨_ | _⟩ <;> rfl

theorem weight_back {r : Rule} {x : Finite64} (weight : r.weight = .finite x) :
    (weightField.value? r.knownMembers).map weightField.schema.normal = some (.float x) := by
  rw [value_weight, weight]
  rfl

/-- No name is given twice where members have the values of a rule. -/
theorem distinct_filled {r : Rule} {x : Finite64} {selectors : List String} {g : Field Schema → Option Json}
    (values : leadingFields.map g = r.leadingValues selectors) (weight : g weightField = some (.float x)) :
    (Json.object (filled g fields)).Distinct := by
  have labels : (r.labels.toJson .string).Distinct := by
    refine Json.distinct_object ?_ (List.forall_mem_map.2 fun _ _ => trivial)
    simpa [Function.comp_def] using r.labels.nodup_keys
  have conditions : Json.DistinctItems (r.conditions.map ConditionEntry.toJson) := by
    refine Json.distinct_array (List.forall_mem_map.2 fun e _ => Json.distinct_object (by simp) ?_)
    exact List.forall_mem_singleton.2 e.condition.distinct_toJson
  have leading : ∀ value ∈ r.leadingValues selectors, ∀ v ∈ value, v.Distinct := by
    simp [leadingValues, Json.Distinct, labels, conditions, Json.distinct_strings, Json.int, Event.distinct_toJson]
  refine Json.distinct_object ((names_filled_sublist g fields).nodup nodup_wireNames) fun member mem => ?_
  obtain ⟨f, declared, v, found, rfl⟩ := mem_filled_iff.1 mem
  rcases List.mem_append.1 declared with here | last
  · exact leading _ (values ▸ List.mem_map_of_mem here) v found
  · rw [List.mem_singleton.1 last, weight] at found
    cases found
    trivial

/-- A rule is read from members that have its values under the names of its fields. It keeps the other ones. -/
theorem decode_given {r : Rule} {x : Finite64} {given : List (String × Json)} {selectors : List String}
    (distinct : (Json.object given).Distinct) (perm : selectors.Perm r.selectors.keys) (weight : r.weight = .finite x)
    (found : leadingFields.map (fun f => given.lookup f.wireName) = r.leadingValues selectors)
    (weighed : given.lookup "weight" = some (.float x)) (form : Form) :
    ∃ others, decoder form (.ofJson (.object given)) = .ok { r with others } ∧
      others.members = given.filter fun member => member.1 ∉ members.names ++ Meta.members.names := by
  simp only [leadingFields, leadingValues, List.map_cons, List.map_nil, List.cons.injEq, and_true] at found
  obtain ⟨name, owner, revision, conditions, tags, labels, selected, event⟩ := found
  have nodup := distinct.1
  have own : members.Reads form given (r.name, r.conditions, r.tags, r.labels, r.selectors, r.event, r.weight) := by
    have name_read : (Members.required "name" .string).Reads form given r.name := .one nodup name rfl
    have conditions_read : (Members.required "conditions" (.list ConditionEntry.decoder)).Reads form given
        r.conditions := .one nodup conditions (decode_conditions _ _)
    have tags_read : (Members.optional "tags" (.list .string)).Reads form given r.tags :=
      .optional nodup tags fun tags _ => ⟨nofun, Decoder.strings_ofJson tags _⟩
    have labels_read : (Members.required "labels" (.sortedDictionary .string)).Reads form given r.labels :=
      .one nodup labels (decode_labels _ _)
    have selectors_read : (Members.required "selectors" .stringSet).Reads form given r.selectors :=
      .one nodup selected (decode_selectors perm _)
    have event_read : (Members.optional "event" Event.decoder).Reads form given r.event :=
      .optional nodup event fun e _ => ⟨(Event.storable e).nonnull, e.decode_toJson _⟩
    have weight_read : (Members.required "weight" .float).Reads form given r.weight :=
      .one nodup weighed (weight ▸ rfl)
    exact name_read.and (conditions_read.and (tags_read.and (labels_read.and (selectors_read.and
      (event_read.and weight_read (by decide)) (by decide)) (by decide)) (by decide)) (by decide)) (by decide)
  have embedded : Meta.members.Reads .buffered given r.info := by
    have owner_read : (Members.required "owner" .string).Reads .buffered given r.info.owner := .one nodup owner rfl
    have revision_read : (Members.optional "revision" .int).Reads .buffered given r.info.revision :=
      .optional nodup revision fun n _ => ⟨(Json.storable_int n).nonnull, Decoder.int_ofJson _ n⟩
    exact (owner_read.and revision_read (by decide)).map _
  obtain ⟨others, read, kept⟩ := own.openDecoder embedded (by decide) distinct "struct Rule"
  exact ⟨others, by rw [decoder, Decoder.map, read]; rfl, kept⟩

/-- A rule is read from members under the names that it knows. -/
theorem decode_members {r : Rule} {x : Finite64} {given : List (String × Json)} {selectors : List String}
    (distinct : (Json.object given).Distinct)
    (known : ∀ member ∈ given, member.1 ∈ members.names ++ Meta.members.names)
    (perm : selectors.Perm r.selectors.keys) (weight : r.weight = .finite x)
    (found : leadingFields.map (fun f => given.lookup f.wireName) = r.leadingValues selectors)
    (weighed : given.lookup "weight" = some (.float x)) : Decoder.ofJson decoder (.object given) = .ok r.known := by
  obtain ⟨others, read, kept⟩ := decode_given distinct perm weight found weighed .value
  have none_left : others = r.known.others := by
    refine Unclaimed.eq_of_members (kept.trans (List.filter_eq_nil_iff.2 fun member mem => ?_))
    simpa [or_iff_not_imp_left] using known member mem
  rw [none_left] at read
  exact read

/-! ### Back again -/

theorem storable_known (r : Rule) {x : Finite64} (weight : r.weight = .finite x) :
    layout.Storable (.object r.knownMembers) := by
  refine .block rfl valid_layout ?_ fun part mem => ?_
  · refine List.forall_mem_append.2 ⟨fun f mem => (r.storable_values f mem).1, List.forall_mem_singleton.2 fun _ => ?_⟩
    rw [value_weight, weight]
    exact Option.some_ne_none _
  · obtain ⟨⟨f, v⟩, held, rfl⟩ := List.mem_map.1 mem
    obtain ⟨declared, found⟩ := mem_heldFields_iff.1 held
    rcases List.mem_append.1 declared with leading | last
    · exact (r.storable_values f leading).2 v found
    · obtain rfl := List.mem_singleton.1 last
      exact r.storable_weight v found

theorem distinct_knownMembers {r : Rule} {x : Finite64} (weight : r.weight = .finite x) :
    (Json.object r.knownMembers).Distinct := by
  rw [knownMembers_eq_filled weight]
  exact distinct_filled r.values (by rw [value_weight, weight])

/-- A rule with a finite weight comes back from its store. -/
theorem ofFlat_stored {r : Rule} {x : Finite64} {s : Store} (weight : r.weight = .finite x)
    (flat : layout.flatten (.object r.knownMembers) false = .ok s) (fits : s.size < 2 ^ 63) :
    Record.ofFlat s.source = .ok r.known := by
  have storable := r.storable_known weight
  have distinct := distinct_knownMembers weight
  obtain ⟨resolves, -⟩ := Schema.readsBack_root valid_layout restorable_layout storable.nonnull
    (storable.clean distinct) flat fits
  let back : Field Schema → Option Json := fun f => (f.value? r.knownMembers).map f.schema.normal
  have normal : layout.normal (.object r.knownMembers) = .object (filled back fields) := by
    rw [layout, Schema.normal_block rfl, Schema.map_normalMember_eq_filled]
    rfl
  obtain ⟨sorted, perm, values⟩ := r.values_back
  have leading : leadingFields.map (fun f => (filled back fields).lookup f.wireName) =
      leadingFields.map back :=
    List.map_congr_left fun f mem => lookup_filled nodup_wireNames (List.mem_append_left _ mem)
  have weighed := lookup_filled (g := back) nodup_wireNames (List.mem_append_right leadingFields List.mem_cons_self)
  have decoded : Decoder.ofJson decoder (.object (filled back fields)) = .ok r.known := by
    refine decode_members ?_ ?_ perm weight (leading.trans values) (weighed.trans (weight_back weight))
    · exact distinct_filled values (weight_back weight)
    · intro member mem
      obtain ⟨f, declared, v, -, rfl⟩ := mem_filled_iff.1 mem
      exact mem_names_of_field f declared
  have read : Record.ofFlat s.source = (do
    let found ← (layout.resolveRoot s.source).mapError .resolve
    (Decoder.ofJson decoder (layout.orZero found)).mapError .decode : Except RecordError Rule) := rfl
  rw [read, Schema.resolveRoot, resolves, normal]
  change (Decoder.ofJson decoder (.object _)).mapError _ = _
  rw [decoded]
  rfl

/-- Just the rules of finite weight have a flat form. From this form a rule comes back without the members that it does
not know, and what comes back has the same form. A count has 64 bits with a sign, so that the store must not have more
entries than that: none that fits into memory has. -/
theorem ofFlat_toFlat (r : Rule) :
    ((∃ s, Record.toFlat false r = .ok s) ↔ ∃ x, r.weight = .finite x) ∧
      ((∀ x, r.weight ≠ .finite x) → Record.toFlat false r = .error (.flatten (.missingRequired "weight"))) ∧
      ∀ s, Record.toFlat false r = .ok s → s.size < 2 ^ 63 →
        Record.ofFlat s.source = .ok r.known ∧ Record.toFlat false r.known = .ok s := by
  have finite : ∀ s, Record.toFlat false r = .ok s → ∃ x, r.weight = .finite x := by
    intro s flat
    by_contra other
    rw [toFlat_eq_error fun x weight => other ⟨x, weight⟩] at flat
    cases flat
  refine ⟨⟨fun ⟨s, flat⟩ => finite s flat, fun ⟨x, weight⟩ => ?_⟩, toFlat_eq_error, fun s flat fits => ?_⟩
  · obtain ⟨s, flat, -⟩ := exists_toFlat weight
    exact ⟨s, flat⟩
  · obtain ⟨x, weight⟩ := finite s flat
    obtain ⟨stored, again, layout⟩ := exists_toFlat weight
    obtain rfl := Except.ok.inj (again.symm.trans flat)
    exact ⟨ofFlat_stored weight layout fits, (toFlat_eq r.known).trans ((toFlat_eq r).symm.trans flat)⟩

/-- A rule with a value for each of its fields, and a member that it does not know. -/
def denyExternal : Rule where
  name := "deny-external"
  info := ⟨"ops", some 3⟩
  conditions := [⟨⟨"path", "/a"⟩⟩, ⟨⟨"method", "GET"⟩⟩, ⟨⟨"host", "x.io"⟩⟩]
  tags := some ["edge", "prod"]
  labels := .ofList [("tier", "gold"), ("app", "web")]
  selectors := .ofList ["zone-b", "zone-a"]
  event := some (.tap ⟨5⟩)
  weight := .finite ⟨false, 0x3FE8000000000000, by decide⟩
  others := ⟨[("note", .string "old")], by simp, by decide⟩

/-- The labels are written in the order of their keys. -/
theorem trace_labels_denyExternal (a : Address) :
    (Schema.map (.scalar .string)).trace false (denyExternal.labels.toJson .string) a false =
      .count a 2 ++ ((.leaf ((a.index 0).member "key") (.string "app") ++
        .leaf ((a.index 0).member "values") (.string "web")) ++
          ((.leaf ((a.index 1).member "key") (.string "tier") ++
            .leaf ((a.index 1).member "values") (.string "gold")) ++ .empty)) := by
  have sorted : Schema.mapOrder [("app", .string "web"), ("tier", .string "gold")] =
      [("app", .string "web"), ("tier", .string "gold")] := List.mergeSort_of_pairwise (by decide)
  change (Schema.map _).trace false (.object [("app", .string "web"), ("tier", .string "gold")]) _ _ = _
  rw [Schema.trace_map, Schema.traceEntries, sorted]
  rfl

/-- The selectors are written in the order of their texts. -/
theorem trace_selectors_denyExternal (a : Address) :
    (Schema.set (.of (.scalar .string))).trace false (.strings denyExternal.selectors.keys) a false =
      .count a 2 ++ (.leaf (a.index 0) (.string "zone-a") ++ (.leaf (a.index 1) (.string "zone-b") ++ .empty)) := by
  have sorted : Schema.setOrder [.string "zone-a", .string "zone-b"] = [.string "zone-a", .string "zone-b"] := by
    have order : (Json.string "zone-a").render ≤ (Json.string "zone-b").render := by decide
    simp [Schema.setOrder, List.mergeSort, order]
  change (Schema.set _).trace false (.array [.string "zone-a", .string "zone-b"]) _ _ = _
  rw [Schema.trace_items rfl, Schema.arranged, sorted]
  rfl

theorem size_denyExternal {s : Store} (flat : layout.flatten (.object denyExternal.knownMembers) false = .ok s) :
    s.size < 2 ^ 63 := by
  obtain ⟨-, rfl⟩ := Schema.flatten_eq_ok_iff.1 flat
  have labels : Schema.traceField false denyExternal.knownMembers .root (.plain "labels" (.map (.scalar .string))) = _ :=
    trace_labels_denyExternal (Address.root.member "labels")
  have selectors : Schema.traceField false denyExternal.knownMembers .root
      (.plain "selectors" (.set (.of (.scalar .string)))) = _ :=
    trace_selectors_denyExternal (Address.root.member "selectors")
  have start : Address.root.block false = .root := rfl
  have fields : (layout.shapeFor denyExternal.knownMembers).fields = leadingFields ++ [weightField] := rfl
  rw [Store.size_eq_length, Store.toList_ofList, Schema.writes, Schema.trace_block rfl, start, fields]
  simp only [leadingFields, List.cons_append, List.nil_append, Schema.traceFields_cons]
  rw [labels, selectors]
  -- Sorting is no longer in the way.
  decide +kernel

theorem ofFlat_toFlat_denyExternal : (∃ s, Record.toFlat false denyExternal = .ok s ∧
    Record.ofFlat s.source = .ok denyExternal.known ∧ Record.toFlat false denyExternal.known = .ok s) ∧
      Record.toFlat false { denyExternal with weight := .nan } = .error (.flatten (.missingRequired "weight")) := by
  obtain ⟨s, flat, stored⟩ := exists_toFlat (r := denyExternal) rfl
  exact ⟨⟨s, flat, (ofFlat_toFlat denyExternal).2.2 s flat (size_denyExternal stored)⟩,
    (ofFlat_toFlat { denyExternal with weight := .nan }).2.1 nofun⟩

end Rule
end FlatStore
