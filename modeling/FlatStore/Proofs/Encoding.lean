import FlatStore.Proofs.Decoding
import FlatStore.Schema.Decode
import FlatStore.Schema.Json

/-!
The written form of schemas is read back as the schema (`Schema.ofJson_toJson`). Every part of a schema is written as an
object and read by the record of that part, whose members are found by their names whether they are written or left
out. A reader is bounded by how deep the text nests, and a schema nests less deeply than its written form.
-/
namespace FlatStore

/-! ### How deep values nest -/

/-- How deep the containers of a value stand in one another. -/
def Json.height (value : Json) : Nat := (Draft.ofJson value).height

namespace Json

theorem height_lt_of_item {items : List Json} {item : Json} (mem : item ∈ items) : item.height < (array items).height := by
  have within : ∀ items : List Json, item ∈ items → item.height ≤ Draft.heightItems (Draft.ofItems items) := by
    intro items mem
    induction items with
    | nil => cases mem
    | cons head tail ih =>
      rcases List.mem_cons.1 mem with rfl | mem
      · exact Nat.le_max_left _ _
      · exact Nat.le_trans (ih mem) (Nat.le_max_right _ _)
  exact Nat.lt_succ_of_le (within items mem)

theorem height_lt_of_member {members : List (String × Json)} {name : String} {value : Json}
    (mem : (name, value) ∈ members) : value.height < (object members).height := by
  have within : ∀ members : List (String × Json), (name, value) ∈ members →
      value.height ≤ Draft.heightMembers (Draft.ofMembers members) := by
    intro members mem
    induction members with
    | nil => cases mem
    | cons head tail ih =>
      rcases List.mem_cons.1 mem with rfl | mem
      · exact Nat.le_max_left _ _
      · exact Nat.le_trans (ih mem) (Nat.le_max_right _ _)
  exact Nat.lt_succ_of_le (within members mem)

end Json

/-! ### Parts as objects -/

open Schema (optionalMember strings)

/-- The members that a field is written with. -/
def Field.toMembers (f : Field Schema) : List (String × Json) :=
  [("name", .string f.name), ("wire_name", .string f.wireName), ("schema", f.schema.toJson),
    ("optional", .bool f.optional), ("computed", .bool f.computed)] ++
    (if f.aliases.isEmpty then [] else [("aliases", strings f.aliases)]) ++
    optionalMember "promoted_from" .string f.promotedFrom

def Shape.toMembers (shape : Shape Schema) : List (String × Json) :=
  [("name", .string shape.name), ("fields", .array (shape.fields.map fun f => .object f.toMembers))]

def Variant.toMembers (v : Variant Schema) : List (String × Json) :=
  [("name", .string v.name), ("values", strings v.values)] ++ optionalMember "segment" .string v.segment ++
    [("schema", .object v.shape.toMembers)]

def TaggedUnion.toMembers (choice : TaggedUnion Schema) : List (String × Json) :=
  [("name", .string choice.name), ("discriminator", choice.discriminator.toJson),
    ("variants", .array (choice.variants.map fun v => .object v.toMembers)), ("base", .object choice.base.toMembers)]

namespace Schema

theorem fieldItems_eq_map (fields : List (Field Schema)) :
    fieldItems fields = fields.map fun f => .object f.toMembers := by
  induction fields with
  | nil => rfl
  | cons f rest ih => rw [fieldItems, ih]; rfl

theorem variantItems_eq_map (variants : List (Variant Schema)) :
    variantItems variants = variants.map fun v => .object v.toMembers := by
  induction variants with
  | nil => rfl
  | cons v rest ih =>
    rw [variantItems, ih, fieldItems_eq_map]
    rfl

theorem toJson_object (shape : Shape Schema) :
    (object shape).toJson = .object (("kind", .string "object") :: shape.toMembers) := by
  rw [toJson, fieldItems_eq_map]
  rfl

theorem toJson_union (choice : TaggedUnion Schema) :
    (union choice).toJson = .object (("kind", .string "polymorphic") :: choice.toMembers) := by
  rw [toJson, fieldItems_eq_map, variantItems_eq_map]
  rfl

end Schema

/-! ### What holds of the parts -/

theorem Field.nodup_toMembers (f : Field Schema) : (f.toMembers.map Prod.fst).Nodup := by
  obtain ⟨name, wireName, schema, optional, computed, aliases, promotedFrom⟩ := f
  cases aliases <;> cases promotedFrom <;> simp [toMembers, optionalMember]

theorem Shape.nodup_toMembers (shape : Shape Schema) : (shape.toMembers.map Prod.fst).Nodup := by simp [toMembers]

theorem Variant.nodup_toMembers (v : Variant Schema) : (v.toMembers.map Prod.fst).Nodup := by
  obtain ⟨name, values, segment, shape⟩ := v
  cases segment <;> simp [toMembers, optionalMember]

theorem TaggedUnion.nodup_toMembers (choice : TaggedUnion Schema) : (choice.toMembers.map Prod.fst).Nodup := by
  simp [toMembers]

theorem Collection.nodup_toMembers (items : Collection Schema) :
    ((Schema.collectionMembers items).map Prod.fst).Nodup := by
  obtain ⟨element, minItems, maxItems, wrapper⟩ := items
  cases maxItems <;> cases wrapper <;> simp [Schema.collectionMembers, optionalMember]

theorem Schema.kind_fresh_collection (items : Collection Schema) : "kind" ∉ (collectionMembers items).map Prod.fst := by
  obtain ⟨element, minItems, maxItems, wrapper⟩ := items
  cases maxItems <;> cases wrapper <;> simp [collectionMembers, optionalMember]

/-- Whether a property of values follows from that of their parts. Nothing is said about null and floats, which do not
stand in the written form of a schema. -/
structure Json.Compositional (P : Json → Prop) : Prop where
  bool : ∀ b, P (.bool b)
  whole : ∀ n, P (.whole n)
  string : ∀ s, P (.string s)
  array : ∀ {items}, (∀ item ∈ items, P item) → P (.array items)
  object : ∀ {members}, (members.map Prod.fst).Nodup → (∀ member ∈ members, P member.2) → P (.object members)

theorem Json.distinct_compositional : Json.Compositional Json.Distinct where
  bool _ := trivial
  whole _ := trivial
  string _ := trivial
  array := Json.distinct_array
  object := Json.distinct_object

namespace Json.Compositional

variable {P : Json → Prop} (holds : Json.Compositional P)
include holds

theorem strings (items : List String) : P (Schema.strings items) :=
  holds.array (List.forall_mem_map.2 fun item _ => holds.string item)

omit holds in
theorem optionalMember {α : Type} {name : String} {write : α → Json} {value : Option α} (each : ∀ a, P (write a)) :
    ∀ member ∈ Schema.optionalMember name write value, P member.2 := by
  cases value with
  | none => simp [Schema.optionalMember]
  | some a => simpa [Schema.optionalMember] using each a

theorem field {f : Field Schema} (inner : P f.schema.toJson) : ∀ member ∈ f.toMembers, P member.2 := by
  obtain ⟨name, wireName, schema, optional, computed, aliases, promotedFrom⟩ := f
  have ofAliases : ∀ member ∈ (if aliases.isEmpty then [] else [("aliases", Schema.strings aliases)]), P member.2 := by
    split
    · simp
    · simpa using holds.strings aliases
  refine List.forall_mem_append.2 ⟨List.forall_mem_append.2 ⟨?_, ofAliases⟩, optionalMember holds.string⟩
  simpa [holds.string, holds.bool] using inner

theorem shape {shape : Shape Schema} (inner : ∀ f ∈ shape.fields, P f.schema.toJson) :
    ∀ member ∈ shape.toMembers, P member.2 := by
  have fields : P (.array (shape.fields.map fun f => .object f.toMembers)) :=
    holds.array (List.forall_mem_map.2 fun f mem => holds.object f.nodup_toMembers (holds.field (inner f mem)))
  simpa [Shape.toMembers, holds.string] using fields

theorem variant {v : Variant Schema} (inner : ∀ f ∈ v.shape.fields, P f.schema.toJson) :
    ∀ member ∈ v.toMembers, P member.2 := by
  refine List.forall_mem_append.2 ⟨List.forall_mem_append.2 ⟨?_, optionalMember holds.string⟩,
    List.forall_mem_singleton.2 (holds.object v.shape.nodup_toMembers (holds.shape inner))⟩
  simpa [holds.string] using holds.strings v.values

theorem taggedUnion {choice : TaggedUnion Schema}
    (inner : ∀ shape ∈ choice.shapes, ∀ f ∈ shape.fields, P f.schema.toJson) :
    ∀ member ∈ choice.toMembers, P member.2 := by
  obtain ⟨base, variants⟩ := List.forall_mem_cons.1 inner
  have tag : P choice.discriminator.toJson := holds.object (by simp) (by simp [holds.string])
  have items : P (.array (choice.variants.map fun v => .object v.toMembers)) :=
    holds.array (List.forall_mem_map.2 fun v mem =>
      holds.object v.nodup_toMembers (holds.variant (variants v.shape (List.mem_map_of_mem mem))))
  simp only [TaggedUnion.toMembers, List.forall_mem_cons, List.not_mem_nil, false_imp_iff, implies_true, and_true]
  exact ⟨holds.string _, tag, items, holds.object choice.base.nodup_toMembers (holds.shape base)⟩

theorem collection {items : Collection Schema} (inner : P items.element.toJson) :
    ∀ member ∈ Schema.collectionMembers items, P member.2 := by
  obtain ⟨element, minItems, maxItems, wrapper⟩ := items
  refine List.forall_mem_append.2 ⟨List.forall_mem_append.2 ⟨?_, optionalMember fun _ => holds.whole _⟩,
    optionalMember holds.string⟩
  simpa [holds.whole] using inner

/-- The kind stands before the members of a schema. -/
theorem kind {kind : String} {members : List (String × Json)} (fresh : "kind" ∉ members.map Prod.fst)
    (nodup : (members.map Prod.fst).Nodup) (each : ∀ member ∈ members, P member.2) :
    P (.object (("kind", .string kind) :: members)) :=
  holds.object (List.nodup_cons.2 ⟨fresh, nodup⟩) (List.forall_mem_cons.2 ⟨holds.string _, each⟩)

/-- What follows from the parts holds of the written form of every schema. -/
theorem schema (schema : Schema) : P schema.toJson := by
  induction schema with
  | scalar kind => exact holds.kind (by simp) (by simp) (by simp [holds.string])
  | list items ih => exact holds.kind (Schema.kind_fresh_collection items) items.nodup_toMembers (holds.collection ih)
  | set items ih => exact holds.kind (Schema.kind_fresh_collection items) items.nodup_toMembers (holds.collection ih)
  | map element ih => exact holds.kind (by simp) (by simp) (by simpa using ih)
  | object shape ih =>
    rw [Schema.toJson_object]
    exact holds.kind (by simp [Shape.toMembers]) shape.nodup_toMembers (holds.shape ih)
  | union choice ih =>
    rw [Schema.toJson_union]
    exact holds.kind (by simp [TaggedUnion.toMembers]) choice.nodup_toMembers (holds.taggedUnion ih)

end Json.Compositional

/-- No object in the written form of a schema names a member twice. -/
theorem Schema.distinct_toJson (schema : Schema) : schema.toJson.Distinct := Json.distinct_compositional.schema schema

/-! ### Reading parts -/

namespace Members

variable {α β : Type} (name : String) (decode : Decoder α)

@[simp]
theorem names_required : (required name decode).names = [name] := rfl

@[simp]
theorem names_withDefault (absent : α) : (withDefault name decode absent).names = [name] := rfl

@[simp]
theorem names_optional : (optional name decode).names = [name] := rfl

@[simp]
theorem names_and (first : Members α) (second : Members β) : (first.and second).names = first.names ++ second.names := rfl

end Members

namespace Schema

/-- Whether a reader gives a schema back from its written form. -/
def ReadBack (decode : Decoder Schema) (schema : Schema) : Prop :=
  ∀ form, decode form (.ofJson schema.toJson) = .ok schema

section
variable {decode : Decoder Schema} {form : Form}

theorem decode_size (n : UInt64) (form : Form) : Decoder.size form (.ofJson (.whole (.ofUInt64 n))) = .ok n := by
  simp [Draft.ofJson, Decoder.size, Whole.ofUInt64]

theorem decode_field {f : Field Schema} (inner : ReadBack decode f.schema) :
    field decode form (.ofJson (.object f.toMembers)) = .ok f := by
  have nodup := f.nodup_toMembers
  have name : (Members.required "name" .string).Reads form f.toMembers f.name := .one nodup rfl rfl
  have wireName : (Members.required "wire_name" .string).Reads form f.toMembers f.wireName := .one nodup rfl rfl
  have schema : (Members.required "schema" decode).Reads form f.toMembers f.schema := .one nodup rfl (inner form)
  have optional : (Members.withDefault "optional" .bool false).Reads form f.toMembers f.optional := .one nodup rfl rfl
  have computed : (Members.withDefault "computed" .bool false).Reads form f.toMembers f.computed := .one nodup rfl rfl
  have aliases : (Members.withDefault "aliases" (.list .string) []).Reads form f.toMembers f.aliases := by
    obtain ⟨name, wireName, schema, optional, computed, aliases, promotedFrom⟩ := f
    cases aliases with
    | nil => exact .one_absent (by cases promotedFrom <;> rfl)
    | cons first rest => exact .one nodup rfl (Decoder.strings_ofJson (first :: rest) form)
  have promotedFrom : (Members.optional "promoted_from" .string).Reads form f.toMembers f.promotedFrom := by
    have found : f.toMembers.lookup "promoted_from" = f.promotedFrom.map .string := by
      rcases f with ⟨_, _, _, _, _, _ | _, _ | _⟩ <;> rfl
    exact .optional nodup found fun _ _ => ⟨nofun, rfl⟩
  exact ((name.and (wireName.and (schema.and (optional.and (computed.and (aliases.and promotedFrom (by simp))
    (by simp)) (by simp)) (by simp)) (by simp)) (by simp)).map _).decoder "struct FieldSchema"

theorem decode_shape {shape : Shape Schema} (inner : ∀ f ∈ shape.fields, ReadBack decode f.schema) :
    Schema.shape decode form (.ofJson (.object shape.toMembers)) = .ok shape := by
  have nodup : (shape.toMembers.map Prod.fst).Nodup := by simp [Shape.toMembers]
  have name : (Members.required "name" .string).Reads form shape.toMembers shape.name := .one nodup rfl rfl
  have fields : (Members.required "fields" (.list (field decode))).Reads form shape.toMembers shape.fields :=
    .one nodup rfl (Decoder.list_ofJson fun f mem => decode_field (inner f mem))
  exact ((name.and fields (by simp)).map _).decoder "struct ObjectSchema"

theorem decode_variant {v : Variant Schema} (inner : ∀ f ∈ v.shape.fields, ReadBack decode f.schema) :
    variant decode form (.ofJson (.object v.toMembers)) = .ok v := by
  have nodup := v.nodup_toMembers
  have name : (Members.required "name" .string).Reads form v.toMembers v.name := .one nodup rfl rfl
  have values : (Members.required "values" (.list .string)).Reads form v.toMembers v.values :=
    .one nodup rfl (Decoder.strings_ofJson v.values form)
  have segment : (Members.optional "segment" .string).Reads form v.toMembers v.segment := by
    have found : v.toMembers.lookup "segment" = v.segment.map .string := by
      rcases v with ⟨_, _, _ | _, _⟩ <;> rfl
    exact .optional nodup found fun _ _ => ⟨nofun, rfl⟩
  have shape : (Members.required "schema" (Schema.shape decode)).Reads form v.toMembers v.shape := by
    have found : v.toMembers.lookup "schema" = some (.object v.shape.toMembers) := by
      rcases v with ⟨_, _, _ | _, _⟩ <;> rfl
    exact .one nodup found (decode_shape inner)
  exact ((name.and (values.and (segment.and shape (by simp)) (by simp)) (by simp)).map _).decoder
    "struct VariantSchema"

theorem decode_discriminator (d : Discriminator) (form : Form) :
    discriminator form (.ofJson d.toJson) = .ok d := rfl

theorem decode_union {choice : TaggedUnion Schema}
    (inner : ∀ shape ∈ choice.shapes, ∀ f ∈ shape.fields, ReadBack decode f.schema) :
    taggedUnion decode form (.ofJson (.object choice.toMembers)) = .ok choice := by
  obtain ⟨ofBase, ofVariants⟩ := List.forall_mem_cons.1 inner
  have nodup : (choice.toMembers.map Prod.fst).Nodup := choice.nodup_toMembers
  have name : (Members.required "name" .string).Reads form choice.toMembers choice.name := .one nodup rfl rfl
  have tag : (Members.required "discriminator" discriminator).Reads form choice.toMembers choice.discriminator :=
    .one nodup rfl (decode_discriminator _ form)
  have variants : (Members.required "variants" (.list (variant decode))).Reads form choice.toMembers choice.variants :=
    .one nodup rfl (Decoder.list_ofJson fun v mem => decode_variant (ofVariants v.shape (List.mem_map_of_mem mem)))
  have base : (Members.required "base" (Schema.shape decode)).Reads form choice.toMembers choice.base :=
    .one nodup rfl (decode_shape ofBase)
  exact ((name.and (tag.and (variants.and base (by simp)) (by simp)) (by simp)).map _).decoder
    "struct PolySchema"

theorem decode_collection {items : Collection Schema} (inner : ReadBack decode items.element) :
    collection decode form (.ofJson (.object (collectionMembers items))) = .ok items := by
  have nodup := items.nodup_toMembers
  obtain ⟨element, minItems, maxItems, wrapper⟩ := items
  have elem : (Members.required "elem" decode).Reads form _ element := .one nodup rfl (inner form)
  have least : (Members.withDefault "min_items" .size 0).Reads form _ minItems :=
    .one nodup rfl (decode_size minItems form)
  have limit : (collectionMembers ⟨element, minItems, maxItems, wrapper⟩).lookup "max_items" =
      maxItems.map fun n => .whole (.ofUInt64 n) := by
    cases maxItems <;> cases wrapper <;> rfl
  have around : (collectionMembers ⟨element, minItems, maxItems, wrapper⟩).lookup "wrapper" = wrapper.map .string := by
    cases maxItems <;> cases wrapper <;> rfl
  have most : (Members.optional "max_items" .size).Reads form _ maxItems :=
    .optional nodup limit fun n _ => ⟨nofun, decode_size n form⟩
  have wrapped : (Members.optional "wrapper" .string).Reads form _ wrapper :=
    .optional nodup around fun _ _ => ⟨nofun, rfl⟩
  exact ((elem.and (least.and (most.and wrapped (by simp)) (by simp)) (by simp)).map _).decoder
    "struct CollectionSchema"

end

end Schema

/-! ### Schemas -/

theorem Shape.height_lt {shape : Shape Schema} {f : Field Schema} (mem : f ∈ shape.fields) :
    f.schema.toJson.height < (Json.object shape.toMembers).height := by
  have inField : f.schema.toJson.height < (Json.object f.toMembers).height :=
    Json.height_lt_of_member (show ("schema", f.schema.toJson) ∈ f.toMembers by simp [Field.toMembers])
  have inItems : (Json.object f.toMembers).height <
      (Json.array (shape.fields.map fun f => .object f.toMembers)).height :=
    Json.height_lt_of_item (List.mem_map_of_mem mem)
  have inShape : (Json.array (shape.fields.map fun f => .object f.toMembers)).height <
      (Json.object shape.toMembers).height :=
    Json.height_lt_of_member (show ("fields", _) ∈ shape.toMembers by simp only [toMembers, List.mem_cons, true_or, or_true])
  omega

theorem TaggedUnion.height_lt {choice : TaggedUnion Schema} {shape : Shape Schema} (mem : shape ∈ choice.shapes) :
    (Json.object shape.toMembers).height < (Json.object choice.toMembers).height := by
  rcases List.mem_cons.1 mem with rfl | mem
  · exact Json.height_lt_of_member (show ("base", .object choice.base.toMembers) ∈ choice.toMembers by simp [toMembers])
  · obtain ⟨v, held, rfl⟩ := List.mem_map.1 mem
    have inVariant : (Json.object v.shape.toMembers).height < (Json.object v.toMembers).height :=
      Json.height_lt_of_member (show ("schema", .object v.shape.toMembers) ∈ v.toMembers by simp [Variant.toMembers])
    have inItems : (Json.object v.toMembers).height <
        (Json.array (choice.variants.map fun v => .object v.toMembers)).height :=
      Json.height_lt_of_item (List.mem_map_of_mem held)
    have inChoice : (Json.array (choice.variants.map fun v => .object v.toMembers)).height <
        (Json.object choice.toMembers).height :=
      Json.height_lt_of_member (show ("variants", _) ∈ choice.toMembers by simp only [toMembers, List.mem_cons, true_or, or_true])
    omega

namespace Schema

/-- The kind adds nothing to how deep a schema nests. -/
theorem height_kind (kind : String) (members : List (String × Json)) :
    (Json.object (("kind", .string kind) :: members)).height = (Json.object members).height := by
  simp [Json.height, Draft.ofJson, Draft.ofMembers, Draft.height, Draft.heightMembers]

theorem height_element_lt (items : Collection Schema) :
    items.element.toJson.height < (Json.object (collectionMembers items)).height := by
  obtain ⟨element, minItems, maxItems, wrapper⟩ := items
  exact Json.height_lt_of_member (show ("elem", element.toJson) ∈ collectionMembers _ by simp [collectionMembers])

/-- A tagged schema is read by the reader of its kind. -/
theorem decode_kind {kind : String} {decode : Decoder Schema} {bound : Nat} {members : List (String × Json)}
    {schema : Schema} (selected : (kinds (decoderWithin bound)).variants.lookup kind = some decode)
    (fresh : "kind" ∉ members.map Prod.fst) (distinct : ∀ member ∈ members, member.2.Distinct)
    (read : decode .buffered (.ofJson (.object members)) = .ok schema) (form : Form) :
    decoderWithin (bound + 1) form (.ofJson (.object (("kind", .string kind) :: members))) = .ok schema :=
  (Tagged.decoder_ofJson selected fresh distinct form).trans read

theorem decode_scalarKind (kind : ScalarKind) (form : Form) :
    scalarKind form (.ofJson (.string kind.name)) = .ok kind := by
  cases kind <;> rfl

/-- A schema is read back by every reader whose bound lies above it. -/
theorem decodeWithin_toJson (schema : Schema) {bound : Nat} (within : schema.toJson.height < bound) :
    ReadBack (decoderWithin bound) schema := by
  -- the bound is one less for the parts, which lie less deep
  have step : ∀ {bound : Nat} {schema : Schema}, schema.toJson.height < bound →
      (∀ bound, schema.toJson.height ≤ bound → ReadBack (decoderWithin (bound + 1)) schema) →
      ReadBack (decoderWithin bound) schema := by
    intro bound schema within each
    obtain ⟨n, rfl⟩ : ∃ n, bound = n + 1 := ⟨bound - 1, by omega⟩
    exact each n (Nat.le_of_lt_succ within)
  refine step within ?_
  clear within
  induction schema with
  | scalar kind =>
    intro bound within
    have read : (Members.required "scalar" scalarKind).Reads .buffered [("scalar", .string kind.name)] kind :=
      .one (by simp) rfl (decode_scalarKind kind .buffered)
    exact decode_kind rfl (by simp) (by simp [Json.Distinct])
      ((read.map _).decoder "struct variant Schema::Scalar")
  | list items ih =>
    intro bound within
    rw [toJson, height_kind] at within
    have inner := step (Nat.lt_of_lt_of_le (height_element_lt items) within) ih
    exact decode_kind rfl (kind_fresh_collection items) (Json.distinct_compositional.collection (distinct_toJson _))
      (congrArg (Except.map list) (decode_collection inner))
  | set items ih =>
    intro bound within
    rw [toJson, height_kind] at within
    have inner := step (Nat.lt_of_lt_of_le (height_element_lt items) within) ih
    exact decode_kind rfl (kind_fresh_collection items) (Json.distinct_compositional.collection (distinct_toJson _))
      (congrArg (Except.map set) (decode_collection inner))
  | map element ih =>
    intro bound within
    have below : element.toJson.height < (map element).toJson.height :=
      Json.height_lt_of_member (show ("elem", element.toJson) ∈ [("kind", _), ("elem", element.toJson)] by simp)
    have inner := step (Nat.lt_of_lt_of_le below within) ih
    have read : (Members.required "elem" (decoderWithin bound)).Reads .buffered [("elem", element.toJson)] element :=
      .one (by simp) rfl (inner .buffered)
    exact decode_kind rfl (by simp) (by simpa using distinct_toJson element)
      ((read.map _).decoder "struct MapSchema")
  | object shape ih =>
    intro bound within
    rw [toJson_object, height_kind] at within
    have inner : ∀ f ∈ shape.fields, ReadBack (decoderWithin bound) f.schema := fun f mem =>
      step (Nat.lt_of_lt_of_le (Shape.height_lt mem) within) (ih f mem)
    intro form
    rw [toJson_object]
    exact decode_kind rfl (by simp [Shape.toMembers]) (Json.distinct_compositional.shape fun f _ => distinct_toJson f.schema)
      (congrArg (Except.map object) (decode_shape inner)) form
  | union choice ih =>
    intro bound within
    rw [toJson_union, height_kind] at within
    have inner : ∀ shape ∈ choice.shapes, ∀ f ∈ shape.fields, ReadBack (decoderWithin bound) f.schema := by
      intro shape mem f held
      have below := Nat.lt_trans (Shape.height_lt held) (TaggedUnion.height_lt mem)
      exact step (Nat.lt_of_lt_of_le below within) (ih shape mem f held)
    intro form
    rw [toJson_union]
    exact decode_kind rfl (by simp [TaggedUnion.toMembers])
      (Json.distinct_compositional.taggedUnion fun _ _ f _ => distinct_toJson f.schema)
      (congrArg (Except.map union) (decode_union inner)) form

/-- A schema is read back from the value that it is written as, whatever it holds and however deep it is. -/
theorem ofJson_toJson (schema : Schema) : Decoder.ofJson decoder schema.toJson = .ok schema :=
  schema.decodeWithin_toJson (Nat.lt_succ_self _) .value

end Schema
end FlatStore
