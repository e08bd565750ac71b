import FlatStore.Proofs.Choice
import FlatStore.Proofs.Failure
import FlatStore.Proofs.Outcome
import FlatStore.Proofs.Synthesized
import FlatStore.Record.Basic

/-!
The tags of unions that are synthesized. Every shape of such a union has a field with the name of the tag. That field
is the tag if the shape has none of its own of that name, or if its own has the wire name of the tag and holds strings;
otherwise the shape has no field for the tag (`Descriptor.tags_of_synthesized`). Where the shape of a variant has one,
the tag of a document goes into the store, and a union that is read in that shape has the tag that selected it
(`TaggedUnion.KeepsTag`).
-/
namespace FlatStore

/-! ### Fields for the tag -/

/-- The type behind all options. -/
def Descriptor.core : Descriptor → Descriptor
  | .optional inner => inner.core
  | type => type

def Shape.Carries (discriminator : Discriminator) (shape : Shape Schema) : Prop :=
  ∃ f ∈ shape.fields, f.name = discriminator.name ∧ f.wireName = discriminator.wireName ∧ f.schema = .scalar .string

/-- Whether the plain fields of an object that have the name of a tag are the tag. -/
def ObjectDescriptor.Agrees (catalog : Catalog) (discriminator : Discriminator) (object : ObjectDescriptor Descriptor) :
    Prop :=
  ∀ plain, catalog.Plain object.fields plain → ∀ p ∈ plain, p.field.name = discriminator.name →
    p.field.wireName = discriminator.wireName ∧ (p.field.valueType catalog).core = .scalar .string

/-- How a shape that is declared by a type has a tag: a field of the name in any case, and one for the tag exactly if
the fields of the type leave the name to it. -/
def Shape.TaggedBy (catalog : Catalog) (discriminator : Discriminator) (type : Descriptor) (shape : Shape Schema) :
    Prop :=
  (∃ f ∈ shape.fields, f.name = discriminator.name) ∧
    ∃ object, catalog.expand type = .object object ∧ (shape.Carries discriminator ↔ object.Agrees catalog discriminator)

/-- How the shapes of a union have its tag. A base that is not declared always has a field for it. -/
structure TaggedUnion.TaggedAs (catalog : Catalog) (described : UnionDescriptor Descriptor)
    (choice : TaggedUnion Schema) : Prop where
  discriminator : choice.discriminator = described.discriminator
  variants : List.Forall₂ (fun v made => made.name = v.name ∧ made.values = v.values ∧
    made.shape.TaggedBy catalog choice.discriminator v.type) described.variants choice.variants
  declaredBase : ∀ type ∈ described.base, choice.base.TaggedBy catalog choice.discriminator type
  mergedBase : described.base = none → choice.base.Carries choice.discriminator

namespace Synthesis

variable {catalog : Catalog} {n : Nat} {discriminator : Discriminator}

theorem SchemaAt.eq_string_iff {type : Descriptor} {made : Schema} (ok : SchemaAt catalog n type made) :
    made = .scalar .string ↔ type.core = .scalar .string := by
  induction n generalizing type made with
  | zero => exact absurd ok not_schemaAt_zero
  | succ n ih =>
    cases ok.made with
    | scalar kind => simp [Descriptor.core]
    | optional inner => rw [Descriptor.core, ih inner]
    | list | set | map | object | union => simp [Descriptor.core]

theorem withLimits_eq_string_iff {minItems maxItems : Option UInt64} {schema : Schema} :
    withLimits minItems maxItems schema = .scalar .string ↔ schema = .scalar .string := by
  cases schema <;> simp [withLimits]

theorem PlainMade.eq_string_iff {plain : PlainField} {f : Field Schema} (made : PlainMade catalog n plain f) :
    f.schema = .scalar .string ↔ (plain.field.valueType catalog).core = .scalar .string := by
  obtain ⟨-, ok⟩ := made
  rw [← ok.eq_string_iff]
  exact withLimits_eq_string_iff

variable {object : ObjectDescriptor Descriptor} {own : Shape Schema}

theorem ShapeAt.agrees_of_unnamed (ok : ShapeAt catalog n object own)
    (unnamed : ∀ f ∈ own.fields, f.name ≠ discriminator.name) : object.Agrees catalog discriminator := by
  obtain ⟨-, plain, spliced, each⟩ := ok.spliced
  intro other same p mem named
  cases same.unique spliced
  obtain ⟨f, held, made⟩ := Draft.exists_of_forall₂ each mem
  exact absurd (made.name.trans named) (unnamed f held)

/-- If there is a field of that name, it is the tag exactly if the fields agree to that. -/
theorem ShapeAt.carries_iff (ok : ShapeAt catalog n object own)
    (named : ∃ f ∈ own.fields, f.name = discriminator.name) :
    own.Carries discriminator ↔ object.Agrees catalog discriminator := by
  obtain ⟨-, plain, spliced, each⟩ := ok.spliced
  have nodup : (own.fields.map Field.name).Nodup := by
    obtain ⟨-, names, -⟩ := ok.made
    exact names
  constructor
  · rintro ⟨f, mem, name, wireName, string⟩ other same p declared named
    cases same.unique spliced
    obtain ⟨g, held, made⟩ := Draft.exists_of_forall₂ each declared
    obtain rfl : g = f := List.inj_on_of_nodup_map nodup held mem (by rw [made.name, named, name])
    exact ⟨by rw [← made.wireName, wireName], made.eq_string_iff.1 string⟩
  · intro agrees
    obtain ⟨f, mem, name⟩ := named
    obtain ⟨p, declared, (made : PlainMade catalog n p f)⟩ := Draft.exists_of_forall₂ each.flip mem
    obtain ⟨wireName, string⟩ := agrees plain spliced p declared (by rw [← made.name, name])
    exact ⟨f, mem, name, by rw [made.wireName, wireName], made.eq_string_iff.2 string⟩

theorem carries_allOptional : (allOptional own).Carries discriminator ↔ own.Carries discriminator := by
  simp [Shape.Carries, allOptional]

theorem carries_tagField {name : String} {fields : List (Field Schema)} :
    Shape.Carries discriminator ⟨name, tagField discriminator :: fields⟩ :=
  ⟨tagField discriminator, List.mem_cons_self, rfl, rfl, rfl⟩

theorem taggedBy_of_made {type : Descriptor} {made : Shape Schema}
    (tagged : TaggedMade catalog (ShapeAt catalog n) discriminator type made) :
    made.TaggedBy catalog discriminator type := by
  cases tagged with
  | @mk object own expanded ok =>
    cases found : (allOptional own).field? discriminator.name with
    | none =>
      have unnamed : ∀ f ∈ own.fields, f.name ≠ discriminator.name := by
        simpa [Shape.field?, allOptional] using found
      rw [withTag_of_none found]
      have agrees := ok.agrees_of_unnamed unnamed
      exact ⟨⟨_, List.mem_cons_self, rfl⟩, object, expanded, iff_of_true carries_tagField agrees⟩
    | some f =>
      have named : ∃ g ∈ own.fields, g.name = discriminator.name := by
        obtain ⟨g, mem, rfl⟩ := List.mem_map.1 (List.mem_of_find?_eq_some found)
        exact ⟨g, mem, by simpa using List.find?_some found⟩
      rw [withTag_of_some found]
      refine ⟨⟨f, List.mem_of_find?_eq_some found, by simpa using List.find?_some found⟩, object, expanded, ?_⟩
      rw [carries_allOptional, ok.carries_iff named]

/-- A base that is merged from the variants has none of their fields for the tag, but one of its own. -/
theorem carries_of_merged {name place : String} {variants : List (Variant Schema)} {merged : Shape Schema}
    (ok : mergedBase name place discriminator variants = .ok merged) :
    (withTag discriminator merged).Carries discriminator := by
  have none : merged.field? discriminator.name = none := by
    simpa [Shape.field?] using fun f mem => (mem_mergedBase ok mem).1
  rw [withTag_of_none none]
  exact carries_tagField

theorem taggedAs_of_made {described : UnionDescriptor Descriptor} {choice : TaggedUnion Schema}
    (made : UnionMade catalog (ShapeAt catalog n) described choice) : choice.TaggedAs catalog described := by
  cases made with
  | mk variants base =>
    refine ⟨rfl, variants.imp fun v made own => ?_, fun type declared => ?_, fun undeclared => ?_⟩
    · obtain ⟨tagged⟩ := own
      exact ⟨rfl, rfl, taggedBy_of_made tagged⟩
    · cases base with
      | declared same tagged =>
        cases same.symm.trans declared
        exact taggedBy_of_made tagged
      | merged undeclared => exact absurd (undeclared.symm.trans declared) (by simp)
    · cases base with
      | declared declared => exact absurd (undeclared.symm.trans declared) (by simp)
      | merged _ merged => exact carries_of_merged merged

def UnionsFrom (catalog : Catalog) (type : Descriptor) (schema : Schema) : Prop :=
  ∀ choice, Schema.Inside (.union choice) schema →
    ∃ described, Descriptor.Inside catalog (.union described) type ∧ choice.TaggedAs catalog described

section
variable {type part : Descriptor} {schema inner : Schema}

theorem UnionsFrom.of_part (own : UnionsFrom catalog part schema) (mem : part ∈ type.parts catalog) :
    UnionsFrom catalog type schema := by
  intro choice inside
  obtain ⟨described, held, tagged⟩ := own choice inside
  exact ⟨described, .part mem held, tagged⟩

/-- Unions lie in the parts of a schema, unless it is one itself. -/
theorem unionsFrom_of_children (other : ∀ choice, schema ≠ .union choice)
    (each : ∀ inner ∈ schema.children, UnionsFrom catalog type inner) : UnionsFrom catalog type schema := by
  intro choice inside
  cases inside with
  | self => exact absurd rfl (other choice)
  | child mem below => exact each _ mem choice below

theorem unionsFrom_scalar (kind : ScalarKind) : UnionsFrom catalog type (.scalar kind) :=
  unionsFrom_of_children (by simp) fun _ mem => nomatch mem

theorem UnionsFrom.child (own : UnionsFrom catalog type schema) (mem : inner ∈ schema.children) :
    UnionsFrom catalog type inner :=
  fun choice inside => own choice (.child mem inside)

theorem UnionsFrom.withLimits {minItems maxItems : Option UInt64} (own : UnionsFrom catalog type schema) :
    UnionsFrom catalog type (Synthesis.withLimits minItems maxItems schema) := by
  cases schema with
  | list items | set items => exact unionsFrom_of_children (by simp [Synthesis.withLimits]) fun _ mem => own.child mem
  | scalar | map | object | union => exact own

theorem UnionsFrom.unwrap (own : UnionsFrom catalog type schema) : UnionsFrom catalog type (unwrap schema).1 := by
  rcases unwrap_fst schema with same | ⟨mem, -⟩
  · rwa [same]
  · exact own.child mem

end

theorem SchemaMade.unionsFrom {type : Descriptor} {made : Schema}
    (own : SchemaMade catalog (SchemaAt catalog n) (ShapeAt catalog n) (ShapeAt catalog (n - 1)) type made)
    (schemas : ∀ type made, SchemaAt catalog n type made → UnionsFrom catalog type made)
    (shapes : ∀ object made, ShapeAt catalog n object made →
      ∀ f ∈ made.fields, UnionsFrom catalog (.object object) f.schema)
    (variants : ∀ object made, ShapeAt catalog (n - 1) object made →
      ∀ f ∈ made.fields, UnionsFrom catalog (.object object) f.schema) :
    UnionsFrom catalog type made := by
  cases own with
  | scalar kind => exact unionsFrom_scalar kind
  | optional inner => exact UnionsFrom.of_part (schemas _ _ inner) List.mem_cons_self
  | list element | set element =>
    refine unionsFrom_of_children (by simp) fun inner mem => ?_
    obtain rfl := List.mem_singleton.1 mem
    exact UnionsFrom.of_part (UnionsFrom.unwrap (schemas _ _ element)) List.mem_cons_self
  | map element =>
    refine unionsFrom_of_children (by simp) fun inner mem => ?_
    obtain rfl := List.mem_singleton.1 mem
    exact UnionsFrom.of_part (schemas _ _ element) List.mem_cons_self
  | @object object shape made =>
    refine unionsFrom_of_children (by simp) fun inner mem => ?_
    obtain ⟨_, own, f, held, rfl⟩ := Schema.exists_field_of_mem_children rfl mem
    cases List.mem_singleton.1 own
    exact shapes _ _ made f held
  | @union described choice made =>
    intro other inside
    cases inside with
    | self => exact ⟨described, .self _, taggedAs_of_made made⟩
    | child mem below =>
      obtain ⟨shape, shape_mem, f, declared, rfl⟩ := Schema.exists_field_of_mem_children rfl mem
      have each : ∀ type ∈ described.types, ∀ object own, catalog.expand type = .object object →
          ShapeAt catalog (n - 1) object own → ∀ f ∈ own.fields, UnionsFrom catalog (.union described) f.schema := by
        intro type type_mem object own expanded ok f held
        have part := variants object own ok f held
        exact UnionsFrom.of_part (expanded ▸ part) (List.mem_map_of_mem type_mem)
      rcases made.fields each shape shape_mem f declared with own | tag
      · exact own other below
      · exact unionsFrom_scalar .string other (tag ▸ below)

theorem unionsFrom_of_levels (n : Nat) :
    (∀ type made, SchemaAt catalog n type made → UnionsFrom catalog type made) ∧
    ∀ object made, ShapeAt catalog n object made → ∀ f ∈ made.fields, UnionsFrom catalog (.object object) f.schema := by
  refine levels_induction (S := fun _ => UnionsFrom catalog) (F := fun _ object => UnionsFrom catalog (.object object))
    ?_ ?_ ?_ n
  · intro n type made schemas shapes variants own
    exact own.unionsFrom schemas shapes variants
  · intro n minItems maxItems made object f declared own
    exact own.withLimits.of_part (List.mem_map_of_mem declared)
  · intro n inner made object f declared type own
    exact own.of_part (type ▸ List.mem_map_of_mem declared)

end Synthesis

/-! ### Tags in stores -/

namespace Schema

variable {choice : TaggedUnion Schema} {v : Variant Schema} {members : List (String × Json)} {a base : Address}
  {sliced : Bool} {tag : String}

/-- A document writes its tag into its block, if the shape that the tag selects has a field for it. -/
theorem mem_writes_tag (valid : (union choice).Valid) (carries : v.shape.Carries choice.discriminator)
    (selects : choice.variant? tag = some v) (tagged : tagOf choice.discriminator members = some tag)
    (ok : (union choice).Accepts (.object members) a sliced) :
    (.leaf ((a.block sliced).member choice.discriminator.name), .string tag) ∈
      (union choice).writes (.object members) a sliced := by
  obtain ⟨f, declared, name, wireName, kind⟩ := carries
  have shape : (union choice).shapeFor members = v.shape := by
    rw [shapeFor, TaggedUnion.shapeOf, tagged, Option.bind_some, selects]
    rfl
  have value : f.value? members = some (.string tag) :=
    Field.value?_eq_some_iff.2 ⟨wireName ▸ tagOf_eq_some_iff.1 tagged, by simp⟩
  have held : (f, Json.string tag) ∈ heldFields members ((union choice).shapeFor members).fields :=
    mem_heldFields_iff.2 ⟨shape ▸ declared, value⟩
  have place : f.place (.string tag) = choice.discriminator.name := by simp [Field.place, kind, segmentOf, name]
  obtain ⟨_, ⟨⟩, -, -, written⟩ := ok.block rfl valid (by simp)
  rw [written]
  refine List.mem_append_right _ (List.mem_flatMap.2 ⟨_, held, ?_⟩)
  rw [heldWrites, place, kind, writes,
    trace_scalar (show Scalar.ofJsonAs? .string (.string tag) = some (.string tag) from rfl)]
  exact List.mem_cons_self

theorem lookup_tag {source : Source} {shape : Shape Schema} {discriminator : Discriminator} (sound : SoundShape shape)
    (carries : shape.Carries discriminator)
    (there : stored source (base.member discriminator.name) = .ok (some (.string tag)))
    (read : resolveFields source base shape.fields = .ok members) :
    (membersOf members).lookup discriminator.wireName = some (.string tag) := by
  obtain ⟨f, declared, name, wireName, kind⟩ := carries
  obtain ⟨names, fields⟩ := lookup_of_resolveFields sound.wireNames_nodup read
  obtain ⟨found, here, filled⟩ := fields f declared
  have first : resolveScalar source .string (base.member f.name) = .ok (some (.string tag)) := by
    rw [resolveScalar, name, there]
    rfl
  have value : resolveField source base f = .ok (some (.string tag)) := by
    rw [resolveField_eq (sound.candidate_usable declared), kind, resolveAt_first (by simp), candidatesOf,
      List.cons_append, resolveFirst, resolve_scalar, first]
    rfl
  cases value.symm.trans here
  rw [membersOf_read sound read, ← wireName, filled, Field.fill]
  cases f.optional <;> rfl

end Schema

/-- Whether the tag of a variant goes into stores and comes back: a document that it selects the variant for writes it
into its block, and a union that is read in the shape of the variant has the tag that stands there. -/
structure TaggedUnion.KeepsTag (choice : TaggedUnion Schema) (v : Variant Schema) : Prop where
  writes : ∀ tag members a sliced, choice.variant? tag = some v → Schema.tagOf choice.discriminator members = some tag →
    (Schema.union choice).Accepts (.object members) a sliced →
      (.leaf ((a.block sliced).member choice.discriminator.name), .string tag) ∈
        (Schema.union choice).writes (.object members) a sliced
  reads : ∀ (s : Store) sliced cs base found, Schema.chosen s.source choice sliced cs = .ok (some (base, some v)) →
    Schema.resolveChoice s.source choice sliced cs = .ok found →
      ∃ tag out, choice.variant? tag = some v ∧
        s.get? (base.member choice.discriminator.name).text = some (.string tag) ∧
          found = some (.object out) ∧ out.lookup choice.discriminator.wireName = some (.string tag)

theorem TaggedUnion.keepsTag {choice : TaggedUnion Schema} {v : Variant Schema} (valid : (Schema.union choice).Valid)
    (carries : v.shape.Carries choice.discriminator) : choice.KeepsTag v where
  writes := fun _ _ _ _ selects tagged ok => Schema.mem_writes_tag valid carries selects tagged ok
  reads := by
    intro s sliced cs base found chose read
    obtain ⟨-, usable, tags, -, sound⟩ := Schema.valid_union_iff.1 valid
    obtain ⟨c, -, here, ⟨_, ⟨⟩, tag, there, admitted⟩ | ⟨⟨⟩, -⟩⟩ := Schema.chosen_eq_some usable chose
    have shape_mem : v.shape ∈ choice.shapes := Schema.chosen_mem_shapes usable tags chose
    obtain ⟨rfl, nothing⟩ | ⟨_, _, members, same, fields, rfl⟩ := Schema.resolveChoice_eq_ok_cases read
    · cases chose.symm.trans nothing
    · cases chose.symm.trans same
      have stored : Schema.stored s.source (base.member choice.discriminator.name) = .ok (some (.string tag)) := by
        rw [Store.stored_source, here, there]
      exact ⟨tag, _, ((Schema.admitted_eq_some_iff tags).1 admitted).1, by rw [here, there], rfl,
        Schema.lookup_tag (sound _ shape_mem) carries stored fields⟩

/-- A union anywhere in a synthesized schema is made of a union in the type, and has its tag as a field in just those of
its shapes where the fields of the type leave its name to it. The variants that have it keep their tags in stores. -/
theorem Descriptor.tags_of_synthesized {catalog : Catalog} {type : Descriptor} {schema : Schema}
    (synthesized : type.synthesize catalog = .ok schema) {choice : TaggedUnion Schema}
    (inside : Schema.Inside (.union choice) schema) :
    (∃ described, Descriptor.Inside catalog (.union described) (catalog.expand type) ∧
      choice.TaggedAs catalog described) ∧
      ∀ v ∈ choice.variants, v.shape.Carries choice.discriminator → choice.KeepsTag v := by
  have valid : schema.Valid := by
    obtain ⟨made, -, checked⟩ := bind_eq_ok_iff.1 synthesized
    obtain ⟨valid, same⟩ := then_eq_ok_iff.1 checked
    cases same
    exact valid
  refine ⟨?_, fun v mem carries => TaggedUnion.keepsTag (valid.inside inside) carries⟩
  exact (Synthesis.unionsFrom_of_levels Synthesis.maxDepth).1 _ _ (schemaAt_of_synthesize synthesized) choice inside

def Descriptor.clickEvent (fields : List (FieldDescriptor Descriptor)) : Descriptor :=
  .union ⟨"Event", ⟨"type", "type"⟩, [⟨"Click", ["click"], none, .record "Click" fields⟩], some (.record "Base" [])⟩

/-- The schema of an event with a variant of the given fields. -/
def TaggedUnion.clickEvent (fields : List (Field Schema)) : TaggedUnion Schema where
  name := "Event"
  discriminator := ⟨"type", "type"⟩
  variants := [⟨"Click", ["click"], none, ⟨"Click", fields⟩⟩]
  base := ⟨"Base", [Synthesis.tagField ⟨"type", "type"⟩]⟩

def Field.clickNote : Field Schema := { Field.plain "note" (.scalar .string) with optional := true }

theorem Descriptor.tags_of_clickEvent :
    (clickEvent [.of "note" "note" (.scalar .string)]).synthesize [] =
        .ok (.union (.clickEvent [Synthesis.tagField ⟨"type", "type"⟩, .clickNote])) ∧
      (TaggedUnion.clickEvent [Synthesis.tagField ⟨"type", "type"⟩, .clickNote]).KeepsTag
        ⟨"Click", ["click"], none, ⟨"Click", [Synthesis.tagField ⟨"type", "type"⟩, .clickNote]⟩⟩ := by
  have synthesized : (clickEvent [.of "note" "note" (.scalar .string)]).synthesize [] =
      .ok (.union (.clickEvent [Synthesis.tagField ⟨"type", "type"⟩, .clickNote])) := by decide +kernel
  refine ⟨synthesized, (tags_of_synthesized synthesized (.self _)).2 _ List.mem_cons_self ?_⟩
  exact ⟨Synthesis.tagField ⟨"type", "type"⟩, List.mem_cons_self, rfl, rfl, rfl⟩

/-- A variant that has a field of its own under the name of the tag and with another wire name loses the tags of its
documents. -/
theorem Descriptor.loses_tag_clickEvent :
    ∃ choice : TaggedUnion Schema,
      (clickEvent [.of "type" "kind" (.optional (.scalar .string)),
          .of "note" "note" (.scalar .string)]).synthesize [] = .ok (.union choice) ∧
        (∃ v ∈ choice.variants, ¬ v.shape.Carries choice.discriminator) ∧
          (Schema.union choice).flatten (.object [("type", .string "click"), ("note", .string "hi")]) false =
            .ok (.ofList [("note", .string "hi")]) := by
  refine ⟨.clickEvent [{ Field.plain "type" (.scalar .string) with wireName := "kind", optional := true }, .clickNote],
    by decide +kernel, ⟨_, List.mem_cons_self, ?_⟩, rfl⟩
  simp [Shape.Carries, TaggedUnion.clickEvent, Field.plain, Field.clickNote]

end FlatStore
