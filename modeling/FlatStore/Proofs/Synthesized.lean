import FlatStore.Proofs.Grammar
import FlatStore.Proofs.Outcome
import FlatStore.Synthesis

/-!
What synthesis makes. A type and the schema that is made of it stand in a relation with one case for each kind of type
(`Synthesis.SchemaMade`), over the relations of the schemas and shapes that it is made of; so do a field and the fields
that it becomes (`FieldMade`), an object and its shape (`ShapeMade`) and a union and its schema (`UnionMade`). What was
synthesized with a number of levels left was made in that way of what was synthesized with fewer (`SchemaAt.made`,
`ShapeAt.made`). The shape of an object has one field for each plain field that is met on the way through its embedded
ones (`ShapeAt.spliced`).
-/
namespace FlatStore

/-! ### Types of fields -/

/-- The type of a field without the option around it. -/
def Descriptor.bare : Descriptor → Descriptor
  | .optional inner => inner
  | type => type

def Descriptor.isOptional : Descriptor → Bool
  | .optional _ => true
  | _ => false

/-- The type of the values of a field. -/
def FieldDescriptor.valueType (catalog : Catalog) (f : FieldDescriptor Descriptor) : Descriptor :=
  (catalog.expand f.type).bare

/-- Whether the type of a field is an option. -/
def FieldDescriptor.isOptional (catalog : Catalog) (f : FieldDescriptor Descriptor) : Bool :=
  (catalog.expand f.type).isOptional

/-- The types of the variants of a union and of its base. -/
def UnionDescriptor.types (choice : UnionDescriptor Descriptor) : List Descriptor :=
  choice.variants.map (·.type) ++ choice.base.toList

namespace Descriptor

/-- The types that a type is directly made of, without the options around those of fields. -/
def parts (catalog : Catalog) : Descriptor → List Descriptor
  | .optional inner => [inner]
  | .list element | .set element | .map element => [element]
  | .object shape => shape.fields.map (·.valueType catalog)
  | .union choice => choice.types.map catalog.expand
  | .scalar _ | .unsupported _ | .named _ => []

/-- A type lies inside of another at any depth, or is it. -/
inductive Inside (catalog : Catalog) : Descriptor → Descriptor → Prop
  | self (type : Descriptor) : Inside catalog type type
  | part {inner part type : Descriptor} : part ∈ type.parts catalog → Inside catalog inner part →
    Inside catalog inner type

end Descriptor

namespace Synthesis

/-! ### The relations -/

section Relations

variable (catalog : Catalog) (schema : Descriptor → Schema → Prop)
  (shape variant : ObjectDescriptor Descriptor → Shape Schema → Prop)

/-- The fields that a field of an object becomes. -/
inductive FieldMade : FieldDescriptor Descriptor → List (Field Schema) → Prop
  | plain {f : FieldDescriptor Descriptor} {made : Schema} : f.embedded = false → schema (f.valueType catalog) made →
    FieldMade f [⟨f.name, f.wireName, withLimits f.minItems f.maxItems made, f.isOptional catalog || f.computed,
      f.computed, f.aliases, none⟩]
  | embedded {f : FieldDescriptor Descriptor} {inner : ObjectDescriptor Descriptor} {made : Shape Schema} :
    f.embedded = true → f.aliases = [] → f.valueType catalog = .object inner → shape inner made →
    FieldMade f (made.fields.map (promote f.name (f.isOptional catalog)))

/-- The shape of an object. -/
inductive ShapeMade : ObjectDescriptor Descriptor → Shape Schema → Prop
  | mk {object : ObjectDescriptor Descriptor} {parts : List (List (Field Schema))} :
    List.Forall₂ (FieldMade catalog schema shape) object.fields parts →
    (parts.flatten.map Field.name).Nodup → (parts.flatten.map Field.wireName).Nodup →
    ShapeMade object ⟨object.name, parts.flatten⟩

/-- The shape of a variant or of a base that is declared, with a field for the tag. -/
inductive TaggedMade (discriminator : Discriminator) : Descriptor → Shape Schema → Prop
  | mk {type : Descriptor} {object : ObjectDescriptor Descriptor} {own : Shape Schema} :
    catalog.expand type = .object object → shape object own →
    TaggedMade discriminator type (withTag discriminator (allOptional own))

inductive VariantMade (discriminator : Discriminator) : VariantDescriptor Descriptor → Variant Schema → Prop
  | mk {v : VariantDescriptor Descriptor} {made : Shape Schema} :
    TaggedMade catalog shape discriminator v.type made → VariantMade discriminator v ⟨v.name, v.values, v.segment, made⟩

/-- The base of a union: the one that it declares, or else the fields of its variants. -/
inductive BaseMade (choice : UnionDescriptor Descriptor) (variants : List (Variant Schema)) : Shape Schema → Prop
  | declared {type : Descriptor} {made : Shape Schema} : choice.base = some type →
    TaggedMade catalog shape choice.discriminator type made → BaseMade choice variants made
  | merged {place : String} {own : Shape Schema} : choice.base = none →
    mergedBase choice.name place choice.discriminator variants = .ok own →
    BaseMade choice variants (withTag choice.discriminator own)

inductive UnionMade : UnionDescriptor Descriptor → TaggedUnion Schema → Prop
  | mk {choice : UnionDescriptor Descriptor} {variants : List (Variant Schema)} {base : Shape Schema} :
    List.Forall₂ (VariantMade catalog shape choice.discriminator) choice.variants variants →
    BaseMade catalog shape choice variants base →
    UnionMade choice ⟨choice.name, choice.discriminator, variants, base⟩

/-- The collection of the elements of a schema, without their wrapper. -/
def collected (element : Schema) : Collection Schema :=
  { Collection.of (unwrap element).1 with wrapper := (unwrap element).2 }

/-- The schema of a type. -/
inductive SchemaMade : Descriptor → Schema → Prop
  | scalar (kind : ScalarKind) : SchemaMade (.scalar kind) (.scalar kind)
  | optional {inner : Descriptor} {made : Schema} : schema inner made → SchemaMade (.optional inner) made
  | list {element : Descriptor} {made : Schema} : schema element made →
    SchemaMade (.list element) (.list (collected made))
  | set {element : Descriptor} {made : Schema} : schema element made →
    SchemaMade (.set element) (.set (collected made))
  | map {element : Descriptor} {made : Schema} : schema element made → SchemaMade (.map element) (.map made)
  | object {object : ObjectDescriptor Descriptor} {made : Shape Schema} : shape object made →
    SchemaMade (.object object) (.object made)
  | union {choice : UnionDescriptor Descriptor} {made : TaggedUnion Schema} : UnionMade catalog variant choice made →
    SchemaMade (.union choice) (.union made)

end Relations

/-! ### Synthesis makes nothing else -/

section Made

variable {catalog : Catalog} {schema : String → Descriptor → Except SchemaError Schema}
  {shape : String → ObjectDescriptor Descriptor → Except SchemaError (Shape Schema)} {place : String}

/-- What a computation makes at any place. -/
def Made {α β : Type} (make : String → α → Except SchemaError β) (of : α) (made : β) : Prop :=
  ∃ place, make place of = .ok made

/-- A computation that is refused on a condition. -/
theorem refuse_eq_ok_iff {ε β : Type} {condition : Bool} {problem : ε} {rest : Unit → Except ε β} {b : β} :
    (if condition then throw problem >>= rest else rest ()) = .ok b ↔ condition = false ∧ rest () = .ok b := by
  cases condition <;> simp [throw, throwThe, MonadExceptOf.throw, bind, Except.bind]

theorem fieldsOf_plain {f : FieldDescriptor Descriptor} (plain : f.embedded = false) :
    fieldsOf catalog schema shape place f = (fun made => [⟨f.name, f.wireName, withLimits f.minItems f.maxItems made,
      f.isOptional catalog || f.computed, f.computed, f.aliases, none⟩]) <$>
        schema (Schema.fieldPlace place f.name) (f.valueType catalog) := by
  unfold fieldsOf FieldDescriptor.isOptional FieldDescriptor.valueType
  rw [plain]
  cases catalog.expand f.type <;> rfl

/-- An embedded field has the fields of its type, which has to be an object. -/
theorem fieldsOf_embedded {f : FieldDescriptor Descriptor} (embedded : f.embedded = true) :
    fieldsOf catalog schema shape place f =
      if f.aliases.isEmpty then
        match f.valueType catalog with
        | .object inner => (fun made => made.fields.map (promote f.name (f.isOptional catalog))) <$>
          shape (Schema.fieldPlace place f.name) inner
        | other => .error (.notAnObject (Schema.fieldPlace place f.name) other.label)
      else .error (.embeddedAlias (Schema.fieldPlace place f.name) f.name) := by
  unfold fieldsOf FieldDescriptor.isOptional FieldDescriptor.valueType
  rw [embedded]
  cases aliases : f.aliases.isEmpty with
  | false => cases catalog.expand f.type <;> rfl
  | true =>
    cases catalog.expand f.type with
    | optional inner => cases inner <;> rfl
    | scalar | list | set | map | object | union | unsupported | named => rfl

theorem fieldMade_of_ok {f : FieldDescriptor Descriptor} {fields : List (Field Schema)}
    (ok : fieldsOf catalog schema shape place f = .ok fields) :
    FieldMade catalog (Made schema) (Made shape) f fields := by
  cases embedded : f.embedded with
  | false =>
    rw [fieldsOf_plain embedded] at ok
    obtain ⟨made, here, rfl⟩ := map_eq_ok_iff.1 ok
    exact .plain embedded ⟨_, here⟩
  | true =>
    rw [fieldsOf_embedded embedded] at ok
    split at ok
    · rename_i unaliased
      split at ok
      · rename_i inner type
        obtain ⟨made, here, rfl⟩ := map_eq_ok_iff.1 ok
        exact .embedded embedded (List.isEmpty_iff.1 unaliased) type ⟨_, here⟩
      · cases ok
    · cases ok

theorem shapeMade_of_ok {object : ObjectDescriptor Descriptor} {made : Shape Schema}
    (ok : shapeOf catalog schema shape place object = .ok made) :
    ShapeMade catalog (Made schema) (Made shape) object made := by
  obtain ⟨parts, each, ok⟩ := bind_eq_ok_iff.1 ok
  obtain ⟨distinct, ok⟩ := then_eq_ok_iff.1 ok
  cases ok
  obtain ⟨names, wireNames⟩ := Schema.checkDistinct_eq_ok_iff.1 distinct
  exact .mk ((mapM_eq_ok_iff.1 each).imp fun _ _ => fieldMade_of_ok) names wireNames

theorem taggedMade_of_ok {type : Descriptor} {made : Shape Schema} (discriminator : Discriminator)
    (ok : variantShape catalog shape place type = .ok made) :
    TaggedMade catalog (Made shape) discriminator type (withTag discriminator made) := by
  unfold variantShape at ok
  cases expanded : catalog.expand type with
  | object object =>
    rw [expanded] at ok
    obtain ⟨own, here, rfl⟩ := map_eq_ok_iff.1 ok
    exact .mk expanded ⟨place, here⟩
  | scalar | optional | list | set | map | union | unsupported | named =>
    rw [expanded] at ok
    cases ok

theorem variantsMade_of_ok {discriminator : Discriminator} {claims : Schema.Claims}
    {variants : List (VariantDescriptor Descriptor)} {made : List (Variant Schema)}
    (ok : variantsOf catalog shape place discriminator claims variants = .ok made) :
    List.Forall₂ (VariantMade catalog (Made shape) discriminator) variants made := by
  induction variants generalizing claims made with
  | nil =>
    cases ok
    exact .nil
  | cons v rest ih =>
    obtain ⟨claimed, -, ok⟩ := bind_eq_ok_iff.1 ok
    obtain ⟨own, here, ok⟩ := bind_eq_ok_iff.1 ok
    obtain ⟨others, later, ok⟩ := bind_eq_ok_iff.1 ok
    cases ok
    exact .cons (.mk (taggedMade_of_ok discriminator here)) (ih later)

theorem unionMade_of_ok {choice : UnionDescriptor Descriptor} {made : TaggedUnion Schema}
    (ok : unionOf catalog shape place choice = .ok made) : UnionMade catalog (Made shape) choice made := by
  unfold unionOf at ok
  obtain ⟨-, ok⟩ := refuse_eq_ok_iff.1 ok
  obtain ⟨variants, each, ok⟩ := bind_eq_ok_iff.1 ok
  have made_each := variantsMade_of_ok each
  cases base : choice.base with
  | some type =>
    rw [base] at ok
    obtain ⟨own, here, ok⟩ := bind_eq_ok_iff.1 ok
    cases ok
    exact .mk made_each (.declared base (taggedMade_of_ok _ here))
  | none =>
    rw [base] at ok
    obtain ⟨own, here, ok⟩ := bind_eq_ok_iff.1 ok
    cases ok
    exact .mk made_each (.merged base here)

theorem element_of_ok {type : Descriptor} {made : Schema} (ok : elementOf schema place type = .ok made) :
    Made schema type made := by
  obtain ⟨element, here, ok⟩ := bind_eq_ok_iff.1 ok
  obtain ⟨-, ok⟩ := refuse_eq_ok_iff.1 ok
  cases ok
  exact ⟨_, here⟩

theorem collection_of_ok {type : Descriptor} {made : Collection Schema}
    (ok : collectionOf schema place type = .ok made) :
    ∃ element, Made schema type element ∧ made = collected element := by
  obtain ⟨element, here, ok⟩ := bind_eq_ok_iff.1 ok
  cases ok
  exact ⟨element, element_of_ok here, rfl⟩

theorem schemaMade_of_ok {below variants : Level} {type : Descriptor} {made : Schema}
    (ok : schemaOf catalog below variants place type = .ok made) :
    SchemaMade catalog (Made below.schema) (Made below.shape) (Made variants.shape) type made := by
  cases type with
  | scalar kind =>
    cases ok
    exact .scalar kind
  | optional inner => exact .optional ⟨place, ok⟩
  | list element =>
    obtain ⟨items, here, rfl⟩ := map_eq_ok_iff.1 ok
    obtain ⟨made, element, rfl⟩ := collection_of_ok here
    exact .list element
  | set element =>
    obtain ⟨items, here, rfl⟩ := map_eq_ok_iff.1 ok
    obtain ⟨made, element, rfl⟩ := collection_of_ok here
    exact .set element
  | map element =>
    obtain ⟨made, here, ok⟩ := bind_eq_ok_iff.1 ok
    obtain ⟨-, ok⟩ := refuse_eq_ok_iff.1 ok
    cases ok
    exact .map (element_of_ok here)
  | object object =>
    obtain ⟨shape, here, rfl⟩ := map_eq_ok_iff.1 ok
    exact .object ⟨place, here⟩
  | union choice =>
    obtain ⟨union, here, rfl⟩ := map_eq_ok_iff.1 ok
    exact .union (unionMade_of_ok here)
  | unsupported name => cases ok
  | named name => cases ok

end Made

/-! ### The schemas of fields -/

section Fields

variable {catalog : Catalog} {schema : Descriptor → Schema → Prop}
  {shape : ObjectDescriptor Descriptor → Shape Schema → Prop} {P : Schema → Prop}

/-- An element without its wrapper is the element, or an object in it. -/
theorem unwrap_fst (element : Schema) : (unwrap element).1 = element ∨
    (unwrap element).1 ∈ element.children ∧ ∃ inner, (unwrap element).1 = .object inner := by
  unfold unwrap
  split
  · rename_i name field
    split
    · rename_i inner held
      split
      · have mem : field.schema ∈ (Schema.object ⟨name, [field]⟩).children :=
          Schema.field_mem_children List.mem_cons_self List.mem_cons_self
        exact .inr ⟨held ▸ mem, inner, rfl⟩
      · exact .inl rfl
    · exact .inl rfl
  · exact .inl rfl

/-- The field for the tag that a shape has if it has none of its own. -/
def tagField (discriminator : Discriminator) : Field Schema :=
  { Field.plain discriminator.name (.scalar .string) with wireName := discriminator.wireName, optional := true }

theorem withTag_of_none {discriminator : Discriminator} {shape : Shape Schema}
    (none : shape.field? discriminator.name = none) :
    withTag discriminator shape = ⟨shape.name, tagField discriminator :: shape.fields⟩ := by
  rw [withTag, none]
  rfl

theorem withTag_of_some {discriminator : Discriminator} {shape : Shape Schema} {f : Field Schema}
    (some : shape.field? discriminator.name = some f) : withTag discriminator shape = shape := by
  rw [withTag, some]
  rfl

theorem mem_withTag {discriminator : Discriminator} {shape : Shape Schema} {f : Field Schema}
    (mem : f ∈ (withTag discriminator shape).fields) : f = tagField discriminator ∨ f ∈ shape.fields := by
  cases own : shape.field? discriminator.name with
  | none => rwa [withTag_of_none own, List.mem_cons] at mem
  | some g => exact .inr (withTag_of_some own ▸ mem)

theorem mem_mergeFields {place variant : String} {merged fields out : List (Field Schema)}
    (ok : mergeFields place variant merged fields = .ok out) {f : Field Schema} (mem : f ∈ out) :
    f ∈ merged ∨ f ∈ fields := by
  induction fields generalizing merged with
  | nil =>
    cases ok
    exact .inl mem
  | cons g rest ih =>
    unfold mergeFields at ok
    split at ok
    · rcases ih ok with before | later
      · rcases List.mem_append.1 before with before | here
        · exact .inl before
        · exact .inr (List.mem_singleton.1 here ▸ List.mem_cons_self)
      · exact .inr (List.mem_cons_of_mem _ later)
    · split at ok
      · exact (ih ok).imp id (List.mem_cons_of_mem _)
      · cases ok

theorem mem_mergeVariants {place tagName : String} {merged out : List (Field Schema)} {variants : List (Variant Schema)}
    (ok : mergeVariants place tagName merged variants = .ok out) {f : Field Schema} (mem : f ∈ out) :
    f ∈ merged ∨ f.name ≠ tagName ∧ ∃ v ∈ variants, f ∈ v.shape.fields := by
  induction variants generalizing merged with
  | nil =>
    cases ok
    exact .inl mem
  | cons v rest ih =>
    obtain ⟨next, here, ok⟩ := bind_eq_ok_iff.1 ok
    rcases ih ok with before | ⟨other, w, held, declared⟩
    · rcases mem_mergeFields here before with before | own
      · exact .inl before
      · obtain ⟨declared, other⟩ := List.mem_filter.1 own
        exact .inr ⟨by simpa using other, v, List.mem_cons_self, declared⟩
    · exact .inr ⟨other, w, List.mem_cons_of_mem _ held, declared⟩

/-- The fields that are merged come from a variant, and none of them is the one for the tag. -/
theorem mem_mergedBase {name place : String} {discriminator : Discriminator} {variants : List (Variant Schema)}
    {merged : Shape Schema} (ok : mergedBase name place discriminator variants = .ok merged) {f : Field Schema}
    (mem : f ∈ merged.fields) : f.name ≠ discriminator.name ∧ ∃ v ∈ variants, f ∈ v.shape.fields := by
  obtain ⟨fields, each, ok⟩ := bind_eq_ok_iff.1 ok
  obtain ⟨-, ok⟩ := then_eq_ok_iff.1 ok
  cases ok
  exact (mem_mergeVariants each mem).resolve_left List.not_mem_nil

/-- What holds of the schemas of plain fields and of the fields of embedded objects holds of all fields of a shape. -/
theorem ShapeMade.fields {object : ObjectDescriptor Descriptor} {made : Shape Schema}
    (own : ShapeMade catalog schema shape object made)
    (plain : ∀ f ∈ object.fields, ∀ made minItems maxItems, schema (f.valueType catalog) made →
      P (withLimits minItems maxItems made))
    (embedded : ∀ f ∈ object.fields, ∀ inner made, f.valueType catalog = .object inner → shape inner made →
      ∀ g ∈ made.fields, P g.schema) :
    ∀ f ∈ made.fields, P f.schema := by
  obtain ⟨each, -, -⟩ := own
  intro f mem
  obtain ⟨part, part_mem, held⟩ := List.mem_flatten.1 mem
  obtain ⟨g, declared, here⟩ := Draft.exists_of_forall₂ each.flip part_mem
  cases here with
  | plain alone made =>
    rw [List.mem_singleton.1 held]
    exact plain g declared _ _ _ made
  | embedded _ _ type made =>
    obtain ⟨inner, own, rfl⟩ := List.mem_map.1 held
    exact embedded g declared _ _ type made inner own

theorem TaggedMade.fields {discriminator : Discriminator} {type : Descriptor} {made : Shape Schema}
    (own : TaggedMade catalog shape discriminator type made)
    (each : ∀ object made, catalog.expand type = .object object → shape object made → ∀ f ∈ made.fields, P f.schema) :
    ∀ f ∈ made.fields, P f.schema ∨ f.schema = .scalar .string := by
  obtain ⟨expanded, here⟩ := own
  intro f mem
  rcases mem_withTag mem with rfl | mem
  · exact .inr rfl
  · obtain ⟨g, declared, rfl⟩ := List.mem_map.1 mem
    exact .inl (each _ _ expanded here g declared)

/-- What holds of the fields of the objects that a union is declared with holds of all its fields but those for the
tag. -/
theorem UnionMade.fields {choice : UnionDescriptor Descriptor} {made : TaggedUnion Schema}
    (own : UnionMade catalog shape choice made)
    (each : ∀ type ∈ choice.types, ∀ object made, catalog.expand type = .object object → shape object made →
      ∀ f ∈ made.fields, P f.schema) :
    ∀ shape ∈ made.shapes, ∀ f ∈ shape.fields, P f.schema ∨ f.schema = .scalar .string := by
  cases own with
  | @mk variants _ made base =>
    have variantFields : ∀ v ∈ variants, ∀ f ∈ v.shape.fields, P f.schema ∨ f.schema = .scalar .string := by
      intro v mem
      obtain ⟨w, declared, ⟨tagged⟩⟩ := Draft.exists_of_forall₂ made.flip mem
      exact tagged.fields (each w.type (List.mem_append_left _ (List.mem_map_of_mem declared)))
    intro shape mem
    rcases List.mem_cons.1 mem with rfl | mem
    · cases base with
      | @declared type _ declared tagged =>
        exact tagged.fields (each type (List.mem_append_right _ (Option.mem_toList.2 declared)))
      | merged _ merged =>
        intro f mem
        rcases mem_withTag mem with rfl | mem
        · exact .inr rfl
        · obtain ⟨-, v, held, declared⟩ := mem_mergedBase merged mem
          exact variantFields v held f declared
    · obtain ⟨v, held, rfl⟩ := List.mem_map.1 mem
      exact variantFields v held

end Fields

/-! ### Levels -/

/-- What is made of a type with a number of levels left. -/
def SchemaAt (catalog : Catalog) (n : Nat) : Descriptor → Schema → Prop := Made (levels catalog n).1.schema

/-- What is made of an object with a number of levels left below it. -/
def ShapeAt (catalog : Catalog) (n : Nat) : ObjectDescriptor Descriptor → Shape Schema → Prop :=
  Made (levels catalog n).1.shape

/-- What is made of an embedded object with a number of levels left below the one around it. -/
def EmbeddedAt (catalog : Catalog) : Nat → ObjectDescriptor Descriptor → Shape Schema → Prop
  | 0, _, _ => False
  | n + 1, object, made => ShapeAt catalog n object made

variable {catalog : Catalog} {n : Nat} {type : Descriptor} {object : ObjectDescriptor Descriptor}

theorem levels_snd (catalog : Catalog) (n : Nat) : (levels catalog n).2 = (levels catalog (n - 1)).1 := by
  cases n <;> rfl

/-- Nothing is made of a type with no levels left. -/
theorem not_schemaAt_zero {made : Schema} : ¬ SchemaAt catalog 0 type made := fun ⟨_, ok⟩ => nomatch ok

theorem SchemaAt.made {made : Schema} (ok : SchemaAt catalog (n + 1) type made) :
    SchemaMade catalog (SchemaAt catalog n) (ShapeAt catalog n) (ShapeAt catalog (n - 1)) type made := by
  obtain ⟨place, ok⟩ := ok
  have own : SchemaMade catalog (SchemaAt catalog n) (ShapeAt catalog n) (Made (levels catalog n).2.shape) type made :=
    schemaMade_of_ok ok
  rwa [levels_snd] at own

theorem ShapeAt.made {made : Shape Schema} (ok : ShapeAt catalog n object made) :
    ShapeMade catalog (SchemaAt catalog n) (EmbeddedAt catalog n) object made := by
  obtain ⟨place, ok⟩ := ok
  cases n with
  | zero =>
    obtain ⟨each, names, wireNames⟩ : ShapeMade catalog (SchemaAt catalog 0) (Made fun place _ => tooDeep place) object
      made := shapeMade_of_ok ok
    refine .mk (each.imp fun f fields here => ?_) names wireNames
    cases here with
    | plain plain own => exact .plain plain own
    | embedded _ _ _ own => exact nomatch own
  | succ n =>
    have own : ShapeMade catalog (SchemaAt catalog (n + 1)) (ShapeAt catalog n) object made := shapeMade_of_ok ok
    exact own

/-- Induction over the levels. A property `S` of the schemas of types is shown from those of one level less, and a
property `F` of the fields of objects from those of the types of plain fields and of the fields of embedded objects. -/
theorem levels_induction {S : Nat → Descriptor → Schema → Prop} {F : Nat → ObjectDescriptor Descriptor → Schema → Prop}
    (schema : ∀ n type made, (∀ type made, SchemaAt catalog n type made → S n type made) →
      (∀ object made, ShapeAt catalog n object made → ∀ f ∈ made.fields, F n object f.schema) →
      (∀ object made, ShapeAt catalog (n - 1) object made → ∀ f ∈ made.fields, F (n - 1) object f.schema) →
      SchemaMade catalog (SchemaAt catalog n) (ShapeAt catalog n) (ShapeAt catalog (n - 1)) type made →
      S (n + 1) type made)
    (plain : ∀ {n minItems maxItems made}, ∀ object : ObjectDescriptor Descriptor, ∀ f ∈ object.fields,
      S n (f.valueType catalog) made → F n object (withLimits minItems maxItems made))
    (embedded : ∀ {n inner made}, ∀ object : ObjectDescriptor Descriptor, ∀ f ∈ object.fields,
      f.valueType catalog = .object inner → F n inner made → F (n + 1) object made) (n : Nat) :
    (∀ type made, SchemaAt catalog n type made → S n type made) ∧
      ∀ object made, ShapeAt catalog n object made → ∀ f ∈ made.fields, F n object f.schema := by
  induction n using Nat.strongRecOn with
  | ind n ih =>
    cases n with
    | zero =>
      refine ⟨fun type made ok => absurd ok not_schemaAt_zero, fun object made ok => ok.made.fields ?_ ?_⟩
      · exact fun f _ made _ _ own => absurd own not_schemaAt_zero
      · exact fun f _ inner made _ own => own.elim
    | succ n =>
      obtain ⟨schemas, shapes⟩ := ih n (Nat.lt_succ_self n)
      have variants := (ih (n - 1) (Nat.lt_succ_of_le (Nat.sub_le n 1))).2
      have all : ∀ type made, SchemaAt catalog (n + 1) type made → S (n + 1) type made :=
        fun type made ok => schema n type made schemas shapes variants ok.made
      refine ⟨all, fun object made ok => ok.made.fields ?_ ?_⟩
      · exact fun f declared made _ _ own => plain object f declared (all _ made own)
      · exact fun f declared inner made type own g mem => embedded object f declared type (shapes inner made own g mem)

end Synthesis

/-- A schema that is synthesized is made of the type behind a name with all levels left. -/
theorem Descriptor.schemaAt_of_synthesize {catalog : Catalog} {type : Descriptor} {schema : Schema}
    (synthesized : type.synthesize catalog = .ok schema) :
    Synthesis.SchemaAt catalog Synthesis.maxDepth (catalog.expand type) schema := by
  obtain ⟨made, here, checked⟩ := bind_eq_ok_iff.1 synthesized
  obtain ⟨-, same⟩ := then_eq_ok_iff.1 checked
  cases same
  exact ⟨_, here⟩

/-! ### Fields of embedded fields -/

/-- A field whose type has no fields among those of an object, and the embedded fields that it stands in, the innermost
first. -/
structure PlainField where
  field : FieldDescriptor Descriptor
  around : List (FieldDescriptor Descriptor)

namespace PlainField

/-- The field with one more embedded field around it. -/
def within (outer : FieldDescriptor Descriptor) (plain : PlainField) : PlainField :=
  { plain with around := plain.around ++ [outer] }

/-- What becomes of a plain field, given the schema of its type. -/
def made (catalog : Catalog) (plain : PlainField) (schema : Schema) : Field Schema where
  name := plain.field.name
  wireName := plain.field.wireName
  schema := Synthesis.withLimits plain.field.minItems plain.field.maxItems schema
  optional := plain.field.isOptional catalog || plain.field.computed || plain.around.any (·.isOptional catalog)
  computed := plain.field.computed
  aliases := plain.field.aliases
  promotedFrom := plain.around.head?.map (·.name)

theorem promote_made (catalog : Catalog) (outer : FieldDescriptor Descriptor) (plain : PlainField) (schema : Schema) :
    Synthesis.promote outer.name (outer.isOptional catalog) (plain.made catalog schema) =
      (plain.within outer).made catalog schema := by
  obtain ⟨field, around⟩ := plain
  cases around <;> simp [Synthesis.promote, made, within, Bool.or_assoc]

end PlainField

/-- The plain fields among the fields of an object, on the way through the embedded ones. -/
inductive Catalog.Plain (catalog : Catalog) : List (FieldDescriptor Descriptor) → List PlainField → Prop
  | nil : Plain catalog [] []
  | plain {f : FieldDescriptor Descriptor} {rest : List (FieldDescriptor Descriptor)} {later : List PlainField} :
    f.embedded = false → Plain catalog rest later → Plain catalog (f :: rest) (⟨f, []⟩ :: later)
  | embedded {f : FieldDescriptor Descriptor} {inner : ObjectDescriptor Descriptor}
    {rest : List (FieldDescriptor Descriptor)} {own later : List PlainField} :
    f.embedded = true → f.valueType catalog = .object inner → Plain catalog inner.fields own →
    Plain catalog rest later → Plain catalog (f :: rest) (own.map (·.within f) ++ later)

/-- The plain fields of an object are met in one way. -/
theorem Catalog.Plain.unique {catalog : Catalog} {fields : List (FieldDescriptor Descriptor)}
    {first second : List PlainField} (one : catalog.Plain fields first) (other : catalog.Plain fields second) :
    first = second := by
  induction one generalizing second with
  | nil =>
    cases other
    rfl
  | plain alone _ ih =>
    cases other with
    | plain _ later => rw [ih later]
    | embedded embedded => simp [alone] at embedded
  | embedded embedded type _ _ inside later =>
    cases other with
    | plain alone => simp [alone] at embedded
    | embedded _ same own rest =>
      cases type.symm.trans same
      rw [inside own, later rest]

namespace Synthesis

variable {catalog : Catalog} {n : Nat} {object : ObjectDescriptor Descriptor}

/-- A field that is made of a plain one, with at most a number of levels left. -/
inductive PlainMade (catalog : Catalog) (n : Nat) (plain : PlainField) : Field Schema → Prop
  | mk {m : Nat} {schema : Schema} : m ≤ n → SchemaAt catalog m (plain.field.valueType catalog) schema →
    PlainMade catalog n plain (plain.made catalog schema)

namespace PlainMade

variable {plain : PlainField} {f : Field Schema}

theorem name (made : PlainMade catalog n plain f) : f.name = plain.field.name := by
  cases made
  rfl

theorem wireName (made : PlainMade catalog n plain f) : f.wireName = plain.field.wireName := by
  cases made
  rfl

theorem promote (made : PlainMade catalog n plain f) (outer : FieldDescriptor Descriptor) :
    PlainMade catalog (n + 1) (plain.within outer) (Synthesis.promote outer.name (outer.isOptional catalog) f) := by
  obtain ⟨le, ok⟩ := made
  rw [plain.promote_made]
  exact .mk (Nat.le_succ_of_le le) ok

end PlainMade

theorem fields_spliced {fields : List (FieldDescriptor Descriptor)} {parts : List (List (Field Schema))}
    (each : List.Forall₂ (FieldMade catalog (SchemaAt catalog n) (EmbeddedAt catalog n)) fields parts) :
    ∃ plain, catalog.Plain fields plain ∧ List.Forall₂ (PlainMade catalog n) plain parts.flatten := by
  -- embedded objects have fewer levels left, and the fields behind them have as many
  induction n using Nat.strongRecOn generalizing fields parts with
  | ind n shallower =>
    induction each with
    | nil => exact ⟨[], .nil, .nil⟩
    | @cons f _ _ _ here _ rest =>
      obtain ⟨later, plain, others⟩ := rest
      cases here with
      | @plain made alone own =>
        have here : PlainMade catalog n ⟨f, []⟩ (PlainField.made catalog ⟨f, []⟩ made) := .mk (Nat.le_refl n) own
        exact ⟨_, .plain alone plain, .cons (by simpa [PlainField.made] using here) others⟩
      | embedded embedded _ type own =>
        cases n with
        | zero => exact own.elim
        | succ m =>
          obtain ⟨inside, -, -⟩ := ShapeAt.made own
          obtain ⟨below, spliced, same⟩ := shallower m (Nat.lt_succ_self m) inside
          refine ⟨_, .embedded embedded type spliced plain, List.rel_append ?_ others⟩
          rw [List.forall₂_map_left_iff, List.forall₂_map_right_iff]
          exact same.imp fun _ _ made => PlainMade.promote made f

/-- The shape of an object has one field for each plain field, in their order. -/
theorem ShapeAt.spliced {made : Shape Schema} (ok : ShapeAt catalog n object made) : made.name = object.name ∧
    ∃ plain, catalog.Plain object.fields plain ∧ List.Forall₂ (PlainMade catalog n) plain made.fields := by
  obtain ⟨each, -, -⟩ := ok.made
  exact ⟨rfl, fields_spliced each⟩

end Synthesis
end FlatStore
