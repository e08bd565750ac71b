import FlatStore.Descriptor
import FlatStore.Schema.Equality
import FlatStore.Schema.Valid

/-!
Synthesis: from the descriptor of a type to its schema. An optional type makes its field optional and is otherwise
transparent. The fields of an embedded field stand among those around it. An element that wraps nothing but one
required object is stored without the wrapper. The fields of a variant are all optional, since only one variant has
values, and there is a field for the tag in each. A type whose nesting has no end is refused at a bound.
-/
namespace FlatStore
namespace Synthesis

def maxDepth : Nat := 64

/-! ### Parts -/

/-- The element of a collection without a wrapper that holds nothing but one required object, and the name of the
member that the wrapper had. -/
def unwrap : Schema → Schema × Option String
  | .object ⟨name, [field]⟩ =>
    match field.schema with
    | .object inner =>
      if !field.optional && field.promotedFrom.isNone then (.object inner, some field.wireName)
      else (.object ⟨name, [field]⟩, none)
    | _ => (.object ⟨name, [field]⟩, none)
  | element => (element, none)

/-- A shape with a field for the tag, which comes first if the shape has none of its own. -/
def withTag (discriminator : Discriminator) (shape : Shape Schema) : Shape Schema :=
  if (shape.field? discriminator.name).isSome then shape
  else
    { shape with
      fields := { Field.plain discriminator.name (.scalar .string) with
        wireName := discriminator.wireName, optional := true } :: shape.fields }

def allOptional (shape : Shape Schema) : Shape Schema :=
  { shape with fields := shape.fields.map fun field => { field with optional := true } }

/-- A field that comes from an embedded one. It keeps the innermost field that it was promoted from. -/
def promote (name : String) (optional : Bool) (field : Field Schema) : Field Schema :=
  { field with optional := field.optional || optional, promotedFrom := field.promotedFrom.or (some name) }

def limitItems (minItems maxItems : Option UInt64) (items : Collection Schema) : Collection Schema :=
  { items with minItems := minItems.getD items.minItems, maxItems := maxItems.or items.maxItems }

def withLimits (minItems maxItems : Option UInt64) : Schema → Schema
  | .list items => .list (limitItems minItems maxItems items)
  | .set items => .set (limitItems minItems maxItems items)
  | schema => schema

/-- Adds the fields of a variant to those of the variants before it. Fields of one name have to agree. -/
def mergeFields (place variant : String) (merged : List (Field Schema)) :
    List (Field Schema) → Except SchemaError (List (Field Schema))
  | [] => .ok merged
  | field :: rest =>
    match merged.find? (·.name = field.name) with
    | none => mergeFields place variant (merged ++ [field]) rest
    | some seen =>
      if seen.wireName = field.wireName ∧ seen.schema = field.schema then mergeFields place variant merged rest
      else .error (.conflictingField place field.name variant)

def mergeVariants (place tagName : String) (merged : List (Field Schema)) :
    List (Variant Schema) → Except SchemaError (List (Field Schema))
  | [] => .ok merged
  | v :: rest => do
    let merged ← mergeFields place v.name merged (v.shape.fields.filter (·.name ≠ tagName))
    mergeVariants place tagName merged rest

/-- The base of a union that declares none: all fields of its variants. -/
def mergedBase (name place : String) (discriminator : Discriminator) (variants : List (Variant Schema)) :
    Except SchemaError (Shape Schema) := do
  let fields ← mergeVariants place discriminator.name [] variants
  Schema.checkDistinct place fields
  return ⟨name ++ "Base", fields⟩

/-! ### Levels -/

/-- What can be synthesized with a number of levels left: the schema of a type, and the shape of an object at a place
that has been counted already. -/
structure Level where
  schema : String → Descriptor → Except SchemaError Schema
  shape : String → ObjectDescriptor Descriptor → Except SchemaError (Shape Schema)

def tooDeep {α : Type} (place : String) : Except SchemaError α := .error (.tooDeep place maxDepth)

variable (catalog : Catalog)

/-- The fields of a field of an object, given the schemas of types and the shapes of embedded objects. -/
def fieldsOf (schema : String → Descriptor → Except SchemaError Schema)
    (shape : String → ObjectDescriptor Descriptor → Except SchemaError (Shape Schema)) (place : String)
    (f : FieldDescriptor Descriptor) : Except SchemaError (List (Field Schema)) := do
  let here := Schema.fieldPlace place f.name
  let (optional, type) := match catalog.expand f.type with
    | .optional inner => (true, inner)
    | type => (false, type)
  if f.embedded then
    if !f.aliases.isEmpty then throw (.embeddedAlias here f.name)
    match type with
    | .object inner => return (← shape here inner).fields.map (promote f.name optional)
    | other => throw (.notAnObject here other.label)
  else
    let schema ← schema here type
    return [⟨f.name, f.wireName, withLimits f.minItems f.maxItems schema, optional || f.computed, f.computed, f.aliases,
      none⟩]

def shapeOf (schema : String → Descriptor → Except SchemaError Schema)
    (shape : String → ObjectDescriptor Descriptor → Except SchemaError (Shape Schema)) (place : String)
    (object : ObjectDescriptor Descriptor) : Except SchemaError (Shape Schema) := do
  let fields := (← object.fields.mapM (fieldsOf catalog schema shape place)).flatten
  Schema.checkDistinct place fields
  return ⟨object.name, fields⟩

def variantShape (shape : String → ObjectDescriptor Descriptor → Except SchemaError (Shape Schema)) (place : String)
    (type : Descriptor) : Except SchemaError (Shape Schema) :=
  match catalog.expand type with
  | .object object => allOptional <$> shape place object
  | other => .error (.notAnObject place other.label)

def variantsOf (shape : String → ObjectDescriptor Descriptor → Except SchemaError (Shape Schema)) (place : String)
    (discriminator : Discriminator) (claims : Schema.Claims) :
    List (VariantDescriptor Descriptor) → Except SchemaError (List (Variant Schema))
  | [] => .ok []
  | v :: rest => do
    let claims ← claims.add place v.name v.values
    let shape' ← variantShape catalog shape (Schema.variantPlace place v.name) v.type
    let rest ← variantsOf shape place discriminator claims rest
    return ⟨v.name, v.values, v.segment, withTag discriminator shape'⟩ :: rest

def unionOf (shape : String → ObjectDescriptor Descriptor → Except SchemaError (Shape Schema)) (place : String)
    (choice : UnionDescriptor Descriptor) : Except SchemaError (TaggedUnion Schema) := do
  if choice.variants.isEmpty then throw (.noVariants place choice.name)
  let variants ← variantsOf catalog shape place choice.discriminator [] choice.variants
  let base ← match choice.base with
    | some type => variantShape catalog shape (Schema.basePlace place) type
    | none => mergedBase choice.name place choice.discriminator variants
  return ⟨choice.name, choice.discriminator, variants, withTag choice.discriminator base⟩

def elementOf (schema : String → Descriptor → Except SchemaError Schema) (place : String) (type : Descriptor) :
    Except SchemaError Schema := do
  let element ← schema (Schema.elementPlace place) type
  if element.nestsCollections then throw (.nestedCollection (Schema.elementPlace place))
  return element

def collectionOf (schema : String → Descriptor → Except SchemaError Schema) (place : String) (type : Descriptor) :
    Except SchemaError (Collection Schema) := do
  let (element, wrapper) := unwrap (← elementOf schema place type)
  return { Collection.of element with wrapper }

/-- The schema of a type, one level above others. The shapes of variants lie one level below that of an object. -/
def schemaOf (below : Level) (variants : Level) (place : String) : Descriptor → Except SchemaError Schema
  | .scalar kind => .ok (.scalar kind)
  | .optional inner => below.schema place inner
  | .list element => .list <$> collectionOf below.schema place element
  | .set element => .set <$> collectionOf below.schema place element
  | .map element => do
    let element ← elementOf below.schema place element
    if element.hidesMapKey then throw (.reservedMapKey place)
    return .map element
  | .object object => .object <$> below.shape place object
  | .union choice => .union <$> unionOf catalog variants.shape place choice
  | .unsupported name | .named name => .error (.unsupported place name)

def ground : Level where
  schema place _ := tooDeep place
  shape place object := shapeOf catalog (fun place _ => tooDeep place) (fun place _ => tooDeep place) place object

/-- The level above `below`, of which `variants` is the level below. -/
def Level.above (below variants : Level) : Level :=
  let schema := schemaOf catalog below variants
  ⟨schema, fun place object => shapeOf catalog schema below.shape place object⟩

def levels : Nat → Level × Level
  | 0 => (ground catalog, ground catalog)
  | n + 1 =>
    let (below, variants) := levels n
    (below.above catalog variants, below)

/-- The place of a type that lies in no other. -/
def rootPlace : Descriptor → String
  | .object object => object.name
  | .union choice => choice.name
  | _ => "$"

end Synthesis

def Descriptor.synthesize (catalog : Catalog) (type : Descriptor) : Except SchemaError Schema := do
  let type := catalog.expand type
  let schema ← (Synthesis.levels catalog Synthesis.maxDepth).1.schema (Synthesis.rootPlace type) type
  schema.validate
  return schema

end FlatStore
