import FlatStore.Scalar

/-!
Schemas: the shape of a value as a flat store sees it. A schema is a scalar, a collection or a block of fields. The
parts that schemas are made of are named structures over the type of schemas, so that schemas nest through them.
-/
namespace FlatStore

structure Field (σ : Type) where
  /-- Segment in addresses. -/
  name : String
  /-- Member in JSON documents. -/
  wireName : String
  schema : σ
  optional : Bool
  computed : Bool
  /-- Former names, tried in this order after the name. -/
  aliases : List String
  /-- The embedded field that this one comes from. -/
  promotedFrom : Option String

structure Shape (σ : Type) where
  name : String
  fields : List (Field σ)

/-- A list or a set. -/
structure Collection (σ : Type) where
  element : σ
  minItems : UInt64
  maxItems : Option UInt64
  /-- The member that every element is wrapped in on the wire. Elements are stored without it. -/
  wrapper : Option String

structure Variant (σ : Type) where
  name : String
  values : List String
  /-- Segment in addresses in place of the name of the field. -/
  segment : Option String
  shape : Shape σ

structure Discriminator where
  name : String
  wireName : String
deriving DecidableEq

/-- A value whose shape is chosen by a tag, and the shape of those that no variant takes. -/
structure TaggedUnion (σ : Type) where
  name : String
  discriminator : Discriminator
  variants : List (Variant σ)
  base : Shape σ

inductive Schema where
  | scalar (kind : ScalarKind)
  | list (items : Collection Schema)
  | set (items : Collection Schema)
  | map (element : Schema)
  | object (shape : Shape Schema)
  | union (choice : TaggedUnion Schema)

instance : Inhabited Schema := ⟨.scalar .string⟩

def mapKeyField : String := "key"

/-- The member that holds the value of a map entry, unless the value is a block. -/
def mapValueField : String := "values"

def Shape.field? {σ : Type} (shape : Shape σ) (name : String) : Option (Field σ) :=
  shape.fields.find? (·.name = name)

def Field.plain {σ : Type} (name : String) (schema : σ) : Field σ :=
  ⟨name, name, schema, false, false, [], none⟩

def Collection.of {σ : Type} (element : σ) : Collection σ := ⟨element, 0, none, none⟩

def TaggedUnion.variant? {σ : Type} (choice : TaggedUnion σ) (tag : String) : Option (Variant σ) :=
  choice.variants.find? (·.values.contains tag)

namespace Schema

def isCollection : Schema → Bool
  | .list _ | .set _ | .map _ => true
  | _ => false

/-- Whether a value is a block of fields and not a leaf or a collection. -/
def isBlock : Schema → Bool
  | .object _ | .union _ => true
  | _ => false

def element? : Schema → Option Schema
  | .list items | .set items => some items.element
  | .map element => some element
  | _ => none

mutual
/-- The value of a required field for which nothing is stored. A union has none, since no variant can be chosen. -/
def zero? : Schema → Option Json
  | .scalar kind => some kind.zero.toJson
  | .list _ | .set _ => some (.array [])
  | .map _ => some (.object [])
  | .object ⟨_, fields⟩ => some (.object (membersOf (zeros fields)))
  | .union _ => none
def zeros : List (Field Schema) → List (String × Json)
  | [] => []
  | ⟨_, wireName, schema, optional, _, _, _⟩ :: rest =>
    match if optional then none else schema.zero? with
    | some zero => (wireName, zero) :: zeros rest
    | none => zeros rest
end

mutual
def same : Schema → Schema → Bool
  | .scalar a, .scalar b => a == b
  | .list ⟨a, least, most, wrapper⟩, .list c
  | .set ⟨a, least, most, wrapper⟩, .set c =>
    a.same c.element && least == c.minItems && most == c.maxItems && wrapper == c.wrapper
  | .map a, .map b => a.same b
  | .object ⟨name, fields⟩, .object b => name == b.name && sameFields fields b.fields
  | .union ⟨name, discriminator, variants, ⟨baseName, baseFields⟩⟩, .union b =>
    name == b.name && discriminator == b.discriminator && sameVariants variants b.variants &&
      baseName == b.base.name && sameFields baseFields b.base.fields
  | _, _ => false
def sameFields : List (Field Schema) → List (Field Schema) → Bool
  | [], [] => true
  | ⟨name, wireName, schema, optional, computed, aliases, promotedFrom⟩ :: rest, b :: others =>
    name == b.name && wireName == b.wireName && schema.same b.schema && optional == b.optional &&
      computed == b.computed && aliases == b.aliases && promotedFrom == b.promotedFrom && sameFields rest others
  | _, _ => false
def sameVariants : List (Variant Schema) → List (Variant Schema) → Bool
  | [], [] => true
  | ⟨name, values, segment, ⟨shapeName, fields⟩⟩ :: rest, b :: others =>
    name == b.name && values == b.values && segment == b.segment && shapeName == b.shape.name &&
      sameFields fields b.shape.fields && sameVariants rest others
  | _, _ => false
end

end Schema
end FlatStore
