import FlatStore.Address
import FlatStore.Schema.Basic

/-!
Which schemas can address a flat store. Every name that becomes a segment has to be usable, the names inside a shape
and the tags of a union have to be distinct, a collection of collections needs blocks in between, and a map keeps the
member of its keys to itself. Errors name the place where they arise: fields stand behind points, variants between
angles, and elements behind brackets.
-/
namespace FlatStore

/-- Why a type has no schema, or a schema is of no use. Each error says where. -/
inductive SchemaError where
  | unsupported (place type : String)
  | nestedCollection (place : String)
  | ambiguousVariant (place value first second : String)
  | noVariants (place type : String)
  | notAnObject (place type : String)
  | duplicateField (place field : String)
  | reservedMapKey (place : String)
  | tooDeep (place : String) (limit : Nat)
  | unusableName (place name : String)
  | conflictingField (place field variant : String)
  | embeddedAlias (place field : String)
deriving DecidableEq

def SchemaError.message : SchemaError → String
  | .unsupported place type => place ++ ": type `" ++ type ++ "` has no flat-store representation"
  | .nestedCollection place => place ++ ": collection of collections needs object elements"
  | .ambiguousVariant place value first second =>
    place ++ ": discriminator value `" ++ value ++ "` selects both `" ++ first ++ "` and `" ++ second ++ "`"
  | .noVariants place type => place ++ ": polymorphic type `" ++ type ++ "` declares no variants"
  | .notAnObject place type => place ++ ": `" ++ type ++ "` must be an object to be embedded or used as a variant"
  | .duplicateField place field => place ++ ": field name `" ++ field ++ "` is declared twice"
  | .reservedMapKey place => place ++ ": map element object declares reserved field `key`"
  | .tooDeep place limit => place ++ ": type nesting exceeds " ++ toString limit ++ " levels (recursive type?)"
  | .unusableName place name =>
    place ++ ": `" ++ name ++ "` is not a usable address segment (empty, dotted, `#` or all digits)"
  | .conflictingField place field variant =>
    place ++ ": variant `" ++ variant ++ "` redeclares field `" ++ field ++ "` with a different shape"
  | .embeddedAlias place field => place ++ ": embedded field `" ++ field ++ "` has no address of its own to alias"

namespace Schema

/-! ### Places -/

def fieldPlace (place name : String) : String := place ++ "." ++ name
def elementPlace (place : String) : String := place ++ "[]"
def variantPlace (place name : String) : String := place ++ "<" ++ name ++ ">"
def basePlace (place : String) : String := variantPlace place "base"

/-- The place of a schema that lies in no other. -/
def rootPlace : Schema → String
  | .object shape => shape.name
  | .union choice => choice.name
  | _ => "$"

/-! ### Single rules -/

def checkName (place name : String) : Except SchemaError Unit :=
  if isFieldName name then .ok () else .error (.unusableName place name)

/-- Names and wire names are each distinct. Of two faults the one of the earlier field is reported. -/
def checkDistinct (place : String) (fields : List (Field Schema)) : Except SchemaError Unit := go [] [] fields
where
  go (names wireNames : List String) : List (Field Schema) → Except SchemaError Unit
    | [] => .ok ()
    | field :: rest =>
      if names.contains field.name then .error (.duplicateField place field.name)
      else if wireNames.contains field.wireName then .error (.duplicateField place field.wireName)
      else go (field.name :: names) (field.wireName :: wireNames) rest

/-- Tags and the names of the variants that they select. -/
abbrev Claims := List (String × String)

/-- Adds the tags of a variant. A tag selects one variant, and stands there once. -/
def Claims.add (place variant : String) : List String → Claims → Except SchemaError Claims
  | [], claims => .ok claims
  | value :: rest, claims =>
    match claims.lookup value with
    | some first => .error (.ambiguousVariant place value first variant)
    | none => Claims.add place variant rest ((value, variant) :: claims)

/-- Whether an element of a map has a field of its own where the map puts the key. -/
def hidesMapKey : Schema → Bool
  | .object shape => (shape.field? mapKeyField).isSome
  | .union choice =>
    (choice.base.field? mapKeyField).isSome || choice.variants.any fun v => (v.shape.field? mapKeyField).isSome
  | _ => false

/-- Whether the elements of a collection are collections whose elements are no blocks. -/
def nestsCollections (element : Schema) : Bool :=
  match element.element? with
  | some inner => !inner.isBlock
  | none => false

/-! ### All rules -/

mutual
/-- The first rule that a schema at a place breaks. -/
def check (place : String) : Schema → Except SchemaError Unit
  | .scalar _ => .ok ()
  | .list ⟨element, _, _, _⟩ | .set ⟨element, _, _, _⟩ =>
    if element.nestsCollections then .error (.nestedCollection (elementPlace place))
    else element.check (elementPlace place)
  | .map element =>
    if element.nestsCollections then .error (.nestedCollection (elementPlace place))
    else do
      element.check (elementPlace place)
      if element.hidesMapKey then .error (.reservedMapKey place)
  | .object ⟨_, fields⟩ => do
    checkFields place fields
    checkDistinct place fields
  | .union ⟨name, discriminator, variants, ⟨_, baseFields⟩⟩ => do
    if variants.isEmpty then .error (.noVariants place name)
    checkName place discriminator.name
    checkVariants place [] variants
    checkFields (basePlace place) baseFields
    checkDistinct (basePlace place) baseFields
def checkFields (place : String) : List (Field Schema) → Except SchemaError Unit
  | [] => .ok ()
  | ⟨name, _, schema, _, _, aliases, _⟩ :: rest => do
    checkName place name
    aliases.forM (checkName (fieldPlace place name))
    schema.check (fieldPlace place name)
    checkFields place rest
def checkVariants (place : String) (claims : Claims) : List (Variant Schema) → Except SchemaError Unit
  | [] => .ok ()
  | ⟨name, values, segment, ⟨_, fields⟩⟩ :: rest => do
    let claims ← claims.add place name values
    segment.forM (checkName (variantPlace place name))
    checkFields (variantPlace place name) fields
    checkDistinct (variantPlace place name) fields
    checkVariants place claims rest
end

/-- Refuses a schema that cannot address a flat store. -/
def validate (schema : Schema) : Except SchemaError Unit := schema.check schema.rootPlace

/-- Whether a schema can address a flat store. -/
def Valid (schema : Schema) : Prop := schema.validate = .ok ()

end Schema
end FlatStore
