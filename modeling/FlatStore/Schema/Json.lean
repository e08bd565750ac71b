import FlatStore.Schema.Basic

/-!
The written form of schemas: objects that name their kind in the member `kind`. Members that say nothing (no limit, no
wrapper, no aliases) are left out.
-/
namespace FlatStore

def Whole.ofUInt64 (n : UInt64) : Whole :=
  ⟨n.toNat, by omega, by have := n.toNat_lt; omega⟩

def Discriminator.toJson (d : Discriminator) : Json :=
  .object [("name", .string d.name), ("wire_name", .string d.wireName)]

namespace Schema

/-- A member that is left out where it has no value. -/
def optionalMember {α : Type} (name : String) (write : α → Json) : Option α → List (String × Json)
  | some value => [(name, write value)]
  | none => []

def strings (items : List String) : Json := .array (items.map .string)

mutual
def toJson : Schema → Json
  | .scalar kind => .object [("kind", .string "scalar"), ("scalar", .string kind.name)]
  | .list items => .object (("kind", .string "list") :: collectionMembers items)
  | .set items => .object (("kind", .string "set") :: collectionMembers items)
  | .map element => .object [("kind", .string "map"), ("elem", element.toJson)]
  | .object ⟨name, fields⟩ =>
    .object [("kind", .string "object"), ("name", .string name), ("fields", .array (fieldItems fields))]
  | .union ⟨name, discriminator, variants, ⟨baseName, baseFields⟩⟩ =>
    .object [("kind", .string "polymorphic"), ("name", .string name),
      ("discriminator", discriminator.toJson), ("variants", .array (variantItems variants)),
      ("base", .object [("name", .string baseName), ("fields", .array (fieldItems baseFields))])]
def collectionMembers : Collection Schema → List (String × Json)
  | ⟨element, minItems, maxItems, wrapper⟩ =>
    [("elem", element.toJson), ("min_items", .whole (.ofUInt64 minItems))] ++
      optionalMember "max_items" (fun n => .whole (.ofUInt64 n)) maxItems ++ optionalMember "wrapper" .string wrapper
def fieldItems : List (Field Schema) → List Json
  | [] => []
  | ⟨name, wireName, schema, optional, computed, aliases, promotedFrom⟩ :: rest =>
    .object ([("name", .string name), ("wire_name", .string wireName), ("schema", schema.toJson),
      ("optional", .bool optional), ("computed", .bool computed)] ++
      (if aliases.isEmpty then [] else [("aliases", strings aliases)]) ++
      optionalMember "promoted_from" .string promotedFrom) :: fieldItems rest
def variantItems : List (Variant Schema) → List Json
  | [] => []
  | ⟨name, values, segment, ⟨shapeName, fields⟩⟩ :: rest =>
    .object ([("name", .string name), ("values", strings values)] ++ optionalMember "segment" .string segment ++
      [("schema", .object [("name", .string shapeName), ("fields", .array (fieldItems fields))])]) :: variantItems rest
end

end Schema
end FlatStore
