import FlatStore.Decode.Record
import FlatStore.Decode.Tagged
import FlatStore.Schema.Basic

/-!
Reading schemas from their written form. Members of unknown names are passed over, and those that the written form
leaves out may also be null.
-/
namespace FlatStore.Schema

variable {σ : Type}

def scalarKind : Decoder ScalarKind := .choice (ScalarKind.all.map fun kind => (kind.name, kind))

def discriminator : Decoder Discriminator :=
  ((Members.required "name" .string).and (.required "wire_name" .string)).map (fun (name, wireName) => ⟨name, wireName⟩)
    |>.decoder "struct DiscriminatorSchema"

def field (schema : Decoder σ) : Decoder (Field σ) :=
  ((Members.required "name" .string).and <| (Members.required "wire_name" .string).and <|
    (Members.required "schema" schema).and <| (Members.withDefault "optional" .bool false).and <|
    (Members.withDefault "computed" .bool false).and <| (Members.withDefault "aliases" (.list .string) []).and <|
    Members.optional "promoted_from" .string).map
    (fun (name, wireName, schema, optional, computed, aliases, promotedFrom) =>
      ⟨name, wireName, schema, optional, computed, aliases, promotedFrom⟩)
    |>.decoder "struct FieldSchema"

def shape (schema : Decoder σ) : Decoder (Shape σ) :=
  ((Members.required "name" .string).and (.required "fields" (.list (field schema)))).map
    (fun (name, fields) => ⟨name, fields⟩)
    |>.decoder "struct ObjectSchema"

def collection (schema : Decoder σ) : Decoder (Collection σ) :=
  ((Members.required "elem" schema).and <| (Members.withDefault "min_items" .size 0).and <|
    (Members.optional "max_items" .size).and <| Members.optional "wrapper" .string).map
    (fun (element, minItems, maxItems, wrapper) => ⟨element, minItems, maxItems, wrapper⟩)
    |>.decoder "struct CollectionSchema"

def variant (schema : Decoder σ) : Decoder (Variant σ) :=
  ((Members.required "name" .string).and <| (Members.required "values" (.list .string)).and <|
    (Members.optional "segment" .string).and <| Members.required "schema" (shape schema)).map
    (fun (name, values, segment, shape) => ⟨name, values, segment, shape⟩)
    |>.decoder "struct VariantSchema"

def taggedUnion (schema : Decoder σ) : Decoder (TaggedUnion σ) :=
  ((Members.required "name" .string).and <| (Members.required "discriminator" discriminator).and <|
    (Members.required "variants" (.list (variant schema))).and <| Members.required "base" (shape schema)).map
    (fun (name, discriminator, variants, base) => ⟨name, discriminator, variants, base⟩)
    |>.decoder "struct PolySchema"

/-- The kinds of schemas, over a reader of the schemas inside. -/
def kinds (schema : Decoder Schema) : Tagged Schema where
  title := "internally tagged enum Schema"
  tag := "kind"
  variants := [
    ("scalar", (Members.required "scalar" scalarKind).map .scalar |>.decoder "struct variant Schema::Scalar"),
    ("list", (collection schema).map .list),
    ("set", (collection schema).map .set),
    ("map", (Members.required "elem" schema).map .map |>.decoder "struct MapSchema"),
    ("object", (shape schema).map .object),
    ("polymorphic", (taggedUnion schema).map .union)]

/-- Reads schemas that nest less deeply than a bound. -/
def decoderWithin : Nat → Decoder Schema
  | 0 => fun _ _ => .error (.fault .malformed)
  | bound + 1 => (kinds (decoderWithin bound)).decoder

/-- Reads a schema. No schema in a draft nests more deeply than the draft. -/
def decoder : Decoder Schema := fun form draft => decoderWithin (draft.height + 1) form draft

end FlatStore.Schema
