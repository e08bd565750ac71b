import FlatStore.Decode.Basic
import FlatStore.Json.Text
import FlatStore.Resolve
import FlatStore.Synthesis

/-!
Records: types whose values have a JSON form and, through the schema of the type, a flat form.
-/
namespace FlatStore

class Record (α : Type) where
  descriptor : Descriptor
  /-- The types that the descriptor names. -/
  catalog : Catalog := []
  decoder : Decoder α
  toJson : α → Json

inductive RecordError where
  | schema (error : SchemaError)
  | resolve (error : ResolveError)
  | flatten (error : FlattenError)
  | decode (problem : Problem)
deriving DecidableEq

/-- The message of an error. A problem of decoding has a place besides and no text of its own. -/
def RecordError.message : RecordError → String
  | .schema error => "schema: " ++ error.message
  | .resolve error => "resolve: " ++ error.message
  | .flatten error => "flatten: " ++ error.message
  | .decode (.content path cause) => Step.pathText path ++ ": " ++ cause.message
  | .decode (.fault .truncated) => "the text ends too early"
  | .decode (.fault .malformed) => "the text is malformed"

namespace Record

variable {α : Type} [Record α]

def schema (α : Type) [Record α] : Except SchemaError Schema := (descriptor α).synthesize (catalog α)

def toWire (record : α) : String := (toJson record).render

def ofWire (text : List UInt8) : Except RecordError α := (Decoder.ofText decoder text).mapError .decode

def toFlat (omitComputed : Bool) (record : α) : Except RecordError Store := do
  let schema ← (schema α).mapError .schema
  (schema.flatten (toJson record) omitComputed).mapError .flatten

/-- The record that a source holds. Where nothing is stored it is read from the zero value of its schema. -/
def ofFlat (source : Source) : Except RecordError α := do
  let schema ← (schema α).mapError .schema
  let found ← (schema.resolveRoot source).mapError .resolve
  (Decoder.ofJson decoder (schema.orZero found)).mapError .decode

end Record

/-! ### Descriptors of records -/

namespace FieldDescriptor

def of (name wireName : String) (type : Descriptor) : FieldDescriptor Descriptor :=
  ⟨name, wireName, type, false, false, [], none, none⟩

/-- A field whose type has its fields among those around it. -/
def embed (name : String) (type : Descriptor) : FieldDescriptor Descriptor :=
  { of name name type with embedded := true }

end FieldDescriptor

def Descriptor.record (name : String) (fields : List (FieldDescriptor Descriptor)) : Descriptor :=
  .object ⟨name, fields⟩

end FlatStore
