import FlatStore.Record.Basic
import FlatStore.Record.Dictionary

/-!
Record types that are no objects: lists of strings, whole numbers that may be absent, and dictionaries of floats.
-/
namespace FlatStore

/-- An object whose members have names of their own choice, in the order of these. -/
def Decoder.sortedDictionary {α : Type} (decode : Decoder α) : Decoder (Dictionary α) :=
  (Decoder.dictionary decode).map .ofList

/-- An array of strings as a set. -/
def Decoder.stringSet : Decoder StringSet := (Decoder.list .string).map .ofList

def Json.strings (items : List String) : Json := .array (items.map .string)

def Dictionary.toJson {α : Type} (write : α → Json) (d : Dictionary α) : Json :=
  .object (d.entries.map fun (key, value) => (key, write value))

/-- The JSON form of a whole number. -/
def Json.int (n : Int64) : Json := .whole (.ofInt64 n)

def Json.number (x : Binary64) : Json := (Scalar.float x).toJson

/-- The JSON form of a value that may be absent. -/
def Json.orNull {α : Type} (write : α → Json) : Option α → Json
  | some value => write value
  | none => .null

instance : Record (List String) where
  descriptor := .list (.scalar .string)
  decoder := .list .string
  toJson := .strings

instance : Record (Option Int64) where
  descriptor := .optional (.scalar .int)
  decoder := .optional .int
  toJson := .orNull .int

instance : Record (Dictionary Binary64) where
  descriptor := .map (.scalar .float)
  decoder := .sortedDictionary .float
  toJson := Dictionary.toJson .number

end FlatStore
