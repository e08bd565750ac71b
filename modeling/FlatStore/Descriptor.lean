import FlatStore.Scalar
import FlatStore.Schema.Basic

/-!
Descriptors: how a type says what it is made of. The types of fields, of variants and of bases may be given by the
names of types in a catalog, so that a type may refer to itself.
-/
namespace FlatStore

structure FieldDescriptor (δ : Type) where
  name : String
  wireName : String
  type : δ
  /-- Whether the fields of the type stand among those around it. -/
  embedded : Bool
  computed : Bool
  aliases : List String
  minItems : Option UInt64
  maxItems : Option UInt64

structure ObjectDescriptor (δ : Type) where
  name : String
  fields : List (FieldDescriptor δ)

structure VariantDescriptor (δ : Type) where
  name : String
  values : List String
  segment : Option String
  type : δ

structure UnionDescriptor (δ : Type) where
  name : String
  discriminator : Discriminator
  variants : List (VariantDescriptor δ)
  base : Option δ

inductive Descriptor where
  | scalar (kind : ScalarKind)
  | optional (inner : Descriptor)
  | list (element : Descriptor)
  | set (element : Descriptor)
  | map (element : Descriptor)
  | object (shape : ObjectDescriptor Descriptor)
  | union (choice : UnionDescriptor Descriptor)
  /-- A type that no flat store can hold. -/
  | unsupported (name : String)
  | named (name : String)

instance : Inhabited Descriptor := ⟨.unsupported ""⟩

abbrev Catalog := List (String × Descriptor)

namespace Descriptor

def label : Descriptor → String
  | .scalar kind => kind.name
  | .optional inner => "Option<" ++ inner.label ++ ">"
  | .list element => "list<" ++ element.label ++ ">"
  | .set element => "set<" ++ element.label ++ ">"
  | .map element => "map<" ++ element.label ++ ">"
  | .object ⟨name, _⟩ => name
  | .union ⟨name, _, _, _⟩ => name
  | .unsupported name => name
  | .named name => name

/-- Puts types in the place of names, except for the names inside objects and unions. -/
def expandWith (type : String → Descriptor) : Descriptor → Descriptor
  | .optional inner => .optional (inner.expandWith type)
  | .list element => .list (element.expandWith type)
  | .set element => .set (element.expandWith type)
  | .map element => .map (element.expandWith type)
  | .named name => type name
  | described => described

end Descriptor

namespace Catalog

/-- The type of a name, through at most `bound` names. -/
def typeWithin (catalog : Catalog) : (bound : Nat) → String → Descriptor
  | 0, name => .unsupported name
  | bound + 1, name =>
    match catalog.lookup name with
    | some described => described.expandWith (catalog.typeWithin bound)
    | none => .unsupported name

/-- A type without names, except for those inside objects and unions. Names that lead from one to another and not
back are no more than the catalog has. -/
def expand (catalog : Catalog) (described : Descriptor) : Descriptor :=
  described.expandWith (catalog.typeWithin catalog.length)

end Catalog
end FlatStore
