import FlatStore.Flatten
import FlatStore.Source

/-!
Resolving: from a source and a schema back to a document. What is not stored is no error: an optional field is left out
and a required one takes its zero value. What is stored in the wrong form is an error.

A field is looked for at several addresses, its candidates: under its name, under the segments of its variants and
under its former names. A tagged union is read through the first candidate whose tag selects a variant, and otherwise
in its base shape.
-/
namespace FlatStore

inductive ResolveError where
  | store (error : StoreError)
  | typeMismatch (path : String) (expected found : ScalarKind) (value : String)
  | missingMapKey (path : String)
  | tooManyItems (path : String) (count max : Nat)
  | address (fault : AddressFault)
deriving DecidableEq

def ResolveError.message : ResolveError → String
  | .store error => error.message
  | .typeMismatch path expected found value =>
    "`" ++ path ++ "`: expected " ++ expected.name ++ ", found " ++ found.name ++ " `" ++ value ++ "`"
  | .missingMapKey path => "`" ++ path ++ "`: map entry has no string key"
  | .tooManyItems path count max =>
    "`" ++ path ++ "`: " ++ toString count ++ " elements exceed the maximum of " ++ toString max
  | .address fault => fault.message

abbrev Resolved (α : Type) := Except ResolveError α

/-- An address at which a field may stand. Where it belongs to a variant, only that variant is read there. -/
structure Candidate where
  address : Address
  only : Option Nat
deriving DecidableEq

/-- A shape that a tagged union may have: the tags that select it, and its members at a block. -/
structure Reader where
  values : List String
  read : Address → Resolved (List (String × Json))

namespace Schema

variable (source : Source)

def stored (a : Address) : Resolved (Option Scalar) := (source.get a).mapError .store

def storedCount (a : Address) : Resolved (Option Nat) := (source.backedCount a).mapError .store

def unexpected (a : Address) (expected : ScalarKind) (found : Scalar) : ResolveError :=
  .typeMismatch a.text expected found.kind found.text

def resolveScalar (kind : ScalarKind) (a : Address) : Resolved (Option Json) := do
  match ← stored source a with
  | none => return none
  | some found => if found.kind = kind then return some found.toJson else throw (unexpected a kind found)

/-- The value of a part, or what stands in its place. -/
def orZero (schema : Schema) (found : Option Json) : Json := (found.or schema.zero?).getD .null

def resolveItems (element : Address → Resolved Json) (maxItems : Option UInt64) (wrapper : Option String)
    (a : Address) : Resolved (Option Json) := do
  match ← storedCount source a with
  | none => return none
  | some n =>
    if let some max := maxItems then
      if max.toNat < n then throw (.tooManyItems a.text n max.toNat)
    let items ← (List.range n).mapM fun i => do
      let item ← element (a.index i)
      return match wrapper with
        | some name => .object [(name, item)]
        | none => item
    return some (.array items)

def resolveEntries (element : Address → Resolved Json) (a : Address) : Resolved (Option Json) := do
  match ← storedCount source a with
  | none => return none
  | some n =>
    let members ← (List.range n).mapM fun i => do
      match ← stored source ((a.index i).field mapKeyName) with
      | some (.string key) => return (key, ← element (a.index i))
      | _ => throw (.missingMapKey (a.index i).text)
    return some (.object (membersOf members))

def present (a : Address) (sliced : Bool) : Resolved Bool := do
  if sliced || a.isRoot then return true
  match ← (source.count a).mapError .store with
  | none | some 0 => return false
  | some _ => return true

/-- The reader that a tag selects, among all or just that of one variant. -/
def selected (readers : List Reader) (only : Option Nat) (tag : String) : Option Reader :=
  match only with
  | none => readers.find? (·.values.contains tag)
  | some i => readers[i]?.filter (·.values.contains tag)

/-- The first candidate with a tag that selects a variant, and the members of that variant. -/
def resolveVariant (tagName : String) (readers : List Reader) (sliced : Bool) :
    List Candidate → Resolved (Option (List (String × Json)))
  | [] => return none
  | candidate :: rest => do
    let base := candidate.address.block sliced
    let tagAddress ← (base.append tagName).mapError .address
    match ← stored source tagAddress with
    | none => resolveVariant tagName readers sliced rest
    | some (.string tag) =>
      match selected readers candidate.only tag with
      | some reader => some <$> reader.read base
      | none => resolveVariant tagName readers sliced rest
    | some found => throw (unexpected tagAddress .string found)

def basePresent (tagName : String) (a : Address) (sliced : Bool) : Resolved Bool := do
  if ← present source a sliced then return true
  let tagAddress ← ((a.index 0).append tagName).mapError .address
  return (← stored source tagAddress).isSome

def resolveBase (tagName : String) (base : Address → Resolved (List (String × Json))) (sliced : Bool) :
    List Address → Resolved (Option (List (String × Json)))
  | [] => return none
  | a :: rest => do
    if ← basePresent source tagName a sliced then some <$> base (a.block sliced)
    else resolveBase tagName base sliced rest

/-- A tagged union at the first of its candidates that holds one. No base shape stands where a variant belongs. -/
def resolveUnion (tagName : String) (readers : List Reader) (base : Address → Resolved (List (String × Json)))
    (sliced : Bool) (candidates : List Candidate) : Resolved (Option Json) := do
  if let some members ← resolveVariant source tagName readers sliced candidates then
    return some (.object (membersOf members))
  let shared := (candidates.filter (·.only.isNone)).map Candidate.address
  return (← resolveBase source tagName base sliced shared).map fun members => .object (membersOf members)

def resolveFirst (read : Address → Resolved (Option Json)) : List Candidate → Resolved (Option Json)
  | [] => return none
  | candidate :: rest => do
    match ← read candidate.address with
    | some value => return some value
    | none => resolveFirst read rest

/-- The segments of the variants that have one, each with the number of its variant. -/
def variantSegments : Schema → List (Nat × String)
  | .union choice => (choice.variants.zipIdx).filterMap fun (v, i) => v.segment.map (i, ·)
  | _ => []

/-- The candidates of a field in a block, in the order in which they are tried. -/
def candidates (name : String) (aliases : List String) (schema : Schema) (base : Address) :
    Except AddressFault (List Candidate) := do
  let primary ← base.append name
  let owned ← schema.variantSegments.mapM fun (i, segment) => return ⟨← primary.replaceLast segment, some i⟩
  let former ← aliases.mapM fun name => return ⟨← primary.replaceLast name, none⟩
  return ⟨primary, none⟩ :: owned ++ former

mutual
/-- The value at an address, if there is one. The fields of an element, which is sliced out of its collection, stand
directly below it. -/
def resolve : Schema → Address → (sliced : Bool) → Resolved (Option Json)
  | .scalar kind, a, _ => resolveScalar source kind a
  | .list ⟨element, _, maxItems, wrapper⟩, a, _
  | .set ⟨element, _, maxItems, wrapper⟩, a, _ =>
    resolveItems source (fun b => element.orZero <$> resolve element b true) maxItems wrapper a
  | .map element, a, _ =>
    resolveEntries source (fun b => element.orZero <$>
      (if element.isBlock then resolve element b true else resolve element (b.field mapValueName) false)) a
  | .object ⟨_, fields⟩, a, sliced => do
    if ← present source a sliced then
      return some (.object (membersOf (← resolveFields (a.block sliced) fields)))
    else return none
  | .union ⟨_, discriminator, variants, ⟨_, baseFields⟩⟩, a, sliced =>
    resolveUnion source discriminator.name (readers variants) (fun b => resolveFields b baseFields) sliced [⟨a, none⟩]
def resolveFields (base : Address) : List (Field Schema) → Resolved (List (String × Json))
  | [] => return []
  | ⟨name, wireName, schema, optional, _, aliases, _⟩ :: rest => do
    let candidates ← (schema.candidates name aliases base).mapError .address
    let found ← match schema with
      | .union ⟨_, discriminator, variants, ⟨_, baseFields⟩⟩ =>
        resolveUnion source discriminator.name (readers variants) (fun b => resolveFields b baseFields) false candidates
      | schema => resolveFirst (fun a => resolve schema a false) candidates
    let rest ← resolveFields base rest
    return match if optional then found else found.or schema.zero? with
      | some value => (wireName, value) :: rest
      | none => rest
def readers : List (Variant Schema) → List Reader
  | [] => []
  | ⟨_, values, _, ⟨_, fields⟩⟩ :: rest => ⟨values, fun base => resolveFields base fields⟩ :: readers rest
end

theorem readers_eq_map (variants : List (Variant Schema)) :
    readers source variants =
      variants.map fun v => ⟨v.values, fun base => resolveFields source base v.shape.fields⟩ := by
  induction variants with
  | nil => simp [readers]
  | cons v rest ih =>
    obtain ⟨name, values, segment, ⟨shapeName, fields⟩⟩ := v
    rw [readers, ih, List.map_cons]

def resolveRoot (schema : Schema) : Resolved (Option Json) := schema.resolve source .root false

end Schema
end FlatStore
