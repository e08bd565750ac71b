import FlatStore.Decode.Basic

/-!
Tagged values: objects in which one member, the tag, says what the others mean. The tag is read as soon as it is met;
the others are set aside and read once the whole object is known. An array is a tagged value too, if its first item is
the tag.
-/
namespace FlatStore

structure Tagged (α : Type) where
  title : String
  tag : String
  variants : List (String × Decoder α)

namespace Tagged

variable {α : Type}

/-- The alternative that a tag selects, by its name. A tag in a value that was set aside may also be its number. -/
def select (t : Tagged α) (form : Form) : Draft → Except Problem (Decoder α)
  | .string name =>
    match t.variants.lookup name with
    | some decode => .ok decode
    | none => .error (.content [] (.unknownName name (t.variants.map Prod.fst)))
  | .whole n =>
    if form = .buffered ∧ 0 ≤ n.val then
      match t.variants[n.val.toNat]? with
      | some (_, decode) => .ok decode
      | none =>
        .error (.content [] (.wrongValue (.whole n) ("variant index 0 <= i < " ++ toString t.variants.length)))
    else Decoder.refuse "variant identifier" (.whole n)
  | draft => Decoder.refuse "variant identifier" draft

def readMembers (t : Tagged α) (form : Form) (closing : Option Fault) :
    Option (Decoder α) → List (DraftName × Draft) → Except Problem (Option (Decoder α) × List (DraftName × Draft))
  | selected, [] => do
    Decoder.faults (Draft.close closing)
    return (selected, [])
  | selected, (name, value) :: rest => do
    let name ← Decoder.faults (Draft.readName name)
    if name = t.tag then
      if selected.isSome then throw (.content [] (.repeatedMember name))
      let decode ← (t.select form value).mapError (.inside form (.member name))
      t.readMembers form closing (some decode) rest
    else
      let _ ← Decoder.faults value.read
      let (selected, others) ← t.readMembers form closing selected rest
      return (selected, (.ok name, value) :: others)

def decoder (t : Tagged α) : Decoder α
  | form, .object members closing => do
    match ← t.readMembers form closing none members with
    | (some decode, others) => decode .buffered (.object others none)
    | (none, _) => throw (.content [] (.missingMember t.tag))
  | _, .array [] closing => do
    Decoder.faults (Draft.close closing)
    throw (.content [] (.missingMember t.tag))
  | form, .array (first :: rest) closing => do
    let decode ← (t.select form first).mapError (.inside form (.item 0))
    let _ ← Decoder.faults (Draft.array rest closing).read
    decode .buffered (.array rest none)
  | _, draft => Decoder.refuse t.title draft

end Tagged

namespace Decoder

/-- A name out of a list of names, given as a string or as an object whose only member has that name and no value. -/
def choice {α : Type} (options : List (String × α)) : Decoder α
  | _, .string name => pick name
  | _, .object [(name, value)] _ => do
    let name ← faults (Draft.readName name)
    let picked ← pick name
    match value with
    | .null | .object [] _ => return picked
    | value => refuse "unit" value
  | _, .object _ _ => .error (.content [] (.wrongValue .map "map with a single key"))
  | _, draft => refuse "string or map" draft
where
  pick (name : String) : Except Problem α :=
    match options.lookup name with
    | some picked => .ok picked
    | none => .error (.content [] (.unknownName name (options.map Prod.fst)))

end Decoder
end FlatStore
