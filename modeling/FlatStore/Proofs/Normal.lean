import FlatStore.Proofs.Trace

/-!
The normal form of a document: what comes back when it is stored and read again. An object has the members that its
shape models and that are not null, in the order of the shape; a union has the shape that its tag selects. Sets and
maps are in the order in which they are written, wrappers hold nothing but their element, and every number in the place
of a float is a float.
-/
namespace FlatStore

/-- An element in its wrapper. -/
def wrapIn (wrapper : Option String) (item : Json) : Json :=
  match wrapper with
  | some name => .object [(name, item)]
  | none => item

namespace Collection

variable {c : Collection Schema}

theorem wraps_wrapIn (item : Json) : c.Wraps (wrapIn c.wrapper item) := by
  cases wrapper : c.wrapper with
  | none => exact .inl wrapper
  | some name => exact .inr ⟨[(name, item)], rfl⟩

theorem unwrap_wrapIn (item : Json) : c.unwrap (wrapIn c.wrapper item) = item := by
  unfold unwrap
  cases c.wrapper with
  | none => rfl
  | some name => simp [wrapIn]

end Collection

namespace Schema

mutual
/-- The normal form of a document. -/
def normal : Schema → Json → Json
  | _, .null => .null
  | .scalar kind, value => ((Scalar.ofJsonAs? kind value).map Scalar.toJson).getD value
  | .list ⟨element, least, most, wrapper⟩, .array given =>
    .array (given.map fun item =>
      wrapIn wrapper (element.normal (Collection.unwrap ⟨element, least, most, wrapper⟩ item)))
  | .set ⟨element, least, most, wrapper⟩, .array given =>
    .array ((setOrder given).map fun item =>
      wrapIn wrapper (element.normal (Collection.unwrap ⟨element, least, most, wrapper⟩ item)))
  | .map element, .object members =>
    .object ((mapOrder members).map fun (key, value) => (key, element.normal value))
  | .object ⟨_, fields⟩, .object members => .object (normalFields members fields)
  | .union ⟨_, discriminator, variants, ⟨_, baseFields⟩⟩, .object members =>
    .object (((tagOf discriminator members).bind fun tag => normalVariant tag members variants).getD
      (normalFields members baseFields))
  | _, value => value
/-- The members of an object in the normal form of its shape. -/
def normalFields (members : List (String × Json)) : List (Field Schema) → List (String × Json)
  | [] => []
  | ⟨_, wireName, schema, _, _, _, _⟩ :: rest =>
    match members.lookup wireName with
    | none | some .null => normalFields members rest
    | some value => (wireName, schema.normal value) :: normalFields members rest
/-- The members of an object in the normal form of the variant that its tag selects. -/
def normalVariant (tag : String) (members : List (String × Json)) : List (Variant Schema) → Option (List (String × Json))
  | [] => none
  | ⟨_, values, _, ⟨_, fields⟩⟩ :: rest =>
    if values.contains tag then some (normalFields members fields) else normalVariant tag members rest
end

/-- A field with a value in normal form. -/
def normalMember (held : Field Schema × Json) : String × Json := (held.1.wireName, held.1.schema.normal held.2)

variable {schema : Schema}

theorem normal_scalar {kind : ScalarKind} {value : Json} {leaf : Scalar}
    (read : Scalar.ofJsonAs? kind value = some leaf) : (scalar kind).normal value = leaf.toJson := by
  cases value with
  | null => cases kind <;> simp [Scalar.ofJsonAs?] at read
  | _ =>
    change ((Scalar.ofJsonAs? kind _).map Scalar.toJson).getD _ = _
    rw [read]
    rfl

theorem normal_items {c : Collection Schema} (form : schema.collection? = some c) (given : List Json) :
    schema.normal (.array given) =
      .array ((schema.arranged given).map fun item => wrapIn c.wrapper (c.element.normal (c.unwrap item))) := by
  cases schema with
  | list items | set items =>
    cases form
    rfl
  | scalar | map | object | union => simp [collection?] at form

theorem normal_map (element : Schema) (members : List (String × Json)) :
    (map element).normal (.object members) =
      .object ((mapOrder members).map fun (key, value) => (key, element.normal value)) := rfl

theorem normalFields_eq (members : List (String × Json)) (fields : List (Field Schema)) :
    normalFields members fields = (heldFields members fields).map normalMember := by
  induction fields with
  | nil => simp [normalFields, heldFields]
  | cons f rest ih =>
    obtain ⟨name, wireName, schema, optional, computed, aliases, promotedFrom⟩ := f
    rw [normalFields, ih]
    cases found : members.lookup wireName with
    | none => simp [heldFields, Field.value?, found]
    | some value => cases value <;> simp [heldFields, Field.value?, found, Json.isNull, Option.filter, normalMember]

/-- The values of fields in normal form are members for these fields. -/
theorem map_normalMember_eq_filled (members : List (String × Json)) (fields : List (Field Schema)) :
    (heldFields members fields).map normalMember = filled (fun f => (f.value? members).map f.schema.normal) fields := by
  rw [heldFields, filled, List.map_filterMap]
  simp [Function.comp_def, normalMember]

theorem normalVariant_eq_find? (tag : String) (members : List (String × Json)) (variants : List (Variant Schema)) :
    normalVariant tag members variants =
      (variants.find? (·.values.contains tag)).map fun v => normalFields members v.shape.fields := by
  induction variants with
  | nil => simp [normalVariant]
  | cons v rest ih =>
    obtain ⟨name, values, segment, ⟨shapeName, fields⟩⟩ := v
    rw [normalVariant, List.find?_cons, ih]
    cases values.contains tag <;> simp

theorem normal_block (block : schema.isBlock = true) (members : List (String × Json)) :
    schema.normal (.object members) =
      .object ((heldFields members (schema.shapeFor members).fields).map normalMember) := by
  cases schema with
  | object shape => exact congrArg Json.object (normalFields_eq members shape.fields)
  | union choice =>
    obtain ⟨name, discriminator, variants, ⟨baseName, baseFields⟩⟩ := choice
    refine congrArg Json.object ?_
    cases tagged : tagOf discriminator members with
    | none => simp [shapeFor, TaggedUnion.shapeOf, tagged, normalFields_eq]
    | some tag =>
      simp only [shapeFor, TaggedUnion.shapeOf, TaggedUnion.variant?, tagged, Option.bind_some, normalVariant_eq_find?,
        normalFields_eq]
      cases variants.find? (·.values.contains tag) <;> rfl
  | scalar | list | set | map => simp [isBlock] at block

end Schema
end FlatStore
