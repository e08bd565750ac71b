import FlatStore.Json.Members
import FlatStore.Proofs.Schema
import FlatStore.Resolve
import Mathlib.Data.List.Nodup

/-!
Documents as their schemas read them. A schema picks the parts of a document that it stores: the elements of a
collection, the values of a map, and of an object the members that its shape models. Most of what is said of
documents is said of all their parts (`Schema.Part`).
-/
namespace FlatStore

/-- The value of a field among the members of a document. Null is no value. -/
def Field.value? {σ : Type} (f : Field σ) (members : List (String × Json)) : Option Json :=
  (members.lookup f.wireName).filter (!·.isNull)

/-- The fields that have a value among the members of a document, in their order. -/
def heldFields {σ : Type} (members : List (String × Json)) (fields : List (Field σ)) : List (Field σ × Json) :=
  fields.filterMap fun f => (f.value? members).map (f, ·)

/-- The shape that the members of a document select: that of the variant of their tag, or the base. -/
def TaggedUnion.shapeOf {σ : Type} (choice : TaggedUnion σ) (members : List (String × Json)) : Shape σ :=
  (((Schema.tagOf choice.discriminator members).bind choice.variant?).map (·.shape)).getD choice.base

/-- The element in an item, out of its wrapper. -/
def Collection.unwrap {σ : Type} (items : Collection σ) (item : Json) : Json :=
  match items.wrapper, item with
  | none, item => item
  | some name, .object members => (members.lookup name).getD .null
  | some _, _ => .null

/-- Whether an item is wrapped as the collection has it. -/
def Collection.Wraps {σ : Type} (items : Collection σ) (item : Json) : Prop :=
  items.wrapper = none ∨ ∃ members, item = .object members

/-- The name that a value is stored under: the segment of its variant, or the name of the field. -/
def Field.place (f : Field Schema) (value : Json) : String := (f.schema.segmentOf value).getD f.name

namespace Field

variable {f : Field Schema} {members : List (String × Json)} {value : Json}

theorem value?_eq_some_iff {σ : Type} {f : Field σ} :
    f.value? members = some value ↔ members.lookup f.wireName = some value ∧ value ≠ .null := by
  have nonnull : value.isNull = false ↔ value ≠ .null := by cases value <;> simp [Json.isNull]
  rw [value?, Option.filter_eq_some_iff, Bool.not_eq_true', nonnull]

theorem value?_eq_none_iff {σ : Type} {f : Field σ} :
    f.value? members = none ↔ members.lookup f.wireName = none ∨ members.lookup f.wireName = some .null := by
  cases found : members.lookup f.wireName with
  | none => simp [value?, found]
  | some value => cases value <;> simp [value?, found, Json.isNull, Option.filter]

end Field

theorem mem_heldFields_iff {members : List (String × Json)} {fields : List (Field Schema)} {f : Field Schema}
    {value : Json} : (f, value) ∈ heldFields members fields ↔ f ∈ fields ∧ f.value? members = some value := by
  simp only [heldFields, List.mem_filterMap, Option.map_eq_some_iff, Prod.mk.injEq]
  constructor
  · rintro ⟨_, mem, _, found, rfl, rfl⟩
    exact ⟨mem, found⟩
  · rintro ⟨mem, found⟩
    exact ⟨f, mem, value, found, rfl, rfl⟩

/-- Members for some of the fields of a block, each under its wire name. -/
def filled (g : Field Schema → Option Json) (fields : List (Field Schema)) : List (String × Json) :=
  fields.filterMap fun f => (g f).map (f.wireName, ·)

section
variable {g : Field Schema → Option Json} {fields : List (Field Schema)}

theorem filled_cons (f : Field Schema) (rest : List (Field Schema)) :
    filled g (f :: rest) = ((g f).map (f.wireName, ·)).toList ++ filled g rest := by
  cases found : g f <;> simp [filled, found]

theorem mem_filled_iff {member : String × Json} :
    member ∈ filled g fields ↔ ∃ f ∈ fields, ∃ v, g f = some v ∧ (f.wireName, v) = member := by
  simp [filled, Option.map_eq_some_iff]

theorem names_filled_sublist (g : Field Schema → Option Json) (fields : List (Field Schema)) :
    ((filled g fields).map Prod.fst).Sublist (fields.map Field.wireName) := by
  induction fields with
  | nil => exact .slnil
  | cons f rest ih =>
    rw [filled_cons, List.map_cons, List.map_append]
    cases g f with
    | none => exact ih.cons f.wireName
    | some value => exact ih.cons_cons f.wireName

/-- A field has the member that it was given, if no other field has its wire name. -/
theorem lookup_filled (nodup : (fields.map Field.wireName).Nodup) {f : Field Schema} (mem : f ∈ fields) :
    (filled g fields).lookup f.wireName = g f := by
  refine Option.ext fun value => ?_
  rw [lookup_eq_some_iff_mem ((names_filled_sublist g fields).nodup nodup), mem_filled_iff]
  constructor
  · rintro ⟨other, held, v, found, eq⟩
    obtain ⟨name, rfl⟩ := Prod.mk.inj eq
    obtain rfl := List.inj_on_of_nodup_map nodup held mem name
    exact found
  · exact fun found => ⟨f, mem, value, found, rfl⟩

end

namespace Schema

/-- Lists and sets. -/
def collection? : Schema → Option (Collection Schema)
  | .list items | .set items => some items
  | _ => none

/-- The items of a list or a set in the order in which they are written. -/
def arranged : Schema → List Json → List Json
  | .set _, given => setOrder given
  | _, given => given

/-- The shape in which a block stores members. -/
def shapeFor : Schema → List (String × Json) → Shape Schema
  | .object shape, _ => shape
  | .union choice, members => choice.shapeOf members
  | _, _ => ⟨"", []⟩

/-- Whether an element of a collection stores something: it is not null, and a block has a member with a value. -/
def Occupies (element : Schema) (value : Json) : Prop :=
  value ≠ .null ∧ ∀ members, element.isBlock = true → value = .object members →
    heldFields members (element.shapeFor members).fields ≠ []

/-- Induction over schemas by the four ways in which they store documents. -/
theorem formInduction {motive : Schema → Prop}
    (scalar : ∀ kind, motive (.scalar kind))
    (items : ∀ schema c, schema.collection? = some c → motive c.element → motive schema)
    (map : ∀ element, motive element → motive (.map element))
    (block : ∀ schema, schema.isBlock = true → (∀ shape ∈ schema.shapes, ∀ f ∈ shape.fields, motive f.schema) →
      motive schema)
    (schema : Schema) : motive schema := by
  induction schema with
  | scalar kind => exact scalar kind
  | list c ih => exact items _ c rfl ih
  | set c ih => exact items _ c rfl ih
  | map element ih => exact map element ih
  | object shape ih => exact block _ rfl (by simpa [shapes] using ih)
  | union choice ih => exact block _ rfl ih

/-- The parts of a document that a schema stores, each with the schema that it is stored by. -/
def parts : Schema → Json → List (Schema × Json)
  | .list items, .array given | .set items, .array given => given.map fun item => (items.element, items.unwrap item)
  | .map element, .object members => members.map fun member => (element, member.2)
  | .object shape, .object members => (heldFields members shape.fields).map fun held => (held.1.schema, held.2)
  | .union choice, .object members =>
    (heldFields members (choice.shapeOf members).fields).map fun held => (held.1.schema, held.2)
  | _, _ => []

/-- A part of a document at any depth, or the document itself. -/
inductive Part : Schema → Json → Schema → Json → Prop
  | self (schema : Schema) (value : Json) : Part schema value schema value
  | step {inner part schema : Schema} {x y value : Json} :
    (part, y) ∈ schema.parts value → Part inner x part y → Part inner x schema value

/-- Whether all elements of the lists and sets in a document store something. -/
def Dense (schema : Schema) (value : Json) : Prop :=
  ∀ inner x, Part inner x schema value → ∀ c, inner.collection? = some c → ∀ given, x = .array given →
    ∀ item ∈ given, c.element.Occupies (c.unwrap item)

/-- What holds of all parts of a document holds of the document and of all parts of its parts. -/
theorem part_iff {P : Schema → Json → Prop} {schema : Schema} {value : Json} :
    (∀ inner x, Part inner x schema value → P inner x) ↔
      P schema value ∧ ∀ part y, (part, y) ∈ schema.parts value → ∀ inner x, Part inner x part y → P inner x := by
  constructor
  · intro all
    exact ⟨all _ _ (.self _ _), fun part y mem inner x inside => all inner x (.step mem inside)⟩
  · rintro ⟨here, below⟩ inner x inside
    cases inside with
    | self => exact here
    | step mem inside => exact below _ _ mem _ _ inside

variable {schema : Schema} {members : List (String × Json)}

theorem tagOf_eq_some_iff {discriminator : Discriminator} {tag : String} :
    tagOf discriminator members = some tag ↔ members.lookup discriminator.wireName = some (.string tag) := by
  unfold tagOf
  split
  · next other found => simp [found]
  · next other => simpa using other tag

/-- The tag of a document is the value of a field with its wire name, if that is a string. -/
theorem tagOf_eq_of_value? {discriminator : Discriminator} {f : Field Schema} (tag : Option String)
    (wireName : f.wireName = discriminator.wireName) (value : f.value? members = tag.map .string) :
    tagOf discriminator members = tag := by
  cases tag with
  | some tag => exact tagOf_eq_some_iff.2 (wireName ▸ (Field.value?_eq_some_iff.1 value).1)
  | none =>
    refine Option.eq_none_iff_forall_ne_some.2 fun tag tagged => ?_
    rw [tagOf_eq_some_iff, ← wireName] at tagged
    rcases Field.value?_eq_none_iff.1 value with missing | null
    · rw [missing] at tagged
      cases tagged
    · rw [null] at tagged
      cases tagged

theorem shapeOf_mem_shapes (choice : TaggedUnion Schema) (members : List (String × Json)) :
    choice.shapeOf members ∈ choice.shapes := by
  unfold TaggedUnion.shapeOf
  cases found : (tagOf choice.discriminator members).bind choice.variant? with
  | none => simp [TaggedUnion.shapes]
  | some v =>
    obtain ⟨tag, -, selected⟩ := Option.bind_eq_some_iff.1 found
    have mem := List.mem_of_find?_eq_some selected
    exact List.mem_cons_of_mem _ (List.mem_map.2 ⟨v, mem, rfl⟩)

theorem shapeFor_mem_shapes (block : schema.isBlock = true) (members : List (String × Json)) :
    schema.shapeFor members ∈ schema.shapes := by
  cases schema with
  | object shape => simp [shapeFor, shapes]
  | union choice => exact shapeOf_mem_shapes choice members
  | scalar | list | set | map => simp [isBlock] at block

theorem isBlock_of_collection? {c : Collection Schema} (form : schema.collection? = some c) : schema.isBlock = false := by
  cases schema with
  | list | set => rfl
  | scalar | map | object | union => simp [collection?] at form

theorem isCollection_of_collection? {c : Collection Schema} (form : schema.collection? = some c) :
    schema.isCollection = true := by
  cases schema with
  | list | set => rfl
  | scalar | map | object | union => simp [collection?] at form

theorem element?_of_collection? {c : Collection Schema} (form : schema.collection? = some c) :
    schema.element? = some c.element := by
  cases schema with
  | list | set =>
    cases form
    rfl
  | scalar | map | object | union => simp [collection?] at form

theorem items_mem_children {c : Collection Schema} (form : schema.collection? = some c) : c.element ∈ schema.children :=
  element_mem_children (element?_of_collection? form)

theorem entry_mem_children (element : Schema) : element ∈ (map element).children :=
  element_mem_children rfl

/-- A part is stored by a schema that the whole is made of. -/
theorem mem_children_of_mem_parts {value y : Json} {part : Schema} (mem : (part, y) ∈ schema.parts value) :
    part ∈ schema.children := by
  have held : ∀ {members : List (String × Json)} {fields : List (Field Schema)},
      (part, y) ∈ (heldFields members fields).map (fun held => (held.1.schema, held.2)) →
        ∃ f ∈ fields, part = f.schema := by
    intro members fields mem
    obtain ⟨⟨f, v⟩, held, eq⟩ := List.mem_map.1 mem
    obtain ⟨rfl, -⟩ := Prod.mk.inj eq
    exact ⟨f, (mem_heldFields_iff.1 held).1, rfl⟩
  unfold parts at mem
  split at mem
  · obtain ⟨item, -, eq⟩ := List.mem_map.1 mem
    exact (Prod.mk.inj eq).1 ▸ element_mem_children rfl
  · obtain ⟨item, -, eq⟩ := List.mem_map.1 mem
    exact (Prod.mk.inj eq).1 ▸ element_mem_children rfl
  · obtain ⟨item, -, eq⟩ := List.mem_map.1 mem
    exact (Prod.mk.inj eq).1 ▸ element_mem_children rfl
  · obtain ⟨f, declared, rfl⟩ := held mem
    have own : ∀ shape : Shape Schema, shape ∈ (Schema.object shape).shapes := fun _ => List.mem_cons_self
    exact field_mem_children (own _) declared
  · next choice members =>
    obtain ⟨f, declared, rfl⟩ := held mem
    have own : choice.shapeOf members ∈ (Schema.union choice).shapes := shapeOf_mem_shapes choice members
    exact field_mem_children own declared
  · cases mem

theorem Part.inside {inner : Schema} {x value : Json} (part : Part inner x schema value) : Inside inner schema := by
  induction part with
  | self => exact .self _
  | step mem _ ih => exact .child (mem_children_of_mem_parts mem) ih

/-- The elements of a valid list or set are valid, and they are collections only of blocks. -/
theorem Valid.element {c : Collection Schema} (valid : schema.Valid) (form : schema.collection? = some c) :
    c.element.nestsCollections = false ∧ c.element.Valid := by
  cases schema with
  | list items =>
    cases form
    exact valid_list_iff.1 valid
  | set items =>
    cases form
    exact valid_set_iff.1 valid
  | scalar | map | object | union => simp [collection?] at form

theorem parts_items {c : Collection Schema} (form : schema.collection? = some c) (given : List Json) :
    schema.parts (.array given) = given.map fun item => (c.element, c.unwrap item) := by
  cases schema with
  | list items | set items =>
    cases form
    rfl
  | scalar | map | object | union => simp [collection?] at form

theorem parts_block (block : schema.isBlock = true) (members : List (String × Json)) :
    schema.parts (.object members) =
      (heldFields members (schema.shapeFor members).fields).map fun held => (held.1.schema, held.2) := by
  cases schema with
  | object | union => rfl
  | scalar | list | set | map => simp [isBlock] at block

theorem item_mem_parts {c : Collection Schema} (form : schema.collection? = some c) {given : List Json} {item : Json}
    (mem : item ∈ given) : (c.element, c.unwrap item) ∈ schema.parts (.array given) := by
  rw [parts_items form]
  exact List.mem_map.2 ⟨item, mem, rfl⟩

theorem entry_mem_parts (element : Schema) {member : String × Json} (mem : member ∈ members) :
    (element, member.2) ∈ (map element).parts (.object members) :=
  List.mem_map.2 ⟨member, mem, rfl⟩

theorem held_mem_parts (block : schema.isBlock = true) {held : Field Schema × Json}
    (mem : held ∈ heldFields members (schema.shapeFor members).fields) :
    (held.1.schema, held.2) ∈ schema.parts (.object members) := by
  rw [parts_block block]
  exact List.mem_map.2 ⟨held, mem, rfl⟩

/-- The variant of a document, and the segment that it is stored under. -/
theorem segmentOf_eq_some_iff {value : Json} {segment : String} :
    schema.segmentOf value = some segment ↔ ∃ choice members tag v, schema = .union choice ∧ value = .object members ∧
      tagOf choice.discriminator members = some tag ∧ choice.variant? tag = some v ∧ v.segment = some segment := by
  constructor
  · intro found
    unfold segmentOf at found
    split at found
    · next choice members =>
      obtain ⟨v, selected, stored⟩ := Option.bind_eq_some_iff.1 found
      obtain ⟨tag, tagged, selected⟩ := Option.bind_eq_some_iff.1 selected
      exact ⟨choice, members, tag, v, rfl, rfl, tagged, selected, stored⟩
    · cases found
  · rintro ⟨choice, members, tag, v, rfl, rfl, tagged, selected, stored⟩
    simp [segmentOf, tagged, selected, stored]

theorem mem_variantSegments_iff {choice : TaggedUnion Schema} {i : Nat} {segment : String} :
    (i, segment) ∈ (Schema.union choice).variantSegments ↔
      ∃ v, choice.variants[i]? = some v ∧ v.segment = some segment := by
  simp only [variantSegments, List.mem_filterMap, Prod.exists, List.mem_zipIdx_iff_getElem?, Option.map_eq_some_iff,
    Prod.mk.injEq]
  constructor
  · rintro ⟨v, _, held, _, stored, rfl, rfl⟩
    exact ⟨v, held, stored⟩
  · rintro ⟨v, held, stored⟩
    exact ⟨v, i, held, segment, stored, rfl, rfl⟩

theorem mapOrder_perm (members : List (String × Json)) : (mapOrder members).Perm members :=
  List.mergeSort_perm members _

theorem setOrder_perm (given : List Json) : (setOrder given).Perm given := by
  have sorted := List.mergeSort_perm (given.map fun item => (item.render, item)) fun a b => decide (a.1 ≤ b.1)
  simpa [setOrder, Function.comp_def] using sorted.map Prod.snd

theorem arranged_perm (schema : Schema) (given : List Json) : (schema.arranged given).Perm given := by
  cases schema with
  | set items => exact setOrder_perm given
  | scalar | list | map | object | union => exact .refl _

theorem exists_index {α : Type} {parts : List α} {part : α} (mem : part ∈ parts) : ∃ i, (part, i) ∈ parts.zipIdx := by
  obtain ⟨i, here⟩ := List.mem_iff_getElem?.1 mem
  exact ⟨i, List.mk_mem_zipIdx_iff_getElem?.2 here⟩

theorem mem_of_mem_arranged {given : List Json} {part : Json × Nat} (mem : part ∈ (schema.arranged given).zipIdx) :
    part.1 ∈ given :=
  (schema.arranged_perm given).mem_iff.1 (List.fst_mem_of_mem_zipIdx mem)

theorem mem_of_mem_mapOrder {part : (String × Json) × Nat} (mem : part ∈ (mapOrder members).zipIdx) :
    part.1 ∈ members :=
  (mapOrder_perm members).mem_iff.1 (List.fst_mem_of_mem_zipIdx mem)

end Schema
end FlatStore
