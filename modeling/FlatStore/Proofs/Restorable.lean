import FlatStore.Proofs.Distinct
import FlatStore.Schema.Equality

/-!
Which documents come back from their stores. The schema has to tell its fields apart by all of their candidate names,
and to store the tag of a union where the reader looks for it (`Schema.Restorable`); the document has to store
something for each of its elements and entries (`Schema.Clean`). Both pass on to the parts of a document.
-/
namespace FlatStore

/-! ### Properties of parts -/

namespace Json

/-- Whether a property of values passes on to what is in them, and holds of what is not there. -/
structure Hereditary (P : Json → Prop) : Prop where
  null : P .null
  item : ∀ {items}, P (.array items) → ∀ {item}, item ∈ items → P item
  member : ∀ {members}, P (.object members) → ∀ {member : String × Json}, member ∈ members → P member.2

namespace Hereditary

variable {P : Json → Prop}

theorem lookup (passes : Hereditary P) {members : List (String × Json)} (holds : P (.object members)) {name : String}
    {value : Json} (found : members.lookup name = some value) : P value := by
  obtain ⟨before, behind, rfl, -⟩ := List.lookup_eq_some_iff.1 found
  have mem : (name, value) ∈ before ++ (name, value) :: behind := List.mem_append_right _ List.mem_cons_self
  exact passes.member holds mem

theorem unwrap (passes : Hereditary P) {c : Collection Schema} {item : Json} (holds : P item) : P (c.unwrap item) := by
  unfold Collection.unwrap
  split
  · exact holds
  · next name members _ =>
    cases found : members.lookup name with
    | none => exact passes.null
    | some value => exact passes.lookup holds found
  · exact passes.null

/-- What passes on to the values inside of a value passes on to the parts of a document. -/
theorem part (passes : Hereditary P) {schema part : Schema} {value y : Json} (holds : P value)
    (mem : (part, y) ∈ schema.parts value) : P y := by
  have held : ∀ {members : List (String × Json)} {fields : List (Field Schema)}, P (.object members) →
      (part, y) ∈ (heldFields members fields).map (fun held => (held.1.schema, held.2)) → P y := by
    intro members fields holds mem
    obtain ⟨⟨f, v⟩, held, eq⟩ := List.mem_map.1 mem
    obtain ⟨-, rfl⟩ := Prod.mk.inj eq
    exact passes.lookup holds (Field.value?_eq_some_iff.1 (mem_heldFields_iff.1 held).2).1
  unfold Schema.parts at mem
  split at mem
  · obtain ⟨item, held, eq⟩ := List.mem_map.1 mem
    exact (Prod.mk.inj eq).2 ▸ passes.unwrap (passes.item holds held)
  · obtain ⟨item, held, eq⟩ := List.mem_map.1 mem
    exact (Prod.mk.inj eq).2 ▸ passes.unwrap (passes.item holds held)
  · obtain ⟨member, held, eq⟩ := List.mem_map.1 mem
    exact (Prod.mk.inj eq).2 ▸ passes.member holds held
  · exact held holds mem
  · exact held holds mem
  · cases mem

end Hereditary

theorem distinct_array {items : List Json} (each : ∀ item ∈ items, item.Distinct) : (array items).Distinct := by
  change DistinctItems items
  induction items with
  | nil => trivial
  | cons item rest ih =>
    obtain ⟨here, later⟩ := List.forall_mem_cons.1 each
    exact ⟨here, ih later⟩

theorem distinct_object {members : List (String × Json)} (nodup : (members.map Prod.fst).Nodup)
    (each : ∀ member ∈ members, member.2.Distinct) : (object members).Distinct := by
  have inner : ∀ rest : List (String × Json), (∀ member ∈ rest, member.2.Distinct) → DistinctMembers rest := by
    intro rest each
    induction rest with
    | nil => trivial
    | cons member rest ih =>
      obtain ⟨here, later⟩ := List.forall_mem_cons.1 each
      exact ⟨here, ih later⟩
  exact ⟨nodup, inner members each⟩

theorem distinct_hereditary : Hereditary Distinct where
  null := trivial
  item := by
    have each : ∀ items, DistinctItems items → ∀ item ∈ items, item.Distinct := by
      intro items
      induction items with
      | nil => simp
      | cons head tail ih => exact fun both => List.forall_mem_cons.2 ⟨both.1, ih both.2⟩
    intro items distinct item mem
    exact each items distinct item mem
  member := by
    have each : ∀ members, DistinctMembers members → ∀ member ∈ members, member.2.Distinct := by
      intro members
      induction members with
      | nil => simp
      | cons head tail ih => exact fun both => List.forall_mem_cons.2 ⟨both.1, ih both.2⟩
    intro members distinct member mem
    exact each members distinct.2 member mem

end Json

namespace Schema

variable {schema part : Schema} {value y : Json}

/-! ### Restorable schemas -/

/-- Whether a schema lets its documents be found in a store again. -/
structure Restorable (schema : Schema) : Prop where
  /-- No two fields of a shape have a candidate name in common. -/
  separate : schema.Separate
  /-- No field of a block in a map is looked for where the map puts the key. -/
  keys : ∀ element, Inside (.map element) schema → ∀ shape ∈ element.shapes, ∀ f ∈ shape.fields,
    mapKeyField ∉ f.candidateNames
  /-- Every shape of a union has its tag as a field. -/
  tagged : ∀ choice, Inside (.union choice) schema → ∀ shape ∈ choice.shapes, ∃ f ∈ shape.fields,
    f.name = choice.discriminator.name ∧ f.wireName = choice.discriminator.wireName ∧ f.schema = .scalar .string ∧
      f.aliases = []

theorem Restorable.child (restorable : schema.Restorable) (mem : part ∈ schema.children) : part.Restorable where
  separate := fun inner inside => restorable.separate inner (.child mem inside)
  keys := fun element inside => restorable.keys element (.child mem inside)
  tagged := fun choice inside => restorable.tagged choice (.child mem inside)

/-! ### Checking schemas -/

mutual
/-- The schemas inside of a schema, itself among them. -/
def within : Schema → List Schema
  | .scalar kind => [.scalar kind]
  | .list ⟨element, least, most, wrapper⟩ => .list ⟨element, least, most, wrapper⟩ :: element.within
  | .set ⟨element, least, most, wrapper⟩ => .set ⟨element, least, most, wrapper⟩ :: element.within
  | .map element => .map element :: element.within
  | .object ⟨name, fields⟩ => .object ⟨name, fields⟩ :: withinFields fields
  | .union ⟨name, discriminator, variants, ⟨baseName, baseFields⟩⟩ =>
    .union ⟨name, discriminator, variants, ⟨baseName, baseFields⟩⟩ ::
      (withinFields baseFields ++ withinVariants variants)
def withinFields : List (Field Schema) → List Schema
  | [] => []
  | ⟨_, _, schema, _, _, _, _⟩ :: rest => schema.within ++ withinFields rest
def withinVariants : List (Variant Schema) → List Schema
  | [] => []
  | ⟨_, _, _, ⟨_, fields⟩⟩ :: rest => withinFields fields ++ withinVariants rest
end

theorem withinFields_eq (fields : List (Field Schema)) : withinFields fields = fields.flatMap (·.schema.within) := by
  induction fields with
  | nil => rfl
  | cons f rest ih =>
    obtain ⟨name, wireName, schema, optional, computed, aliases, promotedFrom⟩ := f
    rw [withinFields, ih, List.flatMap_cons]

theorem withinVariants_eq (variants : List (Variant Schema)) :
    withinVariants variants = variants.flatMap fun v => withinFields v.shape.fields := by
  induction variants with
  | nil => rfl
  | cons v rest ih =>
    obtain ⟨name, values, segment, ⟨shapeName, fields⟩⟩ := v
    rw [withinVariants, ih, List.flatMap_cons]

theorem within_eq (schema : Schema) : schema.within = schema :: schema.children.flatMap within := by
  cases schema with
  | scalar kind => simp [within, children, element?, shapes]
  | list items | set items => simp [within, children, element?, shapes]
  | map element => simp [within, children, element?, shapes]
  | object shape => simp [within, children, element?, shapes, withinFields_eq, List.flatMap_map]
  | union choice =>
    simp [within, children, element?, shapes, TaggedUnion.shapes, withinFields_eq, withinVariants_eq, List.flatMap_map,
      List.flatMap_assoc]

theorem mem_within_iff {inner : Schema} : inner ∈ schema.within ↔ Inside inner schema := by
  constructor
  · intro mem
    induction schema using childInduction with
    | step schema ih =>
      rw [within_eq] at mem
      rcases List.mem_cons.1 mem with rfl | mem
      · exact .self inner
      · obtain ⟨part, held, mem⟩ := List.mem_flatMap.1 mem
        exact .child held (ih part held mem)
  · intro inside
    induction inside with
    | self =>
      rw [within_eq]
      exact List.mem_cons_self
    | child mem _ ih =>
      rw [within_eq]
      exact List.mem_cons_of_mem _ (List.mem_flatMap.2 ⟨_, mem, ih⟩)

instance (shape : Shape Schema) : Decidable shape.Separate :=
  inferInstanceAs (Decidable (shape.fields.Pairwise fun f g => ∀ name ∈ f.candidateNames, name ∈ g.candidateNames → False))

/-- Whether a schema keeps to the rules of restorable schemas, apart from what is inside of it. -/
def restorableHere (schema : Schema) : Bool :=
  decide (∀ shape ∈ schema.shapes, shape.Separate) &&
    match schema with
    | .map element => decide (∀ shape ∈ element.shapes, ∀ f ∈ shape.fields, mapKeyField ∉ f.candidateNames)
    | .union choice => decide (∀ shape ∈ choice.shapes, ∃ f ∈ shape.fields,
      f.name = choice.discriminator.name ∧ f.wireName = choice.discriminator.wireName ∧ f.schema = .scalar .string ∧
        f.aliases = [])
    | _ => true

theorem restorable_iff : schema.Restorable ↔ schema.within.all restorableHere = true := by
  rw [List.all_eq_true]
  constructor
  · intro restorable inner mem
    have inside := mem_within_iff.1 mem
    have separate := restorable.separate inner inside
    cases inner with
    | map element =>
      rw [restorableHere, Bool.and_eq_true, decide_eq_true_eq, decide_eq_true_eq]
      exact ⟨separate, restorable.keys element inside⟩
    | union choice =>
      rw [restorableHere, Bool.and_eq_true, decide_eq_true_eq, decide_eq_true_eq]
      exact ⟨separate, restorable.tagged choice inside⟩
    | scalar | list | set | object => simpa [restorableHere] using separate
  · intro all
    have here : ∀ inner, Inside inner schema → inner.restorableHere = true :=
      fun inner inside => all inner (mem_within_iff.2 inside)
    refine ⟨fun inner inside => ?_, fun element inside => ?_, fun choice inside => ?_⟩
    · have kept := here inner inside
      unfold restorableHere at kept
      rw [Bool.and_eq_true, decide_eq_true_eq] at kept
      exact kept.1
    · have kept := here _ inside
      rw [restorableHere, Bool.and_eq_true, decide_eq_true_eq, decide_eq_true_eq] at kept
      exact kept.2
    · have kept := here _ inside
      rw [restorableHere, Bool.and_eq_true, decide_eq_true_eq, decide_eq_true_eq] at kept
      exact kept.2

instance (schema : Schema) : Decidable schema.Restorable := decidable_of_iff _ restorable_iff.symm

/-- Whether a document stores something for each of its elements and entries, and names no member twice. -/
structure Clean (schema : Schema) (value : Json) : Prop where
  /-- No element of a list or a set is null or a block without values. -/
  dense : schema.Dense value
  /-- No value of a map is null. -/
  entries : ∀ element members, Part (.map element) (.object members) schema value → ∀ member ∈ members,
    member.2 ≠ .null
  distinct : value.Distinct

theorem Clean.below (clean : schema.Clean value) (mem : (part, y) ∈ schema.parts value) : part.Clean y where
  dense := fun inner x below => clean.dense inner x (.step mem below)
  entries := fun element members below => clean.entries element members (.step mem below)
  distinct := Json.distinct_hereditary.part clean.distinct mem

theorem Clean.item {c : Collection Schema} {given : List Json} (clean : schema.Clean (.array given))
    (form : schema.collection? = some c) {item : Json} (mem : item ∈ given) :
    c.element.Occupies (c.unwrap item) ∧ c.element.Clean (c.unwrap item) :=
  ⟨clean.dense schema _ (.self _ _) c form given rfl item mem, clean.below (item_mem_parts form mem)⟩

theorem Clean.entry {element : Schema} {members : List (String × Json)} (clean : (map element).Clean (.object members))
    {member : String × Json} (mem : member ∈ members) : member.2 ≠ .null ∧ element.Clean member.2 :=
  ⟨clean.entries element members (.self _ _) member mem, clean.below (entry_mem_parts element mem)⟩

theorem Clean.held {members : List (String × Json)} (clean : schema.Clean (.object members))
    (block : schema.isBlock = true) {held : Field Schema × Json}
    (mem : held ∈ heldFields members (schema.shapeFor members).fields) : held.2 ≠ .null ∧ held.1.schema.Clean held.2 :=
  ⟨(Field.value?_eq_some_iff.1 (mem_heldFields_iff.1 mem).2).2, clean.below (held_mem_parts block mem)⟩

end Schema
end FlatStore
