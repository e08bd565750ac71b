import FlatStore.Proofs.Resolved
import FlatStore.Proofs.Visits

/-!
Counts do not inflate documents. A store may count as many parts as it likes, wherever it likes. Whatever is resolved
has no array and no map with more parts than the store has entries, at any depth, and a count beyond that is refused
where it is visited (`Schema.bounded_of_resolve`).
-/
namespace FlatStore

/-! ### Values inside of others -/

/-- A value lies inside of another at any depth, or is it. -/
inductive Json.Inside : Json → Json → Prop
  | self (value : Json) : Inside value value
  | item {inner item : Json} {items : List Json} : item ∈ items → Inside inner item → Inside inner (.array items)
  | member {inner : Json} {member : String × Json} {members : List (String × Json)} :
    member ∈ members → Inside inner member.2 → Inside inner (.object members)

namespace Json.Inside

variable {items given : List Json}

theorem of_array (inside : Inside (.array items) (.array given)) :
    items = given ∨ ∃ item ∈ given, Inside (.array items) item := by
  cases inside with
  | self => exact .inl rfl
  | item mem below => exact .inr ⟨_, mem, below⟩

theorem of_object {members : List (String × Json)} (inside : Inside (.array items) (.object members)) :
    ∃ member ∈ members, Inside (.array items) member.2 := by
  cases inside with
  | member mem below => exact ⟨_, mem, below⟩

theorem of_wrapIn {wrapper : Option String} {item : Json} (inside : Inside (.array items) (wrapIn wrapper item)) :
    Inside (.array items) item := by
  cases wrapper with
  | none => exact inside
  | some name =>
    obtain ⟨member, mem, below⟩ := inside.of_object
    obtain rfl := List.mem_singleton.1 mem
    exact below

/-- No array lies inside of a leaf. -/
theorem not_leaf (leaf : Scalar) : ¬ Inside (.array items) leaf.toJson := by
  intro inside
  cases leaf with
  | float x => cases x <;> cases inside
  | bool | int | string => cases inside

end Json.Inside

namespace Schema

/-! ### How a value is built -/

/-- Whether a value stands in place of what is missing: each list, set and map in it is empty. -/
inductive Blank : Schema → Json → Prop
  | scalar (kind : ScalarKind) : Blank (.scalar kind) kind.zero.toJson
  | items {schema c} : schema.collection? = some c → Blank schema (.array [])
  | entries (element : Schema) : Blank (.map element) (.object [])
  | object {shape : Shape Schema} :
    (∀ f ∈ shape.fields, ∀ value, f.fill none = some value → Blank f.schema value) →
    Blank (.object shape) (.object (filled (fun f => f.fill none) shape.fields))

/-- Whether a value is built by a schema from what a source holds at candidates, with at most so many parts in each
list, set and map in it. Objects of shapes and those of maps are told apart by how they are built. -/
inductive Built (source : Source) (most : Nat) : Schema → List Candidate → Bool → Json → Prop
  | blank {schema cs sliced value} : schema.readAt source cs sliced = .ok none → Blank schema value →
    Built source most schema cs sliced value
  | scalar {kind cs sliced c leaf} : Tried source (.scalar kind) cs sliced c →
    stored source c.address = .ok (some leaf) → Built source most (.scalar kind) cs sliced leaf.toJson
  | items {schema cs sliced c col} {given : List Json} : schema.collection? = some col →
    Tried source schema cs sliced c → given.length ≤ most →
    (∀ part ∈ given.zipIdx, Built source most col.element [⟨c.address.index part.2, none⟩] true part.1) →
    Built source most schema cs sliced (.array (given.map (wrapIn col.wrapper)))
  | entries {element cs sliced c} {members : List (String × Json)} (i : String × Json → Nat) :
    Tried source (.map element) cs sliced c → members.length ≤ most →
    (∀ member ∈ members,
      stored source ((c.address.index (i member)).member mapKeyField) = .ok (some (.string member.1))) →
    (∀ member ∈ members, Built source most element
      [⟨element.entryAddress (c.address.index (i member)), none⟩] element.isBlock member.2) →
    Built source most (.map element) cs sliced (.object members)
  | object {shape cs sliced c} : Tried source (.object shape) cs sliced c →
    (∀ f ∈ shape.fields, ∀ value, filledAt source (c.address.block sliced) f = some value →
      Built source most f.schema (candidatesOf f (c.address.block sliced)) false value) →
    Built source most (.object shape) cs sliced
      (.object (filled (filledAt source (c.address.block sliced)) shape.fields))
  | union {choice cs sliced base variant} : chosen source choice sliced cs = .ok (some (base, variant)) →
    (∀ f ∈ (choice.shapeAs variant).fields, ∀ value, filledAt source base f = some value →
      Built source most f.schema (candidatesOf f base) false value) →
    Built source most (.union choice) cs sliced
      (.object (filled (filledAt source base) (choice.shapeAs variant).fields))

variable {s : Store} {source : Source} {schema : Schema} {a base : Address} {cs : List Candidate} {sliced : Bool}
  {value : Json} {items : List Json} {most : Nat}

theorem Blank.eq_nil (blank : Blank schema value) (inside : Json.Inside (.array items) value) : items = [] := by
  induction blank with
  | scalar kind => exact absurd inside (Json.Inside.not_leaf _)
  | items form =>
    rcases inside.of_array with rfl | ⟨item, mem, -⟩
    · rfl
    · cases mem
  | entries element =>
    obtain ⟨member, mem, -⟩ := inside.of_object
    cases mem
  | object each ih =>
    obtain ⟨member, mem, below⟩ := inside.of_object
    obtain ⟨f, declared, v, found, rfl⟩ := mem_filled_iff.1 mem
    exact ih f declared v found below

/-- No array in what is built has too many elements. -/
theorem Built.length_le (built : Built source most schema cs sliced value) (inside : Json.Inside (.array items) value) :
    items.length ≤ most := by
  induction built with
  | blank read blank => simp [blank.eq_nil inside]
  | scalar tried there => exact absurd inside (Json.Inside.not_leaf _)
  | items form tried few each ih =>
    rcases inside.of_array with rfl | ⟨item, mem, below⟩
    · rwa [List.length_map]
    · obtain ⟨part, held, rfl⟩ := List.mem_map.1 mem
      obtain ⟨i, indexed⟩ := exists_index held
      exact ih (part, i) indexed below.of_wrapIn
  | entries i tried few keys each ih =>
    obtain ⟨member, mem, below⟩ := inside.of_object
    exact ih member mem below
  | object tried each ih =>
    obtain ⟨member, mem, below⟩ := inside.of_object
    obtain ⟨f, declared, v, found, rfl⟩ := mem_filled_iff.1 mem
    exact ih f declared v found below
  | union chose each ih =>
    obtain ⟨member, mem, below⟩ := inside.of_object
    obtain ⟨f, declared, v, found, rfl⟩ := mem_filled_iff.1 mem
    exact ih f declared v found below

/-! ### What is resolved is built -/

theorem blank_of_zero? (valid : schema.Valid) (zero : schema.zero? = some value) : Blank schema value := by
  induction schema using formInduction generalizing value with
  | scalar kind =>
    cases zero
    exact .scalar kind
  | items schema c form =>
    obtain rfl := Option.some.inj ((zero?_items form).symm.trans zero)
    exact .items form
  | map element =>
    cases zero
    exact .entries element
  | block schema block ih =>
    cases schema with
    | object shape =>
      have sound := valid_object_iff.1 valid
      obtain rfl := Option.some.inj ((zero?_object sound).symm.trans zero)
      refine .object fun f mem v found => ?_
      rw [Field.fill] at found
      split at found
      · cases found
      · exact ih shape List.mem_cons_self f mem (sound.field_valid f mem) found
    | union choice => cases zero
    | scalar | list | set | map => cases block

/-- A part that is read, or what stands in its place. -/
theorem built_part (valid : schema.Valid)
    (ih : ∀ v, schema.readAt source cs sliced = .ok (some v) → Built source most schema cs sliced v)
    {found : Option Json} (read : schema.readAt source cs sliced = .ok found)
    (filled : found.or schema.zero? = some value) : Built source most schema cs sliced value := by
  cases found with
  | some v =>
    cases filled
    exact ih _ read
  | none => exact .blank read (blank_of_zero? valid filled)

/-- Whether whatever is read from a store by a schema is built with no more parts in a collection than the store has
entries. -/
def AllBuilt (s : Store) (schema : Schema) : Prop :=
  ∀ cs sliced value, schema.Valid → schema.readAt s.source cs sliced = .ok (some value) →
    Built s.source s.size schema cs sliced value

/-- The fields of a block that is read. -/
theorem built_fields {shape : Shape Schema} (sound : SoundShape shape) (ih : ∀ f ∈ shape.fields, AllBuilt s f.schema)
    {f : Field Schema} (mem : f ∈ shape.fields) (found : filledAt s.source base f = some value) :
    Built s.source s.size f.schema (candidatesOf f base) false value := by
  unfold filledAt at found
  split at found
  · next found_at read =>
    rw [resolveField_eq (sound.candidate_usable mem), ← readAt_false] at read
    have field_valid := sound.field_valid f mem
    exact built_part field_valid (ih f mem _ _ · field_valid) read (Field.or_zero_of_fill found)
  · cases found

private theorem built_scalar (kind : ScalarKind) : AllBuilt s (.scalar kind) := by
  intro cs sliced value valid read
  obtain ⟨c, tried, here⟩ := (readAt_eq_iff_tried (by simp) (by simp)).1 read
  rw [resolve_scalar, resolveScalar_eq_ok_iff] at here
  obtain ⟨_, stands, there, -⟩ := here
  obtain ⟨leaf, rfl, rfl⟩ := Option.map_eq_some_iff.1 there.symm
  exact .scalar tried (congrArg Except.ok stands)

private theorem built_items {col : Collection Schema} (form : schema.collection? = some col)
    (ih : AllBuilt s col.element) : AllBuilt s schema := by
  intro cs sliced value valid read
  obtain ⟨c, tried, here⟩ := (readAt_eq_iff_tried (by rintro choice rfl; cases form) (by simp)).1 read
  rw [resolve_items form] at here
  rcases resolveItems_eq_ok_iff.1 here with ⟨-, none⟩ | ⟨given, counted, -, parts, eq⟩
  · cases none
  cases eq
  refine .items form tried (storedCount_eq_some counted).1 fun part mem => ?_
  have element_valid := (valid.element form).2
  obtain ⟨found, there, filled⟩ := element_filled element_valid (parts part mem) fun _ _ => rfl
  exact built_part element_valid (ih _ _ · element_valid) there filled

private theorem built_map {element : Schema} (ih : AllBuilt s element) : AllBuilt s (.map element) := by
  intro cs sliced value valid read
  obtain ⟨c, tried, here⟩ := (readAt_eq_iff_tried (by simp) (by simp)).1 read
  rw [resolve_map] at here
  rcases resolveEntries_eq_ok_iff.1 here with ⟨-, none⟩ | ⟨entries, counted, parts, eq⟩
  · cases none
  cases eq
  have each : ∀ member ∈ membersOf entries, ∃ i,
      stored s.source ((c.address.index i).member mapKeyField) = .ok (some (.string member.1)) ∧
        Built s.source s.size element [⟨element.entryAddress (c.address.index i), none⟩] element.isBlock member.2 := by
    intro member mem
    obtain ⟨i, indexed⟩ := exists_index (mem_of_mem_membersOf mem)
    obtain ⟨key, value_read⟩ := resolveEntry_eq_ok_iff.1 (parts (member, i) indexed)
    have element_valid := (valid_map_iff.1 valid).2.2
    obtain ⟨found, there, filled⟩ := element_filled element_valid value_read (by rintro choice rfl; rfl)
    exact ⟨i, congrArg Except.ok key, built_part element_valid (ih _ _ · element_valid) there filled⟩
  choose! i keys built using each
  -- entries with the same key count several times and become one member
  have few : (membersOf entries).length ≤ s.size := (length_membersOf_le entries).trans (storedCount_eq_some counted).1
  exact .entries i tried few keys built

private theorem built_object (shape : Shape Schema) (ih : ∀ f ∈ shape.fields, AllBuilt s f.schema) :
    AllBuilt s (.object shape) := by
  intro cs sliced value valid read
  obtain ⟨c, tried, here⟩ := (readAt_eq_iff_tried (by simp) (by simp)).1 read
  rw [resolve_object, bind_eq_ok_iff] at here
  obtain ⟨there, -, later⟩ := here
  cases there with
  | false => cases later
  | true =>
    obtain ⟨members, fields, result⟩ := bind_eq_ok_iff.1 later
    cases result
    have sound := valid_object_iff.1 valid
    rw [membersOf_read sound fields, (resolveFields_eq_ok_iff.1 fields).2]
    exact .object tried fun f mem v found => built_fields sound ih mem found

private theorem built_union (choice : TaggedUnion Schema)
    (ih : ∀ shape ∈ choice.shapes, ∀ f ∈ shape.fields, AllBuilt s f.schema) : AllBuilt s (.union choice) := by
  intro cs sliced value valid read
  rcases resolveChoice_eq_ok_cases read with ⟨none, -⟩ | ⟨base, variant, members, chose, fields, eq⟩
  · cases none
  cases eq
  obtain ⟨-, usable, tags, -, sound⟩ := valid_union_iff.1 valid
  have own := chosen_mem_shapes usable tags chose
  rw [membersOf_read (sound _ own) fields, (resolveFields_eq_ok_iff.1 fields).2]
  exact .union chose fun f mem v found => built_fields (sound _ own) (ih _ own) mem found

theorem allBuilt (s : Store) (schema : Schema) : AllBuilt s schema := by
  induction schema using formInduction with
  | scalar kind => exact built_scalar kind
  | items schema col form ih => exact built_items form ih
  | map element ih => exact built_map ih
  | block schema block ih =>
    cases schema with
    | object shape => exact built_object shape (ih shape List.mem_cons_self)
    | union choice => exact built_union choice ih
    | scalar | list | set | map => cases block

/-- Counts do not inflate what is resolved. Each array in it, and each object of a map, has no more parts than the store
has entries. A list, set or map that is visited and counts more makes the whole fail: for its count alone, whatever else
the source holds. Only such counts make it fail in this way. -/
theorem bounded_of_resolve (valid : schema.Valid) (s : Store) :
    (∀ value, schema.resolveRoot s.source = .ok (some value) →
      Built s.source s.size schema [⟨.root, none⟩] false value ∧
        ∀ items, Json.Inside (.array items) value → items.length ≤ s.size) ∧
    (∀ inner b own (c : Int64), Visits s.source schema [⟨.root, none⟩] false inner b own → inner.isCollection = true →
      s.get? b.countKey = some (.int c) → s.size < c.toInt →
        schema.resolveRoot s.source = .error (.store (.unbackedCount b.text c.toInt.toNat s.size)) ∧
          ∀ t : Source, t.count b = s.source.count b → t.size? = some s.size →
            inner.resolve t b own = .error (.store (.unbackedCount b.text c.toInt.toNat s.size))) ∧
    ∀ path n entries, schema.resolveRoot s.source = .error (.store (.unbackedCount path n entries)) →
      entries = s.size ∧ s.size < n ∧ ∃ inner b own, ∃ c : Int64,
        Visits s.source schema [⟨.root, none⟩] false inner b own ∧ inner.isCollection = true ∧ b.text = path ∧
          s.get? b.countKey = some (.int c) ∧ c.toInt = n := by
  have whole : schema.resolveRoot s.source = schema.readAt s.source [⟨.root, none⟩] false := (readAt_single _).symm
  rw [whole]
  refine ⟨?_, ?_, ?_⟩
  · intro value read
    have built := allBuilt s schema _ _ _ valid read
    exact ⟨built, fun items inside => built.length_le inside⟩
  · intro inner b own c visits collection there exceeding
    have count : s.source.count b = .ok (some c.toInt.toNat) := by
      have sign : 0 ≤ c.toInt := by omega
      change countOf b (s.get? b.countKey) = _
      rw [there, countOf, if_pos sign]
    have refused : ∀ t : Source, t.count b = s.source.count b → t.size? = some s.size →
        inner.resolve t b own = .error (.store (.unbackedCount b.text c.toInt.toNat s.size)) := by
      intro t same size
      exact resolve_of_storedCount collection (storedCount_of_exceeding (same.trans count) size (by omega))
    exact ⟨visits.fails valid (refused s.source rfl rfl), refused⟩
  · intro path n entries failed
    have unbacked : (ResolveError.store (.unbackedCount path n entries)).Unbacked := ⟨path, n, entries, rfl⟩
    obtain ⟨inner, b, own, visits, collection, counted⟩ := allVisit unbacked schema _ _ valid failed
    obtain ⟨rfl, rfl, exceeding, c, there, number⟩ := storedCount_eq_unbacked_iff.1 counted
    exact ⟨rfl, exceeding, inner, b, own, c, visits, collection, rfl, there, number⟩

/-- A box with labels, which were once called marks. -/
def box : Shape Schema := ⟨"Box", [⟨"labels", "labels", .map (.scalar .string), false, false, ["marks"], none⟩]⟩

/-- A shelf of boxes. -/
def shelf : Shape Schema := ⟨"Shelf", [.plain "boxes" (.list (.of (.object box)))]⟩

/-- A shelf of as many boxes as there are entries, of which just the last has a label. -/
def fullShelf : Store :=
  .ofList [("boxes.#", .int 3), ("boxes.2.marks.#", .int 1), ("boxes.2.marks.0.key", .string "a")]

/-- A shelf whose second box counts more marks than any store can hold. -/
def hostileShelf : Store := .ofList [("boxes.#", .int 2), ("boxes.1.marks.#", .int Int64.maxValue)]

/-- The marks of the second box are looked for once the first box is read and the second has no labels. -/
theorem visits_hostileShelf : Visits hostileShelf.source (.object shelf) [⟨.root, none⟩] false (.map (.scalar .string))
    (((Address.root.member "boxes").index 1).member "marks") false := by
  let boxes := Address.root.member "boxes"
  have shelf_fields : shelf.fields = [] ++ shelf.fields[0] :: [] := rfl
  have box_fields : box.fields = [] ++ box.fields[0] :: [] := rfl
  have counted : storedCount hostileShelf.source boxes = .ok (some 2) := by decide +kernel
  have first : (object box).resolve hostileShelf.source (boxes.index 0) true =
      .ok (some (.object [("labels", .object [])])) := by decide +kernel
  have unlabelled : (map (.scalar .string)).resolve hostileShelf.source ((boxes.index 1).member "labels") false =
      .ok none := by decide +kernel
  have marks : Tried hostileShelf.source (.map (.scalar .string)) (candidatesOf box.fields[0] (boxes.index 1)) false
      ⟨(boxes.index 1).member "marks", none⟩ :=
    ⟨by simp, [⟨(boxes.index 1).member "labels", none⟩], [], rfl, by simpa using unlabelled⟩
  have list : Tried hostileShelf.source (.list (.of (.object box))) [⟨boxes, none⟩] false ⟨boxes, none⟩ :=
    tried_single (by simp) _
  refine .field (tried_single (by simp) _) rfl shelf_fields (by simp) ?_
  refine .item rfl list counted (by simp [Collection.of]) Nat.one_lt_two (fun j earlier => ?_) ?_
  · obtain rfl := Nat.lt_one_iff.1 earlier
    exact ⟨_, first⟩
  · exact .field (tried_single (by simp) _) rfl box_fields (by simp) (.here marks)

theorem bounded_of_resolve_shelf : (object shelf).Valid ∧
    (∃ value, (object shelf).resolveRoot fullShelf.source = .ok (some value) ∧
      value = .object [("boxes", .array [.object [("labels", .object [])], .object [("labels", .object [])],
        .object [("labels", .object [("a", .string "")])]])] ∧
      Built fullShelf.source fullShelf.size (.object shelf) [⟨.root, none⟩] false value ∧ fullShelf.size = 3 ∧
      ∀ items, Json.Inside (.array items) value → items.length ≤ fullShelf.size) ∧
    hostileShelf.get? "boxes.1.marks.#" = some (.int Int64.maxValue) ∧
    (object shelf).resolveRoot hostileShelf.source =
      .error (.store (.unbackedCount "boxes.1.marks" 9223372036854775807 2)) := by
  have valid : (object shelf).Valid := by decide
  have read : (object shelf).resolveRoot fullShelf.source = .ok (some (.object
      [("boxes", .array [.object [("labels", .object [])], .object [("labels", .object [])],
        .object [("labels", .object [("a", .string "")])]])])) := by decide +kernel
  have there : hostileShelf.get? "boxes.1.marks.#" = some (.int Int64.maxValue) := by decide +kernel
  obtain ⟨built, few⟩ := (bounded_of_resolve valid fullShelf).1 _ read
  have exceeding : hostileShelf.size < Int64.maxValue.toInt := by decide +kernel
  obtain ⟨refused, -⟩ := (bounded_of_resolve valid hostileShelf).2.1 _ _ _ _ visits_hostileShelf rfl there exceeding
  exact ⟨valid, ⟨_, read, rfl, built, by decide +kernel, few⟩, there, refused⟩

end Schema
end FlatStore
