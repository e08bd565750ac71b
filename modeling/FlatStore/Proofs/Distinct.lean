import FlatStore.Proofs.Stored
import Mathlib.Data.List.Pairwise

/-!
Which writes share a slot. Of the fields of a valid shape the names are distinct, but a tagged union is stored under
the segment of its variant, which may be the name of another field. Two fields that stand in one place share the slot
of its count, and nothing else ever shares one: a document writes every slot once exactly if all its blocks keep their
fields apart (`Schema.nodup_slots_iff`).
-/
namespace FlatStore

/-- Whether a schema stores a single scalar. All others count what they store. -/
def Schema.isLeaf : Schema → Bool
  | .scalar _ => true
  | _ => false

/-- Whether of the fields of a block that have a value, no two that count what they store stand in one place. -/
def FieldsApart (members : List (String × Json)) (fields : List (Field Schema)) : Prop :=
  (heldFields members fields).Pairwise fun x y =>
    x.1.schema.isLeaf = true ∨ y.1.schema.isLeaf = true ∨ x.1.place x.2 ≠ y.1.place y.2

theorem heldFields_sublist {σ : Type} (members : List (String × Json)) (fields : List (Field σ)) :
    ((heldFields members fields).map Prod.fst).Sublist fields := by
  induction fields with
  | nil => exact .slnil
  | cons f rest ih =>
    unfold heldFields at ih ⊢
    cases found : f.value? members with
    | none =>
      rw [List.filterMap_cons_none (by rw [found]; rfl)]
      exact .cons f ih
    | some value =>
      rw [List.filterMap_cons_some (by rw [found]; rfl)]
      exact .cons_cons f ih

/-- The names under which a field may be stored: its own, and the segments of its variants. -/
def Field.places (f : Field Schema) : List String := f.name :: f.schema.variantSegments.map Prod.snd

def Shape.PlacesApart (shape : Shape Schema) : Prop :=
  shape.fields.Pairwise fun f g => f.places.Disjoint g.places

/-- The names under which a field is looked for: its own, the segments of its variants, and its former names. -/
def Field.candidateNames (f : Field Schema) : List String :=
  f.name :: f.schema.variantSegments.map Prod.snd ++ f.aliases

def Shape.Separate (shape : Shape Schema) : Prop :=
  shape.fields.Pairwise fun f g => f.candidateNames.Disjoint g.candidateNames

/-- What is looked for under separate names is stored under separate names. -/
theorem Shape.Separate.placesApart {shape : Shape Schema} (separate : shape.Separate) : shape.PlacesApart :=
  separate.imp fun disjoint _ first second =>
    disjoint (List.mem_append_left _ first) (List.mem_append_left _ second)

theorem Shape.Separate.eq_of_candidate {shape : Shape Schema} (separate : shape.Separate) {f g : Field Schema}
    (first : f ∈ shape.fields) (second : g ∈ shape.fields) {name : String} (candidate : name ∈ f.candidateNames)
    (also : name ∈ g.candidateNames) : f = g := by
  by_contra differ
  have symmetric : Std.Symm fun f g : Field Schema => f.candidateNames.Disjoint g.candidateNames :=
    ⟨fun _ _ disjoint _ first second => disjoint second first⟩
  exact separate.forall first second differ candidate also

namespace Schema

def Separate (schema : Schema) : Prop := ∀ inner, Inside inner schema → ∀ shape ∈ inner.shapes, shape.Separate

/-- Whether all the blocks of a document keep their fields apart. -/
def Apart (schema : Schema) (value : Json) : Prop :=
  ∀ inner x, Part inner x schema value →
    ∀ members, inner.isBlock = true → x = .object members → FieldsApart members (inner.shapeFor members).fields

variable {schema : Schema} {value : Json} {a : Address} {sliced : Bool}

/-! ### The slots of a document -/

theorem slots_under : ∀ slot ∈ (schema.writes value a sliced).slots, slot.Under a := by
  intro slot mem
  obtain ⟨scalar, mem⟩ := Writes.mem_slots_iff.1 mem
  exact writes_under _ mem

theorem form_of_not_leaf (inner : schema.isLeaf = false) :
    (∃ c, schema.collection? = some c) ∨ (∃ element, schema = .map element) ∨ schema.isBlock = true := by
  cases schema with
  | scalar => cases inner
  | list items | set items => exact .inl ⟨items, rfl⟩
  | map element => exact .inr (.inl ⟨element, rfl⟩)
  | object | union => exact .inr (.inr rfl)

theorem count_mem_slots (inner : schema.isLeaf = false) (valid : schema.Valid) (ok : schema.Accepts value a false)
    (nonnull : value ≠ .null) (below : a.isRoot = false) : .count a ∈ (schema.writes value a false).slots := by
  rcases form_of_not_leaf inner with ⟨c, form⟩ | ⟨element, rfl⟩ | block
  · obtain ⟨given, -, -, -, -, written⟩ := ok.items form nonnull
    rw [written]
    exact List.mem_cons_self
  · obtain ⟨members, -, -, written⟩ := ok.map nonnull
    rw [written]
    exact List.mem_cons_self
  · obtain ⟨members, -, -, -, written⟩ := ok.block block valid nonnull
    rw [written, Trace.openBlock, below]
    exact List.mem_cons_self

theorem leaf_not_mem_slots (inner : schema.isLeaf = false) (valid : schema.Valid) (ok : schema.Accepts value a sliced) :
    .leaf a ∉ (schema.writes value a sliced).slots := by
  intro mem
  obtain ⟨scalar, mem⟩ := Writes.mem_slots_iff.1 mem
  have here : (Slot.leaf a).address = a := rfl
  by_cases null : value = .null
  · simp [null] at mem
  · rcases form_of_not_leaf inner with ⟨c, form⟩ | ⟨element, rfl⟩ | block
    · obtain ⟨given, -, -, -, -, written⟩ := ok.items form null
      rw [written] at mem
      rcases List.mem_cons.1 mem with count | mem
      · cases count
      · obtain ⟨part, -, mem⟩ := List.mem_flatMap.1 mem
        exact Slot.not_under_child here (writes_under _ mem)
    · obtain ⟨members, -, -, written⟩ := ok.map null
      rw [written] at mem
      rcases List.mem_cons.1 mem with count | mem
      · cases count
      · obtain ⟨part, -, mem⟩ := List.mem_flatMap.1 mem
        exact Slot.not_under_child here (entryWrites_under _ mem)
    · obtain ⟨members, -, -, -, written⟩ := ok.block block valid null
      rw [written] at mem
      rcases List.mem_append.1 mem with opened | mem
      · have count := mem_openBlock_iff.1 opened
        cases count.2
      · obtain ⟨held, mem_held, mem⟩ := List.mem_flatMap.1 mem
        have sound := valid.soundShape (shapeFor_mem_shapes block members)
        have usable := sound.place_usable (mem_heldFields_iff.1 mem_held).1 held.2
        exact Slot.not_under_block_member usable here (heldWrites_under _ mem)

/-- A block in a map writes nothing where the map puts the key. -/
theorem key_not_mem_slots (block : schema.isBlock = true) (valid : schema.Valid) (open_key : schema.hidesMapKey = false)
    (ok : schema.Accepts value a true) : .leaf (a.member mapKeyField) ∉ (schema.writes value a true).slots := by
  intro mem
  obtain ⟨scalar, mem⟩ := Writes.mem_slots_iff.1 mem
  by_cases null : value = .null
  · simp [null] at mem
  · obtain ⟨members, -, -, accepted, written⟩ := ok.block block valid null
    rw [written] at mem
    obtain ⟨⟨f, v⟩, held, mem⟩ := List.mem_flatMap.1 mem
    obtain ⟨declared, found⟩ := mem_heldFields_iff.1 held
    have shape_mem := shapeFor_mem_shapes block members
    have usable := (valid.soundShape shape_mem).place_usable declared v
    -- only the field of that place could write there, and it is stored under the segment of a variant
    have place : f.place v = mapKeyField :=
      (heldWrites_under _ mem).member_eq usable (by decide) (Slot.under_self (.leaf (a.member mapKeyField)))
    have moved : f.schema.isLeaf = false := by
      have name := hidesMapKey_eq_false_iff.1 open_key _ shape_mem f declared
      cases schema_eq : f.schema with
      | scalar kind =>
        refine absurd place ?_
        simpa [Field.place, schema_eq, segmentOf] using name
      | _ => rfl
    have fieldValid := (valid.soundShape shape_mem).field_valid f declared
    have here := accepted (f, v) held
    rw [heldWrites, place] at mem
    rw [place] at here
    exact leaf_not_mem_slots moved fieldValid here (Writes.mem_slots_iff.2 ⟨scalar, mem⟩)

/-! ### Documents and their parts -/

theorem apart_of_no_parts (none : schema.parts value = []) (other : ∀ members, value ≠ .object members) :
    schema.Apart value := by
  intro inner x inside
  cases inside with
  | self => exact fun members _ eq => absurd eq (other members)
  | step mem => simp [none] at mem

theorem apart_null : schema.Apart .null :=
  apart_of_no_parts (by cases schema <;> rfl) (by simp)

theorem apart_scalar {kind : ScalarKind} : (scalar kind).Apart value := by
  intro inner x inside
  cases inside with
  | self => exact fun _ block => nomatch block
  | step mem => cases mem

theorem apart_items_iff {c : Collection Schema} (form : schema.collection? = some c) (given : List Json) :
    schema.Apart (.array given) ↔ ∀ item ∈ given, c.element.Apart (c.unwrap item) := by
  rw [Apart, part_iff, parts_items form]
  simp only [reduceCtorEq, false_imp_iff, implies_true, true_and, List.mem_map, Prod.mk.injEq]
  constructor
  · exact fun below item mem => below _ _ ⟨item, mem, rfl, rfl⟩
  · rintro below _ _ ⟨item, mem, rfl, rfl⟩
    exact below item mem

theorem apart_map_iff {element : Schema} (members : List (String × Json)) :
    (map element).Apart (.object members) ↔ ∀ member ∈ members, element.Apart member.2 := by
  rw [Apart, part_iff]
  simp only [parts, isBlock, Bool.false_eq_true, false_imp_iff, implies_true, true_and, List.mem_map, Prod.mk.injEq]
  constructor
  · exact fun below member mem => below _ _ ⟨member, mem, rfl, rfl⟩
  · rintro below _ _ ⟨member, mem, rfl, rfl⟩
    exact below member mem

theorem apart_block_iff (block : schema.isBlock = true) (members : List (String × Json)) :
    schema.Apart (.object members) ↔ FieldsApart members (schema.shapeFor members).fields ∧
      ∀ held ∈ heldFields members (schema.shapeFor members).fields, held.1.schema.Apart held.2 := by
  rw [Apart, part_iff, parts_block block]
  simp only [block, Json.object.injEq, forall_eq', true_imp_iff, List.mem_map, Prod.mk.injEq]
  refine and_congr_right fun _ => ?_
  constructor
  · exact fun below held mem => below _ _ ⟨held, mem, rfl, rfl⟩
  · rintro below _ _ ⟨held, mem, rfl, rfl⟩
    exact below held mem

/-! ### Slots written once -/

theorem nodup_indices {α : Type} (parts : List α) : (parts.zipIdx.map Prod.snd).Nodup := by
  rw [List.zipIdx_map_snd]
  exact List.nodup_range'

private theorem nodup_slots_elements {α : Type} {write : α × Nat → Writes} {parts : List α}
    (below : ∀ part, ∀ entry ∈ write part, entry.1.Under (a.index part.2)) {count : Scalar} :
    (Writes.slots ((.count a, count) :: parts.zipIdx.flatMap write)).Nodup ↔
      ∀ part ∈ parts.zipIdx, (write part).slots.Nodup := by
  have fresh : Slot.count a ∉ Writes.slots (parts.zipIdx.flatMap write) := by
    intro mem
    obtain ⟨scalar, mem⟩ := Writes.mem_slots_iff.1 mem
    obtain ⟨part, -, mem⟩ := List.mem_flatMap.1 mem
    exact Slot.not_under_child (a := a) rfl (below part _ mem)
  have indices : parts.zipIdx.Pairwise fun x y => x.2 ≠ y.2 := by
    have nodup := nodup_indices parts
    rwa [List.nodup_iff_pairwise_ne, List.pairwise_map] at nodup
  have disjoint : parts.zipIdx.Pairwise (Function.onFun List.Disjoint fun part => (write part).slots) := by
    refine indices.imp fun {x y} differ slot first second => differ ?_
    obtain ⟨v, first⟩ := Writes.mem_slots_iff.1 first
    obtain ⟨w, second⟩ := Writes.mem_slots_iff.1 second
    have under_x : slot.Under (a.index x.2) := below x _ first
    have under_y : slot.Under (a.index y.2) := below y _ second
    exact Segment.index.inj (under_x.child_eq under_y)
  rw [Writes.slots, List.map_cons, List.map_flatMap, List.nodup_cons, List.nodup_flatMap]
  constructor
  · exact fun nodup => nodup.2.1
  · intro each
    rw [Writes.slots, List.map_flatMap] at fresh
    exact ⟨fresh, each, disjoint⟩

private theorem heldWrites_of_leaf {held : Field Schema × Json} {base : Address}
    (leaf : held.1.schema.isLeaf = true)
    (ok : held.1.schema.Accepts held.2 (base.member (held.1.place held.2)) false) (nonnull : held.2 ≠ .null)
    {slot : Slot} (mem : slot ∈ (heldWrites base held).slots) :
    held.1.place held.2 = held.1.name ∧ slot = .leaf (base.member (held.1.place held.2)) := by
  rw [heldWrites] at mem
  cases kind_eq : held.1.schema with
  | scalar kind =>
    rw [kind_eq] at ok mem
    obtain ⟨scalar, -, written⟩ := ok.scalar nonnull
    rw [written] at mem
    exact ⟨by simp [Field.place, kind_eq, segmentOf], List.mem_singleton.1 mem⟩
  | _ => simp [kind_eq, isLeaf] at leaf

/-- Two fields of a valid shape share a slot exactly if both count what they store and stand in one place. -/
private theorem disjoint_heldWrites_iff {shape : Shape Schema} (sound : SoundShape shape)
    {members : List (String × Json)} {base : Address} {x y : Field Schema × Json} (differ : x.1.name ≠ y.1.name)
    (first : x ∈ heldFields members shape.fields) (second : y ∈ heldFields members shape.fields)
    (accepted : ∀ held ∈ heldFields members shape.fields,
      held.1.schema.Accepts held.2 (base.member (held.1.place held.2)) false) :
    (heldWrites base x).slots.Disjoint (heldWrites base y).slots ↔
      x.1.schema.isLeaf = true ∨ y.1.schema.isLeaf = true ∨ x.1.place x.2 ≠ y.1.place y.2 := by
  have usable : ∀ held ∈ heldFields members shape.fields, isFieldName (held.1.place held.2) = true :=
    fun held mem => sound.place_usable (mem_heldFields_iff.1 mem).1 held.2
  have valid : ∀ held ∈ heldFields members shape.fields, held.1.schema.Valid :=
    fun held mem => sound.field_valid _ (mem_heldFields_iff.1 mem).1
  constructor
  · intro disjoint
    by_contra shared
    simp only [not_or, Bool.not_eq_true, not_not] at shared
    obtain ⟨inner_x, inner_y, same⟩ := shared
    have count : ∀ held ∈ heldFields members shape.fields, held.1.schema.isLeaf = false →
        .count (base.member (held.1.place held.2)) ∈ (heldWrites base held).slots := by
      intro held mem inner
      have nonnull := (Field.value?_eq_some_iff.1 (mem_heldFields_iff.1 mem).2).2
      exact count_mem_slots inner (valid held mem) (accepted held mem) nonnull (Address.isRoot_member (usable held mem))
    exact disjoint (count x first inner_x) (same ▸ count y second inner_y)
  · intro apart slot in_x in_y
    obtain ⟨v, mem_x⟩ := Writes.mem_slots_iff.1 in_x
    obtain ⟨w, mem_y⟩ := Writes.mem_slots_iff.1 in_y
    have under_x : slot.Under (base.member (x.1.place x.2)) := heldWrites_under _ mem_x
    have under_y : slot.Under (base.member (y.1.place y.2)) := heldWrites_under _ mem_y
    have same := under_x.member_eq (usable x first) (usable y second) under_y
    have nonnull : ∀ held ∈ heldFields members shape.fields, held.2 ≠ .null :=
      fun held mem => (Field.value?_eq_some_iff.1 (mem_heldFields_iff.1 mem).2).2
    by_cases leaf_x : x.1.schema.isLeaf = true
    · obtain ⟨place_x, slot_eq⟩ := heldWrites_of_leaf leaf_x (accepted x first) (nonnull x first) in_x
      by_cases leaf_y : y.1.schema.isLeaf = true
      · obtain ⟨place_y, -⟩ := heldWrites_of_leaf leaf_y (accepted y second) (nonnull y second) in_y
        exact differ (by rw [← place_x, ← place_y, same])
      · rw [Bool.not_eq_true] at leaf_y
        rw [slot_eq, same] at in_y
        exact leaf_not_mem_slots leaf_y (valid y second) (accepted y second) in_y
    · by_cases leaf_y : y.1.schema.isLeaf = true
      · obtain ⟨-, slot_eq⟩ := heldWrites_of_leaf leaf_y (accepted y second) (nonnull y second) in_y
        rw [Bool.not_eq_true] at leaf_x
        rw [slot_eq, ← same] at in_x
        exact leaf_not_mem_slots leaf_x (valid x first) (accepted x first) in_x
      · simp only [leaf_x, leaf_y, Bool.false_eq_true, false_or] at apart
        exact apart same

private theorem nodup_slots_fields {shape : Shape Schema} (sound : SoundShape shape)
    {members : List (String × Json)} {base : Address}
    (accepted : ∀ held ∈ heldFields members shape.fields,
      held.1.schema.Accepts held.2 (base.member (held.1.place held.2)) false) :
    (Writes.slots ((heldFields members shape.fields).flatMap (heldWrites base))).Nodup ↔
      FieldsApart members shape.fields ∧
        ∀ held ∈ heldFields members shape.fields, (heldWrites base held).slots.Nodup := by
  have names : (heldFields members shape.fields).Pairwise fun x y => x.1.name ≠ y.1.name := by
    have nodup := sound.names_nodup.sublist ((heldFields_sublist members _).map Field.name)
    rwa [List.map_map, List.nodup_iff_pairwise_ne, List.pairwise_map] at nodup
  have apart : (heldFields members shape.fields).Pairwise
      (Function.onFun List.Disjoint fun held => (heldWrites base held).slots) ↔ FieldsApart members shape.fields := by
    constructor
    · intro disjoint
      refine (names.and disjoint).imp_of_mem fun {x y} first second both => ?_
      exact (disjoint_heldWrites_iff sound both.1 first second accepted).1 both.2
    · intro apart
      refine (names.and apart).imp_of_mem fun {x y} first second both => ?_
      exact (disjoint_heldWrites_iff sound both.1 first second accepted).2 both.2
  rw [Writes.slots, List.map_flatMap, List.nodup_flatMap, ← apart]
  exact and_comm

private theorem forall_parts_iff {α : Type} {parts : List α} (P : α → Prop) {Q : α × Nat → Prop}
    (same : ∀ part ∈ parts.zipIdx, Q part ↔ P part.1) : (∀ part ∈ parts.zipIdx, Q part) ↔ ∀ part ∈ parts, P part := by
  calc (∀ part ∈ parts.zipIdx, Q part)
    _ ↔ ∀ part ∈ parts.zipIdx, P part.1 := forall₂_congr same
    _ ↔ ∀ part ∈ parts.zipIdx.map Prod.fst, P part := List.forall_mem_map.symm
    _ ↔ ∀ part ∈ parts, P part := by rw [List.zipIdx_map_fst]

private theorem nodup_slots_null :
    (schema.writes .null a sliced).slots.Nodup ↔ schema.Apart .null := by
  simpa [Writes.slots] using apart_null

/-- A block leaves the key of an entry alone, and other values stand beside it. -/
private theorem key_not_mem_value {element : Schema} {entry : Address} (valid : element.Valid)
    (open_key : element.hidesMapKey = false)
    (ok : element.Accepts value (element.entryAddress entry) element.isBlock) :
    Slot.leaf (entry.member mapKeyField) ∉ (element.writes value (element.entryAddress entry) element.isBlock).slots := by
  cases block : element.isBlock with
  | true =>
    simp only [entryAddress, block, if_true] at ok ⊢
    exact key_not_mem_slots block valid open_key ok
  | false =>
    intro inside
    simp only [entryAddress, block, Bool.false_eq_true, if_false] at inside
    have key := Slot.under_self (.leaf (entry.member mapKeyField))
    have differ : mapKeyField ≠ mapValueField := by decide
    exact differ (key.member_eq (by decide) (by decide) (slots_under _ inside))

/-- The count that opens a block stands beside the fields of the block. -/
private theorem nodup_slots_opened {shape : Shape Schema} (sound : SoundShape shape) {members : List (String × Json)} :
    (Writes.slots ((Trace.openBlock a sliced).writes ++
      (heldFields members shape.fields).flatMap (heldWrites (a.block sliced)))).Nodup ↔
        (Writes.slots ((heldFields members shape.fields).flatMap (heldWrites (a.block sliced)))).Nodup := by
  have opened : (Writes.slots (Trace.openBlock a sliced).writes).Nodup := by
    unfold Trace.openBlock
    split
    · exact List.nodup_nil
    · exact List.nodup_singleton _
  have fresh : (Writes.slots (Trace.openBlock a sliced).writes).Disjoint
      (Writes.slots ((heldFields members shape.fields).flatMap (heldWrites (a.block sliced)))) := by
    intro slot first second
    obtain ⟨v, first⟩ := Writes.mem_slots_iff.1 first
    obtain ⟨w, second⟩ := Writes.mem_slots_iff.1 second
    obtain ⟨held, mem, second⟩ := List.mem_flatMap.1 second
    obtain ⟨-, eq⟩ := mem_openBlock_iff.1 first
    have usable := sound.place_usable (mem_heldFields_iff.1 mem).1 held.2
    exact Slot.not_under_block_member usable (congrArg (·.1.address) eq) (heldWrites_under _ second)
  rw [Writes.slots_append, List.nodup_append', and_iff_right opened, and_iff_left fresh]

/-- An accepted document of a valid schema writes no slot twice exactly if its blocks keep their fields apart. -/
theorem nodup_slots_iff (valid : schema.Valid) (ok : schema.Accepts value a sliced) :
    (schema.writes value a sliced).slots.Nodup ↔ schema.Apart value := by
  by_cases null : value = .null
  · exact null ▸ nodup_slots_null
  induction schema using formInduction generalizing value a sliced with
  | scalar kind =>
    obtain ⟨leaf, -, written⟩ := ok.scalar null
    rw [written]
    simpa [Writes.slots] using apart_scalar
  | items schema c form ih =>
    obtain ⟨given, rfl, -, -, accepted, written⟩ := ok.items form null
    have each : ∀ part ∈ (schema.arranged given).zipIdx,
        (c.element.writes (c.unwrap part.1) (a.index part.2) true).slots.Nodup ↔
          c.element.Apart (c.unwrap part.1) := by
      intro part mem
      by_cases empty : c.unwrap part.1 = .null
      · exact empty ▸ nodup_slots_null
      · exact ih (valid.element form).2 (accepted part mem) empty
    rw [written, nodup_slots_elements fun part => writes_under, apart_items_iff form,
      forall_parts_iff (fun item => c.element.Apart (c.unwrap item)) each]
    exact forall_congr' fun item => imp_congr_left (schema.arranged_perm given).mem_iff
  | map element ih =>
    obtain ⟨members, rfl, accepted, written⟩ := ok.map null
    obtain ⟨-, open_key, element_valid⟩ := valid_map_iff.1 valid
    have each : ∀ part ∈ (mapOrder members).zipIdx,
        (element.entryWrites (a.index part.2) part.1).slots.Nodup ↔ element.Apart part.1.2 := by
      intro part mem
      have beside := key_not_mem_value element_valid open_key (accepted part mem)
      refine (List.nodup_cons.trans (and_iff_right beside)).trans ?_
      by_cases empty : part.1.2 = .null
      · exact empty ▸ nodup_slots_null
      · exact ih element_valid (accepted part mem) empty
    rw [written, nodup_slots_elements fun part => entryWrites_under, apart_map_iff,
      forall_parts_iff (fun member => element.Apart member.2) each]
    exact forall_congr' fun member => imp_congr_left (mapOrder_perm members).mem_iff
  | block schema block ih =>
    obtain ⟨members, rfl, -, accepted, written⟩ := ok.block block valid null
    have shape_mem := shapeFor_mem_shapes block members
    have sound := valid.soundShape shape_mem
    have each : ∀ held ∈ heldFields members (schema.shapeFor members).fields,
        (heldWrites (a.block sliced) held).slots.Nodup ↔ held.1.schema.Apart held.2 := by
      intro held mem
      obtain ⟨declared, found⟩ := mem_heldFields_iff.1 mem
      exact ih _ shape_mem held.1 declared (sound.field_valid _ declared) (accepted held mem)
        (Field.value?_eq_some_iff.1 found).2
    rw [written, apart_block_iff block, nodup_slots_opened sound, nodup_slots_fields sound accepted, forall₂_congr each]

/-! ### Stores without losses -/

/-- A document of a valid schema loses no write in its store exactly if its blocks keep their fields apart. The store
then has the writes as its entries, in their order. -/
theorem size_flatten_iff_apart (valid : schema.Valid) {s : Store} (stored : schema.flatten value false = .ok s) :
    (s.size = (schema.writes value .root false).length ↔ schema.Apart value) ∧
      (schema.Apart value → s.toList = (schema.writes value .root false).entries) := by
  have once := nodup_slots_iff valid (flatten_eq_ok_iff.1 stored).1
  exact ⟨(size_eq_iff_nodup stored).trans once, fun apart => toList_of_nodup stored (once.2 apart)⟩

/-- A list beside a union with a variant that is stored under the name of the list. -/
def screen : Schema :=
  let tap : Shape Schema := ⟨"Tap", [⟨"type", "type", .scalar .string, true, false, [], none⟩]⟩
  .object ⟨"Screen",
    [⟨"tap", "tap", .list (.of (.scalar .string)), true, false, [], none⟩,
      ⟨"event", "event", .union ⟨"Event", ⟨"type", "type"⟩, [⟨"Tap", ["tap"], some "tap", tap⟩], tap⟩, true, false, [],
        none⟩]⟩

def tapEvent : Json := .object [("event", .object [("type", .string "tap")])]

theorem size_flatten_tapEvent : ∃ s, screen.Valid ∧ screen.flatten tapEvent false = .ok s ∧ screen.Apart tapEvent ∧
    s.size = 2 ∧ (screen.writes tapEvent .root false).length = 2 ∧
      s.toList = (screen.writes tapEvent .root false).entries := by
  have valid : screen.Valid := by decide
  have accepted : screen.Accepts tapEvent .root false := by rw [Accepts]; decide
  have apart : screen.Apart tapEvent := (nodup_slots_iff valid accepted).1 (by decide)
  have stored : screen.flatten tapEvent false = .ok (.ofList (screen.writes tapEvent .root false).entries) :=
    flatten_eq_ok_iff.2 ⟨accepted, rfl⟩
  have kept := size_flatten_iff_apart valid stored
  have two : (screen.writes tapEvent .root false).length = 2 := by decide
  exact ⟨_, valid, stored, apart, (kept.1.2 apart).trans two, two, kept.2 apart⟩

/-- A screen with both: the count of the list and that of the block of the variant share a slot. -/
def tappedScreen : Json :=
  .object [("tap", .array [.string "x", .string "y"]), ("event", .object [("type", .string "tap")])]

theorem size_flatten_tappedScreen : ∃ s, screen.Valid ∧ screen.flatten tappedScreen false = .ok s ∧
    s.size = 4 ∧ (screen.writes tappedScreen .root false).length = 5 := by
  refine ⟨_, by decide, flatten_eq_ok_iff.2 ⟨by rw [Accepts]; decide, rfl⟩, ?_, by decide⟩
  rw [Store.size_eq_length, Store.toList_ofList]
  decide +kernel

/-! ### Separate names -/

theorem name_mem_candidateNames (f : Field Schema) : f.name ∈ f.candidateNames := List.mem_cons_self

theorem segment_mem_candidateNames {f : Field Schema} {i : Nat} {segment : String}
    (mem : (i, segment) ∈ f.schema.variantSegments) : segment ∈ f.candidateNames :=
  List.mem_cons_of_mem _ (List.mem_append_left _ (List.mem_map_of_mem mem))

theorem alias_mem_candidateNames {f : Field Schema} {name : String} (mem : name ∈ f.aliases) :
    name ∈ f.candidateNames :=
  List.mem_cons_of_mem _ (List.mem_append_right _ mem)

theorem place_mem_places (f : Field Schema) (value : Json) : f.place value ∈ f.places := by
  unfold Field.place
  cases moved : f.schema.segmentOf value with
  | none => exact List.mem_cons_self
  | some segment =>
    obtain ⟨choice, members, tag, v, eq, -, -, selected, stored⟩ := segmentOf_eq_some_iff.1 moved
    obtain ⟨i, here⟩ := List.mem_iff_getElem?.1 (List.mem_of_find?_eq_some selected)
    have owned : (i, segment) ∈ f.schema.variantSegments := eq ▸ mem_variantSegments_iff.2 ⟨v, here, stored⟩
    exact List.mem_cons_of_mem _ (List.mem_map_of_mem owned)

theorem place_mem_candidateNames (f : Field Schema) (value : Json) : f.place value ∈ f.candidateNames :=
  List.mem_append_left _ (place_mem_places f value)

/-- Where places are apart, no two fields with a value stand in one place. -/
theorem nodup_places {shape : Shape Schema} (apart : shape.PlacesApart) (members : List (String × Json)) :
    ((heldFields members shape.fields).map fun held => held.1.place held.2).Nodup := by
  have fields := apart.sublist (heldFields_sublist members shape.fields)
  rw [List.pairwise_map] at fields
  rw [List.nodup_iff_pairwise_ne, List.pairwise_map]
  refine fields.imp fun {x y} disjoint same => ?_
  exact disjoint (place_mem_places x.1 x.2) (same ▸ place_mem_places y.1 y.2)

theorem apart_of_places (places : ∀ inner, Inside inner schema → ∀ shape ∈ inner.shapes, shape.PlacesApart)
    (value : Json) : schema.Apart value := by
  rintro inner x part members block -
  have nodup := nodup_places (places inner part.inside _ (shapeFor_mem_shapes block members)) members
  rw [List.nodup_iff_pairwise_ne, List.pairwise_map] at nodup
  exact nodup.imp fun differ => .inr (.inr differ)

theorem Separate.apart (separate : schema.Separate) (value : Json) : schema.Apart value :=
  apart_of_places (fun inner inside shape mem => (separate inner inside shape mem).placesApart) value

end Schema
end FlatStore
