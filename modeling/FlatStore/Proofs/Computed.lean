import FlatStore.Proofs.Trace

/-!
Computed fields. Flattening that leaves computed fields out is flattening by a schema that does not have them
(`Schema.flatten_uncomputed`): they are passed over before anything is asked of their values, in whatever they are
nested, and neither the variants of unions nor the order of sets depend on them.
-/
namespace FlatStore
namespace Schema

mutual
/-- The schema without its computed fields, at any depth. -/
def uncomputed : Schema → Schema
  | .scalar kind => .scalar kind
  | .list ⟨element, minItems, maxItems, wrapper⟩ => .list ⟨element.uncomputed, minItems, maxItems, wrapper⟩
  | .set ⟨element, minItems, maxItems, wrapper⟩ => .set ⟨element.uncomputed, minItems, maxItems, wrapper⟩
  | .map element => .map element.uncomputed
  | .object ⟨name, fields⟩ => .object ⟨name, uncomputedFields fields⟩
  | .union ⟨name, discriminator, variants, ⟨baseName, baseFields⟩⟩ =>
    .union ⟨name, discriminator, uncomputedVariants variants, ⟨baseName, uncomputedFields baseFields⟩⟩
def uncomputedFields : List (Field Schema) → List (Field Schema)
  | [] => []
  | ⟨name, wireName, schema, optional, computed, aliases, promotedFrom⟩ :: rest =>
    if computed then uncomputedFields rest
    else ⟨name, wireName, schema.uncomputed, optional, computed, aliases, promotedFrom⟩ :: uncomputedFields rest
def uncomputedVariants : List (Variant Schema) → List (Variant Schema)
  | [] => []
  | ⟨name, values, segment, ⟨shapeName, fields⟩⟩ :: rest =>
    ⟨name, values, segment, ⟨shapeName, uncomputedFields fields⟩⟩ :: uncomputedVariants rest
end

end Schema

/-- The fields of a shape that are not computed. -/
def Shape.uncomputed (shape : Shape Schema) : Shape Schema := ⟨shape.name, Schema.uncomputedFields shape.fields⟩

/-- A union of shapes without computed fields. -/
def TaggedUnion.uncomputed (choice : TaggedUnion Schema) : TaggedUnion Schema :=
  ⟨choice.name, choice.discriminator, Schema.uncomputedVariants choice.variants, choice.base.uncomputed⟩

namespace Schema

variable {schema part inner : Schema} {shape : Shape Schema} {members : List (String × Json)} {base : Address}

/-! ### The parts that are left -/

theorem uncomputedFields_eq_map (fields : List (Field Schema)) :
    uncomputedFields fields =
      (fields.filter (!·.computed)).map fun f => { f with schema := f.schema.uncomputed } := by
  induction fields with
  | nil => rfl
  | cons f rest ih =>
    obtain ⟨name, wireName, schema, optional, computed, aliases, promotedFrom⟩ := f
    cases computed <;> simp [uncomputedFields, ih]

theorem uncomputedVariants_eq_map (variants : List (Variant Schema)) :
    uncomputedVariants variants = variants.map fun v => { v with shape := v.shape.uncomputed } := by
  induction variants with
  | nil => rfl
  | cons v rest ih =>
    obtain ⟨name, values, segment, ⟨shapeName, fields⟩⟩ := v
    rw [uncomputedVariants, ih, List.map_cons]
    rfl

theorem uncomputed_union (choice : TaggedUnion Schema) : (union choice).uncomputed = union choice.uncomputed := rfl

theorem element?_uncomputed (schema : Schema) : schema.uncomputed.element? = schema.element?.map uncomputed := by
  cases schema <;> rfl

theorem shapes_uncomputed (schema : Schema) : schema.uncomputed.shapes = schema.shapes.map Shape.uncomputed := by
  cases schema with
  | union choice =>
    rw [uncomputed_union, shapes, shapes, TaggedUnion.shapes, TaggedUnion.shapes, TaggedUnion.uncomputed,
      uncomputedVariants_eq_map, List.map_cons, List.map_map, List.map_map]
    rfl
  | scalar | list | set | map | object => rfl

/-- A field that is left is no computed one, and is made of what is left of a field. -/
theorem exists_of_mem_uncomputed {f : Field Schema} (mem : f ∈ shape.uncomputed.fields) :
    f.computed = false ∧ ∃ g ∈ shape.fields, f.schema = g.schema.uncomputed := by
  rw [Shape.uncomputed, uncomputedFields_eq_map] at mem
  obtain ⟨g, kept, rfl⟩ := List.mem_map.1 mem
  obtain ⟨held, stored⟩ := List.mem_filter.1 kept
  exact ⟨by simpa using stored, g, held, rfl⟩

theorem exists_of_mem_children (mem : part ∈ schema.uncomputed.children) :
    ∃ whole ∈ schema.children, part = whole.uncomputed := by
  rcases List.mem_append.1 mem with element | mem
  · rw [Option.mem_toList, element?_uncomputed] at element
    obtain ⟨whole, held, rfl⟩ := Option.map_eq_some_iff.1 element
    exact ⟨whole, element_mem_children held, rfl⟩
  · rw [shapes_uncomputed] at mem
    obtain ⟨kept, kept_mem, held⟩ := List.mem_flatMap.1 mem
    obtain ⟨shape, shape_mem, rfl⟩ := List.mem_map.1 kept_mem
    obtain ⟨f, declared, rfl⟩ := List.mem_map.1 held
    obtain ⟨-, g, own, same⟩ := exists_of_mem_uncomputed declared
    exact ⟨g.schema, field_mem_children shape_mem own, same⟩

/-- No computed field is left, at any depth. -/
theorem computed_eq_false (inside : Inside inner schema.uncomputed) :
    ∀ shape ∈ inner.shapes, ∀ f ∈ shape.fields, f.computed = false := by
  induction schema using childInduction with
  | step schema ih =>
    cases inside with
    | self =>
      intro kept mem f declared
      rw [shapes_uncomputed] at mem
      obtain ⟨shape, -, rfl⟩ := List.mem_map.1 mem
      exact (exists_of_mem_uncomputed declared).1
    | child mem below =>
      obtain ⟨whole, held, rfl⟩ := exists_of_mem_children mem
      exact ih whole held below

/-! ### What is written -/

theorem isBlock_uncomputed (schema : Schema) : schema.uncomputed.isBlock = schema.isBlock := by
  cases schema <;> rfl

/-- A tag selects the same variant, with the fields that are left of it. -/
theorem variant?_uncomputed (choice : TaggedUnion Schema) (tag : String) : choice.uncomputed.variant? tag =
    (choice.variant? tag).map fun v => { v with shape := v.shape.uncomputed } := by
  rw [TaggedUnion.variant?, TaggedUnion.uncomputed, uncomputedVariants_eq_map, List.find?_map]
  rfl

theorem shapeFor_uncomputed (schema : Schema) (members : List (String × Json)) :
    schema.uncomputed.shapeFor members = (schema.shapeFor members).uncomputed := by
  cases schema with
  | union choice =>
    have variants : choice.uncomputed.variant? = fun tag =>
        (choice.variant? tag).map fun v => { v with shape := v.shape.uncomputed } := funext (variant?_uncomputed choice)
    rw [uncomputed_union, shapeFor, shapeFor, TaggedUnion.shapeOf, TaggedUnion.shapeOf, variants]
    change (Option.map _ ((tagOf choice.discriminator members).bind _)).getD choice.base.uncomputed = _
    cases tagOf choice.discriminator members with
    | none => rfl
    | some tag =>
      simp only [Option.bind_some]
      cases choice.variant? tag <;> rfl
  | scalar | list | set | map | object => rfl

theorem segmentOf_uncomputed (schema : Schema) (value : Json) :
    schema.uncomputed.segmentOf value = schema.segmentOf value := by
  cases schema with
  | union choice =>
    cases value with
    | object members =>
      rw [uncomputed_union, segmentOf, segmentOf]
      change ((tagOf choice.discriminator members).bind _).bind _ = _
      cases tagOf choice.discriminator members with
      | none => rfl
      | some tag =>
        simp only [Option.bind_some, variant?_uncomputed]
        cases choice.variant? tag <;> rfl
    | null | bool | whole | float | string | array => rfl
  | scalar | list | set | map | object => rfl

/-- A block in which computed fields are left out writes the fields that are left. -/
theorem traceFields_uncomputed {fields : List (Field Schema)}
    (each : ∀ f ∈ fields, ∀ value a,
      f.schema.uncomputed.trace false value a false = f.schema.trace true value a false) :
    traceFields false members base (uncomputedFields fields) = traceFields true members base fields := by
  induction fields with
  | nil => rfl
  | cons f rest ih =>
    obtain ⟨here, later⟩ := List.forall_mem_cons.1 each
    rw [traceFields_cons, ← ih later, uncomputedFields_eq_map, uncomputedFields_eq_map, List.filter_cons]
    cases computed : f.computed with
    | true =>
      have nothing : traceField true members base f = .empty := by simp [traceField, computed]
      rw [nothing]
      rfl
    | false =>
      have same : traceField false members base { f with schema := f.schema.uncomputed } =
          traceField true members base f := by
        simp only [traceField, computed, Bool.false_and, segmentOf_uncomputed, here]
        rfl
      rw [if_pos (by rfl), List.map_cons, traceFields_cons, same]

/-- What is written when computed fields are left out is what the schema without them writes. -/
theorem trace_uncomputed (schema : Schema) (value : Json) (a : Address) (sliced : Bool) :
    schema.uncomputed.trace false value a sliced = schema.trace true value a sliced := by
  induction schema using formInduction generalizing value a sliced with
  | scalar kind => cases value <;> rfl
  | items schema c form ih =>
    cases schema with
    | list c | set c =>
      cases form
      cases value with
      | array given =>
        rw [trace_items rfl, trace_items rfl]
        simp only [← ih]
        rfl
      | null | bool | whole | float | string | object => rfl
    | scalar | map | object | union => cases form
  | map element ih =>
    cases value with
    | object members =>
      rw [uncomputed, trace_map, trace_map, isBlock_uncomputed]
      simp only [ih]
    | null | bool | whole | float | string | array => rfl
  | block schema block ih =>
    by_cases object : ∃ members, value = .object members
    · obtain ⟨members, rfl⟩ := object
      have kept : schema.uncomputed.isBlock = true := (isBlock_uncomputed schema).trans block
      rw [trace_block kept, trace_block block, shapeFor_uncomputed]
      have fields := ih _ (shapeFor_mem_shapes block members)
      rw [Shape.uncomputed, traceFields_uncomputed fun f declared value b => fields f declared value b false]
    · by_cases null : value = .null
      · rw [null, trace_null, trace_null]
      · have kept : schema.uncomputed.isBlock = true := (isBlock_uncomputed schema).trans block
        rw [trace_not_object (.inl kept) null (not_exists.1 object),
          trace_not_object (.inl block) null (not_exists.1 object)]

/-- A document is flattened without its computed fields just as by the schema that does not have them, in which no
computed field is left. -/
theorem flatten_uncomputed (schema : Schema) :
    (∀ inner, Inside inner schema.uncomputed → ∀ shape ∈ inner.shapes, ∀ f ∈ shape.fields, f.computed = false) ∧
      ∀ value, schema.flatten value true = schema.uncomputed.flatten value false := by
  refine ⟨fun inner inside => computed_eq_false inside, fun value => ?_⟩
  rw [flatten, flatten, flattenInto, flattenInto, trace_uncomputed]

end Schema
end FlatStore
