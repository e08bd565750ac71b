import FlatStore.Proofs.Accepted

/-!
Documents that fit their schemas. Whether a document fits is a matter of its parts, in whatever order they come
(`Schema.fits_items`, `Schema.fits_map`, `Schema.fits_block`), and not of the place where it is written
(`Schema.Accepts.fits`).
-/
namespace FlatStore
namespace Schema

/-- Whether a document fits a schema wherever it is written. -/
def Fits (schema : Schema) (value : Json) : Prop := ∀ a sliced, schema.Accepts value a sliced

variable {schema : Schema} {value : Json} {a : Address} {sliced : Bool} {members : List (String × Json)}

theorem fits_null : schema.Fits .null := by
  intro a sliced
  rw [Accepts, trace_null]
  rfl

theorem fits_scalar {kind : ScalarKind} {leaf : Scalar} (read : Scalar.ofJsonAs? kind value = some leaf) :
    (scalar kind).Fits value := by
  intro a sliced
  rw [Accepts, trace_scalar read]
  rfl

theorem fits_items {c : Collection Schema} (form : schema.collection? = some c) {given : List Json}
    (within : ∀ max ∈ c.maxItems, given.length ≤ max.toNat)
    (each : ∀ item ∈ given, c.Wraps item ∧ c.element.Fits (c.unwrap item)) : schema.Fits (.array given) := by
  intro a sliced
  have arranged := schema.arranged_perm given
  have written : ∀ items : List Json, (∀ item ∈ items, c.Wraps item ∧ c.element.Fits (c.unwrap item)) →
      (traceItems.write (fun item b => c.element.trace false item b true) c.wrapper a items).failure = none := by
    intro items each
    refine Trace.failure_append.2 ⟨rfl, Trace.failure_indexed.2 fun part mem => ?_⟩
    obtain ⟨wraps, fits⟩ := each part.1 (List.fst_mem_of_mem_zipIdx mem)
    rw [unwrap_of_wraps wraps]
    exact fits _ true
  have fits := written (schema.arranged given) fun item mem => each item (arranged.mem_iff.1 mem)
  rw [Accepts, trace_items form]
  unfold traceItems
  cases bound : c.maxItems with
  | none => exact fits
  | some max =>
    dsimp only
    rw [if_neg (by simpa [arranged.length_eq] using within max bound)]
    exact fits

theorem fits_map {element : Schema} (each : ∀ member ∈ members, element.Fits member.2) :
    (map element).Fits (.object members) := by
  intro a sliced
  rw [Accepts, trace_map, traceEntries]
  refine Trace.failure_append.2 ⟨rfl, Trace.failure_indexed.2 fun part mem => Trace.failure_append.2 ⟨rfl, ?_⟩⟩
  rw [trace_entry]
  exact each part.1 ((mapOrder_perm members).mem_iff.1 (List.fst_mem_of_mem_zipIdx mem)) _ _

theorem fits_block (block : schema.isBlock = true) (valid : schema.Valid)
    (required : ∀ f ∈ (schema.shapeFor members).fields, f.optional = false → f.value? members ≠ none)
    (each : ∀ held ∈ heldFields members (schema.shapeFor members).fields, held.1.schema.Fits held.2) :
    schema.Fits (.object members) := by
  intro a sliced
  have sound := valid.soundShape (shapeFor_mem_shapes block members)
  have fields : ∀ fields ⊆ (schema.shapeFor members).fields,
      (traceFields false members (a.block sliced) fields).failure = none := by
    intro fields subset
    induction fields with
    | nil => rfl
    | cons f rest ih =>
      have declared := subset List.mem_cons_self
      rw [traceFields_cons, Trace.failure_append, traceField_eq sound declared]
      refine ⟨?_, ih (List.subset_of_cons_subset subset)⟩
      cases found : f.value? members with
      | none =>
        cases optional : f.optional with
        | true => rfl
        | false => exact absurd found (required f declared optional)
      | some v => exact each (f, v) (mem_heldFields_iff.2 ⟨declared, found⟩) _ false
  have opened : (Trace.openBlock a sliced).failure = none := by
    unfold Trace.openBlock
    split <;> rfl
  rw [Accepts, trace_block block]
  exact Trace.failure_append.2 ⟨opened, fields _ (List.Subset.refl _)⟩

/-- A document that fits in one place fits everywhere. -/
theorem Accepts.fits (ok : schema.Accepts value a sliced) (valid : schema.Valid) : schema.Fits value := by
  by_cases null : value = .null
  · rw [null]
    exact fits_null
  induction schema using formInduction generalizing value a sliced with
  | scalar kind =>
    obtain ⟨leaf, read, -⟩ := ok.scalar null
    exact fits_scalar read
  | items schema c form ih =>
    obtain ⟨given, rfl, within, wraps, accepted, -⟩ := ok.items form null
    refine fits_items form within fun item mem => ⟨wraps item mem, ?_⟩
    obtain ⟨i, indexed⟩ := exists_index ((schema.arranged_perm given).mem_iff.2 mem)
    by_cases none : c.unwrap item = .null
    · rw [none]
      exact fits_null
    · exact ih (accepted _ indexed) (valid.element form).2 none
  | map element ih =>
    obtain ⟨members, rfl, accepted, -⟩ := ok.map null
    refine fits_map fun member mem => ?_
    obtain ⟨i, indexed⟩ := exists_index ((mapOrder_perm members).mem_iff.2 mem)
    by_cases none : member.2 = .null
    · rw [none]
      exact fits_null
    · exact ih (accepted _ indexed) (valid_map_iff.1 valid).2.2 none
  | block schema block ih =>
    obtain ⟨members, rfl, required, accepted, -⟩ := ok.block block valid null
    refine fits_block block valid required fun held mem => ?_
    obtain ⟨declared, found⟩ := mem_heldFields_iff.1 mem
    have shape_mem := shapeFor_mem_shapes block members
    have field_valid := (valid.soundShape shape_mem).field_valid _ declared
    exact ih _ shape_mem _ declared (accepted held mem) field_valid (Field.value?_eq_some_iff.1 found).2

/-! ### What fits -/

theorem fits_scalar_iff {kind : ScalarKind} :
    (scalar kind).Fits value ↔ value = .null ∨ ∃ leaf, Scalar.ofJsonAs? kind value = some leaf := by
  constructor
  · intro fits
    by_cases null : value = .null
    · exact .inl null
    · obtain ⟨leaf, read, -⟩ := (fits .root false).scalar null
      exact .inr ⟨leaf, read⟩
  · rintro (rfl | ⟨leaf, read⟩)
    · exact fits_null
    · exact fits_scalar read

theorem fits_items_iff {c : Collection Schema} (form : schema.collection? = some c) (valid : schema.Valid) :
    schema.Fits value ↔ value = .null ∨ ∃ given, value = .array given ∧
      (∀ max ∈ c.maxItems, given.length ≤ max.toNat) ∧ ∀ item ∈ given, c.Wraps item ∧ c.element.Fits (c.unwrap item) := by
  constructor
  · intro fits
    by_cases null : value = .null
    · exact .inl null
    · obtain ⟨given, rfl, within, wraps, accepted, -⟩ := (fits .root false).items form null
      refine .inr ⟨given, rfl, within, fun item mem => ⟨wraps item mem, ?_⟩⟩
      obtain ⟨i, indexed⟩ := exists_index ((schema.arranged_perm given).mem_iff.2 mem)
      exact (accepted _ indexed).fits (valid.element form).2
  · rintro (rfl | ⟨given, rfl, within, each⟩)
    · exact fits_null
    · exact fits_items form within each

theorem fits_map_iff {element : Schema} (valid : (map element).Valid) : (map element).Fits value ↔
    value = .null ∨ ∃ members, value = .object members ∧ ∀ member ∈ members, element.Fits member.2 := by
  constructor
  · intro fits
    by_cases null : value = .null
    · exact .inl null
    · obtain ⟨members, rfl, accepted, -⟩ := (fits .root false).map null
      refine .inr ⟨members, rfl, fun member mem => ?_⟩
      obtain ⟨i, indexed⟩ := exists_index ((mapOrder_perm members).mem_iff.2 mem)
      exact (accepted _ indexed).fits (valid_map_iff.1 valid).2.2
  · rintro (rfl | ⟨members, rfl, each⟩)
    · exact fits_null
    · exact fits_map each

theorem fits_block_iff (block : schema.isBlock = true) (valid : schema.Valid) : schema.Fits value ↔
    value = .null ∨ ∃ members, value = .object members ∧
      (∀ f ∈ (schema.shapeFor members).fields, f.optional = false → f.value? members ≠ none) ∧
      ∀ held ∈ heldFields members (schema.shapeFor members).fields, held.1.schema.Fits held.2 := by
  constructor
  · intro fits
    by_cases null : value = .null
    · exact .inl null
    · obtain ⟨members, rfl, required, accepted, -⟩ := (fits .root false).block block valid null
      refine .inr ⟨members, rfl, required, fun held mem => ?_⟩
      have sound := valid.soundShape (shapeFor_mem_shapes block members)
      exact (accepted held mem).fits (sound.field_valid _ (mem_heldFields_iff.1 mem).1)
  · rintro (rfl | ⟨members, rfl, required, each⟩)
    · exact fits_null
    · exact fits_block block valid required each

end Schema
end FlatStore
