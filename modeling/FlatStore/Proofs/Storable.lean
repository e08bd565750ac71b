import FlatStore.Proofs.Fit
import FlatStore.Proofs.Restored

/-!
Values that are stored whole. A value is if its parts are (`Schema.Storable.items`, `Schema.Storable.map`,
`Schema.Storable.block`): it fits its schema and stores something for each element and each entry, so that nothing of it
is lost (`Schema.Storable.clean`).
-/
namespace FlatStore

namespace Schema

/-- Whether a value fits a schema and stores something for each of its elements and entries. -/
structure Storable (schema : Schema) (value : Json) : Prop where
  fits : schema.Fits value
  nonnull : value ≠ .null
  dense : schema.Dense value
  entries : ∀ element members, Part (.map element) (.object members) schema value → ∀ member ∈ members,
    member.2 ≠ .null

namespace Storable

variable {schema : Schema} {value : Json} {members : List (String × Json)}

theorem clean (storable : schema.Storable value) (distinct : value.Distinct) : schema.Clean value :=
  ⟨storable.dense, storable.entries, distinct⟩

theorem scalar {kind : ScalarKind} {leaf : Scalar} (read : Scalar.ofJsonAs? kind value = some leaf) :
    (Schema.scalar kind).Storable value where
  fits := fits_scalar read
  nonnull := by
    rintro rfl
    cases kind <;> cases read
  dense := by
    refine part_iff.2 ⟨?_, ?_⟩
    · rintro c ⟨⟩
    · rintro part y mem
      cases value <;> cases mem
  entries := by
    rintro element members inside
    cases inside with
    | step mem => cases value <;> cases mem

/-- A list or a set is stored if each of its items is, and takes some room. -/
theorem items {c : Collection Schema} (form : schema.collection? = some c) {given : List Json}
    (within : ∀ max ∈ c.maxItems, given.length ≤ max.toNat)
    (each : ∀ item ∈ given, c.Wraps item ∧ c.element.Occupies (c.unwrap item) ∧ c.element.Storable (c.unwrap item)) :
    schema.Storable (.array given) where
  fits := fits_items form within fun item mem => ⟨(each item mem).1, (each item mem).2.2.fits⟩
  nonnull := by simp
  dense := by
    refine part_iff.2 ⟨?_, ?_⟩
    · intro c' form' given' same item mem
      rw [form] at form'
      cases form'
      cases same
      exact (each item mem).2.1
    · intro part y mem
      rw [parts_items form] at mem
      obtain ⟨item, held, same⟩ := List.mem_map.1 mem
      cases same
      exact (each item held).2.2.dense
  entries := by
    intro element members inside
    cases inside with
    | step mem inside =>
      rw [parts_items form] at mem
      obtain ⟨item, held, same⟩ := List.mem_map.1 mem
      cases same
      exact (each item held).2.2.entries element members inside

theorem map {element : Schema} (each : ∀ member ∈ members, element.Storable member.2) :
    (Schema.map element).Storable (.object members) where
  fits := fits_map fun member mem => (each member mem).fits
  nonnull := by simp
  dense := by
    refine part_iff.2 ⟨?_, ?_⟩
    · rintro c ⟨⟩
    · intro part y mem
      obtain ⟨member, held, same⟩ := List.mem_map.1 mem
      cases same
      exact (each member held).dense
  entries := by
    intro inner members' inside
    cases inside with
    | self => exact fun member mem => (each member mem).nonnull
    | step mem inside =>
      obtain ⟨member, held, same⟩ := List.mem_map.1 mem
      cases same
      exact (each member held).entries inner members' inside

/-- A block is stored if the values of its fields are and no required field lacks a value. -/
theorem block (block : schema.isBlock = true) (valid : schema.Valid)
    (required : ∀ f ∈ (schema.shapeFor members).fields, f.optional = false → f.value? members ≠ none)
    (each : ∀ part ∈ schema.parts (.object members), part.1.Storable part.2) : schema.Storable (.object members) where
  fits := fits_block block valid required fun held mem => (each _ (held_mem_parts block mem)).fits
  nonnull := by simp
  dense := by
    refine part_iff.2 ⟨?_, fun part y mem => (each _ mem).dense⟩
    intro c form
    rw [isBlock_of_collection? form] at block
    cases block
  entries := by
    intro element members' inside
    cases inside with
    | self => cases block
    | step mem inside => exact (each _ mem).entries element members' inside

end Storable
end Schema

end FlatStore
