import FlatStore.Proofs.Levels
import FlatStore.Record.Basic

/-!
Embedded fields in synthesized objects. The fields of an object are its plain fields and those of its embedded ones, in
the order in which they are met, and nothing else (`Descriptor.spliced_of_synthesized`). Each says where it comes from:
it has the names that its plain field declares, and the schema that synthesis gives for the type of the plain field by
itself. It need not be there if any option stands around it, on its own type or on that of an embedded field, and it
remembers the innermost embedded field.
-/
namespace FlatStore

structure PlainField.SplicedAs (catalog : Catalog) (plain : PlainField) (f : Field Schema) : Prop where
  name : f.name = plain.field.name
  wireName : f.wireName = plain.field.wireName
  aliases : f.aliases = plain.field.aliases
  computed : f.computed = plain.field.computed
  schema : ∃ made, (plain.field.valueType catalog).synthesize catalog = .ok made ∧
    f.schema = Synthesis.withLimits plain.field.minItems plain.field.maxItems made
  optional : f.optional = true ↔ plain.field.isOptional catalog = true ∨ plain.field.computed = true ∨
    ∃ outer ∈ plain.around, outer.isOptional catalog = true
  promotedFrom : f.promotedFrom = plain.around.head?.map (·.name)

namespace Synthesis

/-- Limits on the number of items do not make a schema valid or invalid. -/
theorem valid_withLimits {minItems maxItems : Option UInt64} {schema : Schema} :
    (withLimits minItems maxItems schema).Valid ↔ schema.Valid := by
  cases schema with
  | list items => rw [withLimits, Schema.valid_list_iff, Schema.valid_list_iff]; rfl
  | set items => rw [withLimits, Schema.valid_set_iff, Schema.valid_set_iff]; rfl
  | scalar | map | object | union => rfl

theorem PlainMade.splicedAs {catalog : Catalog} {n : Nat} {plain : PlainField} {f : Field Schema}
    (made : PlainMade catalog n plain f) (le : n ≤ maxDepth) (valid : f.schema.Valid) : plain.SplicedAs catalog f := by
  obtain @⟨m, schema, less, ok⟩ := made
  have own : schema.Valid := valid_withLimits.1 valid
  rw [← catalog.expand_valueType] at ok
  refine ⟨rfl, rfl, rfl, rfl, ⟨schema, ?_, rfl⟩, ?_, rfl⟩
  · exact ok.synthesize (Nat.le_trans less le) own
  · simp only [PlainField.made, Bool.or_eq_true, List.any_eq_true, or_assoc]

theorem splicedAs_of_each {catalog : Catalog} {n : Nat} {plain : List PlainField} {fields : List (Field Schema)}
    (each : List.Forall₂ (PlainMade catalog n) plain fields) (le : n ≤ maxDepth)
    (valid : ∀ f ∈ fields, f.schema.Valid) : List.Forall₂ (PlainField.SplicedAs catalog) plain fields := by
  induction each with
  | nil => exact .nil
  | cons made _ ih =>
    obtain ⟨first, rest⟩ := List.forall_mem_cons.1 valid
    exact .cons (made.splicedAs le first) (ih rest)

end Synthesis

/-- A synthesized object has one field for each plain field that is met on the way through its embedded fields, in their
order. There is one such way. -/
theorem Descriptor.spliced_of_synthesized {catalog : Catalog} {object : ObjectDescriptor Descriptor} {schema : Schema}
    (synthesized : (Descriptor.object object).synthesize catalog = .ok schema) :
    ∃ shape plain, schema = .object shape ∧ shape.name = object.name ∧
      (∀ met, catalog.Plain object.fields met ↔ met = plain) ∧
      List.Forall₂ (PlainField.SplicedAs catalog) plain shape.fields := by
  have valid := valid_of_synthesize synthesized
  have made : Synthesis.SchemaMade _ _ _ _ (.object object) schema := (schemaAt_of_synthesize synthesized).made
  cases made with
  | @object _ shape own =>
    obtain ⟨name, plain, spliced, each⟩ := own.spliced
    have sound := Schema.valid_object_iff.1 valid
    refine ⟨shape, plain, rfl, name, fun met => ⟨fun other => other.unique spliced, fun same => same ▸ spliced⟩, ?_⟩
    exact Synthesis.splicedAs_of_each each (by decide) sound.field_valid

/-- A rule with its owner and a limited list of labels two embedded fields deep, of which the outer one is optional. -/
def ObjectDescriptor.layeredRule : ObjectDescriptor Descriptor where
  name := "Rule"
  fields :=
    [{ FieldDescriptor.of "rule_name" "ruleName" (.scalar .string) with aliases := ["name"] },
      .embed "meta" (.optional (.record "Meta"
        [.of "revision" "revision" (.optional (.scalar .int)),
          .embed "owned" (.record "Owned"
            [.of "owner" "owner" (.scalar .string),
              { FieldDescriptor.of "labels" "labels" (.list (.scalar .string)) with maxItems := some 4 }])])),
      { FieldDescriptor.of "status" "status" (.scalar .string) with computed := true }]

def Shape.layeredRule : Shape Schema where
  name := "Rule"
  fields :=
    [{ Field.plain "rule_name" (.scalar .string) with wireName := "ruleName", aliases := ["name"] },
      { Field.plain "revision" (.scalar .int) with optional := true, promotedFrom := some "meta" },
      { Field.plain "owner" (.scalar .string) with optional := true, promotedFrom := some "owned" },
      { Field.plain "labels" (.list { Collection.of (.scalar .string) with maxItems := some 4 }) with
        optional := true, promotedFrom := some "owned" },
      { Field.plain "status" (.scalar .string) with optional := true, computed := true }]

theorem Descriptor.spliced_of_layeredRule :
    (Descriptor.object .layeredRule).synthesize [] = .ok (.object .layeredRule) ∧
      ∃ plain, Catalog.Plain [] ObjectDescriptor.layeredRule.fields plain ∧
        List.Forall₂ (PlainField.SplicedAs []) plain Shape.layeredRule.fields := by
  have synthesized : (Descriptor.object .layeredRule).synthesize [] = .ok (.object .layeredRule) := by decide +kernel
  obtain ⟨_, plain, ⟨⟩, -, met, spliced⟩ := spliced_of_synthesized synthesized
  exact ⟨synthesized, plain, (met plain).2 rfl, spliced⟩

end FlatStore
