import FlatStore.Proofs.Computed
import FlatStore.Proofs.Synthesized
import FlatStore.Record.Basic

/-!
Computed fields of types. Each plain field that is met on the way through the embedded fields of an object becomes a
field of its schema, which is computed if the plain field itself is declared so, and optional then. Flattening that
leaves computed fields out is flattening by the schema that does not have them, and so it neither writes them nor asks
for them (`Descriptor.computed_of_synthesized`). What an embedded field is declared to be is not looked at: the fields
from it that are not computed themselves are written and required all the same
(`Descriptor.requires_embeddedComputed`).
-/
namespace FlatStore

/-- Whether a plain field is declared computed: itself, or an embedded field that it stands in. -/
def PlainField.Declared (plain : PlainField) : Prop :=
  plain.field.computed = true ∨ ∃ outer ∈ plain.around, outer.computed = true

/-- How a field of a schema goes back to a plain one. -/
structure PlainField.Becomes (plain : PlainField) (f : Field Schema) : Prop where
  name : f.name = plain.field.name
  wireName : f.wireName = plain.field.wireName
  computed : f.computed = plain.field.computed
  optional : f.computed = true → f.optional = true

theorem Synthesis.PlainMade.becomes {catalog : Catalog} {n : Nat} {plain : PlainField} {f : Field Schema}
    (made : PlainMade catalog n plain f) : plain.Becomes f := by
  obtain ⟨-⟩ := made
  exact ⟨rfl, rfl, rfl, fun computed => by simp_all [PlainField.made]⟩

theorem PlainField.declared_iff {plain : List PlainField} {fields : List (Field Schema)}
    (each : List.Forall₂ PlainField.Becomes plain fields) :
    List.Forall₂ (fun p f => p.Declared → f.computed = true ∧ f.optional = true) plain fields ↔
      ∀ p ∈ plain, p.Declared → p.field.computed = true := by
  induction each with
  | nil => simp
  | @cons p f _ _ here _ ih =>
    have own : (p.Declared → f.computed = true ∧ f.optional = true) ↔ (p.Declared → p.field.computed = true) := by
      rw [← here.computed]
      exact imp_congr_right fun _ => ⟨And.left, fun computed => ⟨computed, here.optional computed⟩⟩
    rw [List.forall₂_cons, List.forall_mem_cons, own, ih]

/-- The fields of a synthesized object are those that are met on the way through its embedded fields, with their names.
Those that are declared computed themselves are computed and optional. All that are declared computed are, exactly if
what is in an embedded field that is computed is computed itself. Flattening that leaves computed fields out is
flattening by the shape that does not have them. -/
theorem Descriptor.computed_of_synthesized {catalog : Catalog} {object : ObjectDescriptor Descriptor} {schema : Schema}
    (synthesized : (Descriptor.object object).synthesize catalog = .ok schema) :
    ∃ shape plain, schema = .object shape ∧ catalog.Plain object.fields plain ∧
      List.Forall₂ PlainField.Becomes plain shape.fields ∧
      (List.Forall₂ (fun p f => p.Declared → f.computed = true ∧ f.optional = true) plain shape.fields ↔
        ∀ p ∈ plain, p.Declared → p.field.computed = true) ∧
      ∀ value, schema.flatten value true = (Schema.object shape.uncomputed).flatten value false := by
  have made : Synthesis.SchemaMade _ _ _ _ (.object object) schema := (schemaAt_of_synthesize synthesized).made
  cases made with
  | @object _ shape own =>
    obtain ⟨-, plain, spliced, each⟩ := own.spliced
    have becomes : List.Forall₂ PlainField.Becomes plain shape.fields := each.imp fun _ _ made => made.becomes
    refine ⟨shape, plain, rfl, spliced, becomes, PlainField.declared_iff becomes, fun value => ?_⟩
    have written := Schema.trace_uncomputed (.object shape) value .root false
    rw [Schema.flatten, Schema.flatten, Schema.flattenInto, Schema.flattenInto, ← written]
    rfl

def ObjectDescriptor.stampedRule : ObjectDescriptor Descriptor where
  name := "Rule"
  fields := [.of "name" "name" (.scalar .string),
    .embed "meta" (.record "Meta" [{ FieldDescriptor.of "owner" "owner" (.scalar .string) with computed := true }])]

def Shape.stampedRule : Shape Schema where
  name := "Rule"
  fields := [.plain "name" (.scalar .string),
    { Field.plain "owner" (.scalar .string) with optional := true, computed := true, promotedFrom := some "meta" }]

theorem Descriptor.computed_of_stampedRule :
    (Descriptor.object .stampedRule).synthesize [] = .ok (.object .stampedRule) ∧
      ∀ value, (Schema.object .stampedRule).flatten value true =
        (Schema.object ⟨"Rule", [.plain "name" (.scalar .string)]⟩).flatten value false := by
  have synthesized : (Descriptor.object .stampedRule).synthesize [] = .ok (.object .stampedRule) := by decide +kernel
  obtain ⟨shape, -, same, -, -, -, flattens⟩ := computed_of_synthesized synthesized
  cases same
  exact ⟨synthesized, flattens⟩

/-- An object with an embedded field that is computed. -/
def Descriptor.ownedRule : Descriptor := .record "Rule"
  [.of "name" "name" (.scalar .string),
    { FieldDescriptor.embed "meta" (.record "Meta" [.of "owner" "owner" (.scalar .string)]) with computed := true }]

def Schema.ownedRule : Schema := .object ⟨"Rule", [.plain "name" (.scalar .string),
  { Field.plain "owner" (.scalar .string) with promotedFrom := some "meta" }]⟩

/-- What an embedded field brings along is written and asked for although the embedded field is computed. -/
theorem Descriptor.requires_embeddedComputed : ownedRule.synthesize [] = .ok .ownedRule ∧
    Schema.ownedRule.flatten (.object [("name", .string "x")]) true = .error (.missingRequired "owner") ∧
    Schema.ownedRule.flatten (.object [("name", .string "x"), ("owner", .string "me")]) true =
      .ok (.ofList [("name", .string "x"), ("owner", .string "me")]) :=
  ⟨by decide +kernel, rfl, rfl⟩

end FlatStore
