import FlatStore.Proofs.Whole
import FlatStore.Proofs.Written
import FlatStore.Record.Basic

/-!
Schemas that are written to a text and loaded from it. A reader of texts goes no deeper than `Draft.maxDepth`
containers, while a type may nest so deeply that the written form of its schema, with three containers for every
object, goes beyond. Up to that depth the schema of every type is loaded as it was (`Descriptor.reload_synthesized`).
-/
namespace FlatStore

namespace Schema

variable {schema : Schema} {text : List UInt8} {tokens : List Token}

/-- There are no floats in the written form of a schema. -/
theorem exact_toJson (schema : Schema) : schema.toJson.Exact := Json.exact_compositional.schema schema

theorem ofText_of_fits (lexes : Token.Lexes text tokens) (derives : Draft.Derives tokens (.value (.ofJson schema.toJson)))
    (fits : schema.toJson.height ≤ Draft.maxDepth) : decoder.ofText text = .ok schema := by
  rw [Decoder.ofText, Draft.ofBytes, Draft.build_whole lexes derives, Draft.clip_eq_self (by rwa [Nat.zero_add])]
  exact schema.decodeWithin_toJson (Nat.lt_succ_self _) .text

theorem fits_of_ofText {found : Schema} (lexes : Token.Lexes text tokens)
    (derives : Draft.Derives tokens (.value (.ofJson schema.toJson))) (read : decoder.ofText text = .ok found) :
    schema.toJson.height ≤ Draft.maxDepth := by
  rw [Decoder.ofText, Draft.ofBytes, Draft.build_whole lexes derives] at read
  obtain ⟨value, whole⟩ := Tagged.read_of_decoder read
  have fits := Draft.fits_of_read (Nat.zero_le _) whole
  rwa [Nat.zero_add] at fits

theorem lexes_render (schema : Schema) : ∃ tokens, Token.Lexes schema.toJson.render.toUTF8.toList tokens ∧
    Draft.Derives tokens (.value (.ofJson schema.toJson)) := by
  obtain ⟨tokens, lexes, derives⟩ := schema.toJson.renders
  rw [Json.written_eq schema.exact_toJson] at derives
  rw [toList_toUTF8]
  exact ⟨tokens, lexes, derives⟩

end Schema

/-- The schema of a type is loaded from the text that it is written to, exactly if it does not nest too deeply there. It
can address a flat store in either case. -/
theorem Descriptor.reload_synthesized {catalog : Catalog} {type : Descriptor} {schema : Schema}
    (synthesized : type.synthesize catalog = .ok schema) : schema.validate = .ok () ∧
      (schema.toJson.height ≤ Draft.maxDepth →
        Schema.decoder.ofText schema.toJson.render.toUTF8.toList = .ok schema) ∧
      (Draft.maxDepth < schema.toJson.height →
        ∃ problem, Schema.decoder.ofText schema.toJson.render.toUTF8.toList = .error problem) := by
  obtain ⟨tokens, lexes, derives⟩ := schema.lexes_render
  refine ⟨?_, Schema.ofText_of_fits lexes derives, fun deep => ?_⟩
  · obtain ⟨made, -, checked⟩ := bind_eq_ok_iff.1 synthesized
    obtain ⟨valid, same⟩ := then_eq_ok_iff.1 checked
    cases same
    exact valid
  · cases read : Schema.decoder.ofText schema.toJson.render.toUTF8.toList with
    | error problem => exact ⟨problem, rfl⟩
    | ok found => exact absurd (Schema.fits_of_ofText lexes derives read) (Nat.not_le.2 deep)

def Descriptor.nested : Nat → Descriptor
  | 0 => .scalar .string
  | n + 1 => .record "Level" [.of "inner" "inner" (nested n)]

def Schema.nested : Nat → Schema
  | 0 => .scalar .string
  | n + 1 => .object ⟨"Level", [.plain "inner" (nested n)]⟩

theorem Descriptor.reload_synthesized_nested :
    (nested 42).synthesize [] = .ok (Schema.nested 42) ∧
      Schema.decoder.ofText (Schema.nested 42).toJson.render.toUTF8.toList = .ok (Schema.nested 42) := by
  have synthesized : (nested 42).synthesize [] = .ok (Schema.nested 42) := by decide +kernel
  exact ⟨synthesized, (reload_synthesized synthesized).2.1 (by decide +kernel)⟩

/-- One object more, and a type has a schema that is not loaded again. -/
theorem Descriptor.not_reload_nested :
    (nested 43).synthesize [] = .ok (Schema.nested 43) ∧
      ∀ found, Schema.decoder.ofText (Schema.nested 43).toJson.render.toUTF8.toList ≠ .ok found := by
  refine ⟨by decide +kernel, fun found read => ?_⟩
  obtain ⟨tokens, lexes, derives⟩ := (Schema.nested 43).lexes_render
  have fits := Schema.fits_of_ofText lexes derives read
  exact absurd fits (by decide +kernel)

end FlatStore
