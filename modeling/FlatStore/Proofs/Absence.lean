import FlatStore.Proofs.Scope

/-!
What is read where nothing is stored. A value that is looked for among others is not there, whatever its schema. A
value that is there in any case, at the root or as an element of a collection, has nothing in it but what its schema
requires: a block has its required fields, each with its zero value, and all other values are still missing
(`Schema.resolve_absent`). Entries elsewhere do not count, also not those under keys that only begin in the same way.
-/
namespace FlatStore

theorem Store.holds_nothing {s : Store} {a : Address} (absent : ∀ key ∈ s.keys, ¬ a.Covers key) : s.Holds a [] := by
  intro slot under value
  refine ⟨fun found => ?_, fun written => by cases written⟩
  have key := Store.mem_keys_iff.2 ⟨value, Store.get?_eq_some_iff.1 found⟩
  exact absurd (Slot.covers_key_iff.2 under) (absent slot.key key)

namespace Schema

/-- What is read of a value that is there in any case and of which nothing is stored: the zero value of an object, and
for a union that of its base. -/
def vacant : Schema → Option Json
  | .object shape => (object shape).zero?
  | .union choice => (object choice.base).zero?
  | .scalar _ | .list _ | .set _ | .map _ => none

variable {s : Store} {schema : Schema} {shape : Shape Schema} {choice : TaggedUnion Schema} {a base : Address}
  {sliced : Bool}

theorem resolveField_nothing (sound : SoundShape shape) (nothing : s.Holds base []) {f : Field Schema}
    (mem : f ∈ shape.fields) : resolveField s.source base f = .ok none := by
  have usable := sound.candidate_usable mem
  rw [resolveField_eq usable]
  refine resolveAt_nothing (sound.field_valid f mem) fun c candidate => ?_
  obtain ⟨name, named, here⟩ := mem_candidatesOf candidate
  rw [here]
  refine ⟨Address.isRoot_member (usable name named), ?_⟩
  exact nothing.narrow (fun slot => Slot.Under.of_member) (by simp) (by simp)

theorem resolveFields_nothing (sound : SoundShape shape) (nothing : s.Holds base []) :
    ∃ members, resolveFields s.source base shape.fields = .ok members ∧
      (object shape).zero? = some (.object (membersOf members)) := by
  refine ⟨filled (fun f => f.fill none) shape.fields, ?_, ?_⟩
  · refine resolveFields_eq_ok_iff.2 ⟨fun f mem => ⟨none, resolveField_nothing sound nothing mem⟩, ?_⟩
    refine List.filterMap_congr fun f mem => ?_
    rw [filledAt_eq (resolveField_nothing sound nothing mem)]
  · have names := names_filled_sublist (fun f => f.fill none) shape.fields
    rw [zero?_object sound, membersOf_eq_of_nodup (names.nodup sound.wireNames_nodup)]

private theorem resolve_object_vacant (valid : (object shape).Valid) (nothing : s.Holds a [])
    (own : (sliced || a.isRoot) = true) : (object shape).resolve s.source a sliced = .ok (object shape).zero? := by
  obtain ⟨members, read, zero⟩ := resolveFields_nothing (valid_object_iff.1 valid) nothing
  have block : a.block sliced = a := by simp [Address.block, own]
  rw [resolve_object, present_of_own own, ok_bind, if_pos rfl, block, read, zero]
  rfl

private theorem resolve_union_vacant (valid : (union choice).Valid) (nothing : s.Holds a [])
    (own : (sliced || a.isRoot) = true) :
    (union choice).resolve s.source a sliced = .ok (object choice.base).zero? := by
  obtain ⟨-, usable, -, -, sound⟩ := valid_union_iff.1 valid
  obtain ⟨members, read, zero⟩ := resolveFields_nothing (sound choice.base List.mem_cons_self) nothing
  have block : a.block sliced = a := by simp [Address.block, own]
  -- there is no tag, so that no variant is chosen and the base is read
  have untagged : resolveVariant s.source choice.discriminator.name (variantReaders s.source choice) sliced
      [⟨a, none⟩] = .ok none := by
    refine resolveVariant_of_skips usable fun c mem => ?_
    rw [List.mem_singleton.1 mem]
    exact skips_of_nothing nothing
  have based : resolveBase s.source choice.discriminator.name (readerOf s.source [] choice.base).read sliced [a] =
      some <$> resolveFields s.source (a.block sliced) choice.base.fields := by
    refine resolveBase_of_present (basePresent_of_opened fun below => ?_) List.mem_cons_self (by simp)
    rw [own] at below
    cases below
  have shared : ([⟨a, none⟩].filter (·.only.isNone)).map Candidate.address = [a] := rfl
  rw [resolve_union, resolveChoice, resolveUnion, untagged, ok_bind]
  dsimp only
  rw [shared, based, block, read, zero]
  rfl

/-- A read never fails where no key of the address is stored. Then the value is not there; at the root or as an element
of a collection an object is its zero value, and a union has the required fields of its base. -/
theorem resolve_absent (valid : schema.Valid) (absent : ∀ key ∈ s.keys, ¬ a.Covers key) :
    schema.resolve s.source a sliced = .ok (if sliced || a.isRoot then schema.vacant else none) := by
  have nothing := Store.holds_nothing absent
  by_cases own : (sliced || a.isRoot) = true
  · rw [if_pos own]
    cases schema with
    | object shape => exact resolve_object_vacant valid nothing own
    | union choice => exact resolve_union_vacant valid nothing own
    | scalar | list | set | map => exact resolve_nothing_unblocked nothing rfl
  · rw [if_neg own]
    obtain ⟨rfl, below⟩ := Bool.or_eq_false_iff.1 (by simpa using own)
    rw [← readAt_single, readAt_false]
    exact resolveAt_nothing valid (by simpa using ⟨below, nothing⟩)

/-- A step of a plan. Each has a label and a set of tags, and a pause also its length. -/
def planStep : Schema :=
  let type : Field Schema := ⟨"type", "type", .scalar .string, true, false, [], none⟩
  let label : Field Schema := ⟨"label", "label", .scalar .string, false, false, ["title"], none⟩
  let tags : Field Schema := ⟨"tags", "tags", .set (.of (.scalar .string)), false, false, [], none⟩
  .union ⟨"Step", ⟨"type", "type"⟩,
    [⟨"Pause", ["pause"], some "pause", ⟨"Pause", [type, label, tags, ⟨"length", "length", .scalar .int, false, false, [],
      none⟩]⟩⟩], ⟨"Step", [type, label, tags]⟩⟩

/-- Nothing is stored of a step beside others whose names begin as its own does. -/
theorem resolve_absent_planStep :
    let a := Address.root.member "step"
    let s := Store.ofList [("steps.#", .int 2), ("step2.label", .string "first"), ("label", .string "plan")]
    planStep.Valid ∧ (∀ key ∈ s.keys, ¬ a.Covers key) ∧ planStep.resolve s.source a false = .ok none ∧
      planStep.resolve s.source a true = .ok (some (.object [("label", .string ""), ("tags", .array [])])) := by
  intro a s
  have valid : planStep.Valid := by decide
  have absent : ∀ key ∈ s.keys, ¬ a.Covers key := by
    have text : a.text = "step" := by decide
    have keys : s.keys = ["steps.#", "step2.label", "label"] := by decide +kernel
    have others : ∀ key ∈ s.keys, key ≠ "step" ∧ key.toList[4]? ≠ some '.' := by
      rw [keys]
      decide
    rintro key mem (root | own | ⟨rest, below⟩)
    · cases root
    · exact (others key mem).1 (own.trans text)
    · apply (others key mem).2
      simp [below, text]
  exact ⟨valid, absent, resolve_absent valid absent, resolve_absent valid absent⟩

end Schema
end FlatStore
