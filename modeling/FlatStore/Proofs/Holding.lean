import FlatStore.Proofs.Resolving
import FlatStore.Proofs.Restorable

/-!
What a store holds for a reader. A block is read field by field, so that all that counts are the slots below the
candidate names of its fields (`Store.HoldsField`); there a store of a document holds what the field has written
(`Store.Holds.shows`), also where the key of a map entry stands beside the fields (`Store.Holds.shows_entry`).
-/
namespace FlatStore

/-! ### Shares of writes -/

/-- What a field of a block has written under a name. -/
def Field.writesAt (f : Field Schema) (members : List (String × Json)) (base : Address) (name : String) : Writes :=
  match f.value? members with
  | some value => if f.place value = name then Schema.heldWrites base (f, value) else []
  | none => []

namespace Store

/-- Whether a store holds what a field of a block has written, and nothing else under the names of the field. -/
def HoldsField (s : Store) (base : Address) (members : List (String × Json)) (f : Field Schema) : Prop :=
  ∀ name ∈ f.candidateNames, s.Holds (base.member name) (f.writesAt members base name)

/-- Whether a store holds what the reader of a schema looks at: for a block its count, if it has one of its own, and
the fields of its shape, and otherwise all there is. -/
def Shows (s : Store) (schema : Schema) (value : Json) (a : Address) (sliced : Bool) : Prop :=
  if schema.isBlock then
    ((sliced || a.isRoot) = false → s.get? a.countKey = some (.int 1)) ∧
      ∀ members, value = .object members → ∀ f ∈ (schema.shapeFor members).fields,
        s.HoldsField (a.block sliced) members f
  else s.Holds a (schema.writes value a sliced)

theorem shows_block_iff {s : Store} {schema : Schema} {members : List (String × Json)} {a : Address} {sliced : Bool}
    (block : schema.isBlock = true) : s.Shows schema (.object members) a sliced ↔
      ((sliced || a.isRoot) = false → s.get? a.countKey = some (.int 1)) ∧
        ∀ f ∈ (schema.shapeFor members).fields, s.HoldsField (a.block sliced) members f := by
  rw [Shows, if_pos block]
  simp

theorem shows_iff {s : Store} {schema : Schema} {value : Json} {a : Address} {sliced : Bool}
    (other : schema.isBlock = false) :
    s.Shows schema value a sliced ↔ s.Holds a (schema.writes value a sliced) := by
  rw [Shows, if_neg (by rw [other]; decide)]

end Store

namespace Schema

theorem SoundShape.candidate_usable {shape : Shape Schema} (sound : SoundShape shape) {f : Field Schema}
    (mem : f ∈ shape.fields) : ∀ name ∈ f.candidateNames, isFieldName name = true := by
  intro name candidate
  rcases List.mem_append.1 candidate with own | former
  · rcases List.mem_cons.1 own with rfl | owned
    · exact sound.name_usable f mem
    · obtain ⟨⟨i, segment⟩, held, rfl⟩ := List.mem_map.1 owned
      cases schema_eq : f.schema with
      | union choice =>
        have valid := sound.field_valid f mem
        rw [schema_eq] at held valid
        obtain ⟨v, here, stored⟩ := mem_variantSegments_iff.1 held
        exact (valid_union_iff.1 valid).2.2.2.1 v (List.mem_of_getElem? here) segment stored
      | scalar | list | set | map | object => simp [schema_eq, variantSegments] at held
  · exact sound.alias_usable f mem name former

variable {schema : Schema} {value : Json} {members : List (String × Json)} {a base : Address} {sliced : Bool}
  {shape : Shape Schema} {f : Field Schema} {name : String}

theorem mem_writesAt_iff (separate : schema.Separate) (shape_mem : shape ∈ schema.shapes) (sound : SoundShape shape)
    (mem : f ∈ shape.fields) (candidate : name ∈ f.candidateNames) {entry : Slot × Scalar}
    (under : entry.1.Under (base.member name)) :
    entry ∈ (heldFields members shape.fields).flatMap (heldWrites base) ↔ entry ∈ f.writesAt members base name := by
  have usable := sound.candidate_usable mem name candidate
  constructor
  · intro written
    obtain ⟨⟨g, v⟩, held, written⟩ := List.mem_flatMap.1 written
    obtain ⟨declared, found⟩ := mem_heldFields_iff.1 held
    have place : g.place v = name :=
      (heldWrites_under _ written).member_eq (sound.place_usable declared v) usable under
    have own : name ∈ g.candidateNames := place ▸ place_mem_candidateNames g v
    obtain rfl := (separate schema (.self _) shape shape_mem).eq_of_candidate declared mem own candidate
    simpa [Field.writesAt, found, place] using written
  · intro written
    unfold Field.writesAt at written
    cases found : f.value? members with
    | none => simp [found] at written
    | some v =>
      by_cases place : f.place v = name
      · simp only [found, place, if_true] at written
        exact List.mem_flatMap.2 ⟨(f, v), mem_heldFields_iff.2 ⟨mem, found⟩, written⟩
      · simp [found, place] at written

/-- A store that holds the writes of a block, and others besides that do not concern its fields, holds each field. -/
theorem holdsField_of_holds {s : Store} {writes : Writes} (extra : Writes) (holds : s.Holds a (extra ++ writes))
    (within : ∀ slot : Slot, slot.Under base → slot.Under a) (separate : schema.Separate)
    (shape_mem : shape ∈ schema.shapes) (sound : SoundShape shape)
    (fields : writes = (heldFields members shape.fields).flatMap (heldWrites base)) (mem : f ∈ shape.fields)
    (beside : ∀ entry ∈ extra, ∀ name ∈ f.candidateNames, ¬ entry.1.Under (base.member name)) :
    s.HoldsField base members f := by
  intro name candidate slot under v
  have share : (slot, v) ∈ (heldFields members shape.fields).flatMap (heldWrites base) ↔
      (slot, v) ∈ f.writesAt members base name :=
    mem_writesAt_iff separate shape_mem sound mem candidate under
  rw [holds slot (within slot under.of_member), List.mem_append, fields, share]
  exact or_iff_right fun also => beside _ also name candidate under

end Schema

/-! ### What is shown of a document -/

namespace Store

variable {s : Store} {schema : Schema} {value : Json} {a : Address} {sliced : Bool}

theorem Holds.shows (holds : s.Holds a (schema.writes value a sliced)) (valid : schema.Valid)
    (separate : schema.Separate) (ok : schema.Accepts value a sliced) (nonnull : value ≠ .null) :
    s.Shows schema value a sliced := by
  cases block : schema.isBlock with
  | true =>
    obtain ⟨members, rfl, -, -, written⟩ := ok.block block valid nonnull
    have shape_mem := Schema.shapeFor_mem_shapes block members
    have sound := valid.soundShape shape_mem
    rw [written] at holds
    refine (shows_block_iff block).2 ⟨fun own => ?_, fun f mem => ?_⟩
    · have opened := Schema.mem_openBlock_iff.2 ⟨own, rfl⟩
      exact (holds.get?_count _).2 (List.mem_append_left _ opened)
    · refine Schema.holdsField_of_holds _ holds (fun slot => Slot.Under.of_block) separate shape_mem sound rfl mem ?_
      intro entry opened name candidate
      have count := (Schema.mem_openBlock_iff.1 opened).2
      exact Slot.not_under_block_member (sound.candidate_usable mem name candidate) (congrArg (·.1.address) count)
  | false => exact (shows_iff block).2 holds

theorem Holds.element {α : Type} {write : α × Nat → Writes} {parts : List α} {count : Scalar}
    (holds : s.Holds a ((.count a, count) :: parts.zipIdx.flatMap write))
    (below : ∀ part, ∀ entry ∈ write part, entry.1.Under (a.index part.2)) {part : α × Nat}
    (mem : part ∈ parts.zipIdx) : s.Holds (a.index part.2) (write part) := by
  have child : ∀ slot : Slot, slot.Under (a.index part.2) → slot.Under a := fun slot => Slot.Under.of_child
  refine holds.narrow child (fun entry written under => ?_) fun entry written => ?_
  · rcases List.mem_cons.1 written with rfl | written
    · exact absurd under (Slot.not_under_child (a := a) rfl)
    · obtain ⟨other, held, written⟩ := List.mem_flatMap.1 written
      have index : other.2 = part.2 := Segment.index.inj ((below other entry written).child_eq under)
      have same : some other.1 = some part.1 := by
        rw [← List.mem_zipIdx_iff_getElem?.1 mem, ← List.mem_zipIdx_iff_getElem?.1 held, index]
      rwa [← Prod.ext (Option.some.inj same) index]
  · exact List.mem_cons_of_mem _ (List.mem_flatMap.2 ⟨part, mem, written⟩)

/-- The value of a map entry is shown beside the key of the entry. -/
theorem Holds.shows_entry {element : Schema} {member : String × Json}
    (holds : s.Holds a (element.entryWrites a member)) (valid : element.Valid) (separate : element.Separate)
    (keys : ∀ shape ∈ element.shapes, ∀ f ∈ shape.fields, mapKeyField ∉ f.candidateNames)
    (ok : element.Accepts member.2 (element.entryAddress a) element.isBlock) (nonnull : member.2 ≠ .null) :
    s.Shows element member.2 (element.entryAddress a) element.isBlock := by
  have key := Slot.under_self (.leaf (a.member mapKeyField))
  unfold Schema.entryWrites at holds
  unfold Schema.entryAddress at holds ok ⊢
  by_cases block : element.isBlock = true
  · simp only [block, if_true] at holds ok
    obtain ⟨members, eq, -, -, written⟩ := ok.block block valid nonnull
    have shape_mem := Schema.shapeFor_mem_shapes block members
    rw [written] at holds
    rw [if_pos block, block, eq]
    refine (shows_block_iff block).2 ⟨by simp, fun f mem => ?_⟩
    have sound := valid.soundShape shape_mem
    refine Schema.holdsField_of_holds [_] holds (fun slot => Slot.Under.of_block) separate shape_mem sound
      rfl mem ?_
    intro entry also name candidate under
    obtain rfl := List.mem_singleton.1 also
    have same := key.member_eq (by decide) (sound.candidate_usable mem name candidate) under
    exact keys _ shape_mem f mem (same ▸ candidate)
  · simp only [block, Bool.false_eq_true, if_false] at holds
    rw [if_neg block]
    rw [Bool.not_eq_true] at block
    refine (shows_iff block).2 fun slot under v => ?_
    have values : slot.Under a := under.of_member
    rw [holds slot values, List.mem_cons, block]
    refine or_iff_right fun also => ?_
    have differ : mapKeyField ≠ mapValueField := by decide
    cases also
    exact differ (key.member_eq (by decide) (by decide) under)

end Store
end FlatStore
