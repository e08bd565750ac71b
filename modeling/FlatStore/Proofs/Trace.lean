import FlatStore.Proofs.Address
import FlatStore.Proofs.Document

/-!
Traces. A trace in parts writes what its parts write, up to the first failure (`Trace.failure_indexed`), and whatever a
document writes stands at its address or below it (`Schema.trace_under`).
-/
namespace FlatStore

namespace Trace

variable {first second : Trace}

theorem append_def (first second : Trace) :
    first ++ second = match first.failure with
      | some _ => first
      | none => ⟨first.writes ++ second.writes, second.failure⟩ := rfl

theorem append_of_ok (ok : first.failure = none) :
    first ++ second = ⟨first.writes ++ second.writes, second.failure⟩ := by
  rw [append_def, ok]

theorem failure_append : (first ++ second).failure = none ↔ first.failure = none ∧ second.failure = none := by
  cases failed : first.failure with
  | none => simp [append_of_ok failed]
  | some error => simp [append_def, failed]

theorem mem_writes_append {entry : Slot × Scalar} (mem : entry ∈ (first ++ second).writes) :
    entry ∈ first.writes ∨ entry ∈ second.writes := by
  cases failed : first.failure with
  | none =>
    rw [append_of_ok failed] at mem
    exact List.mem_append.1 mem
  | some error =>
    rw [append_def, failed] at mem
    exact .inl mem

@[simp] theorem failure_empty : empty.failure = none := rfl

section
variable {α : Type} {write : Nat → α → Trace} {i : Nat} {parts : List α}

theorem failure_indexed : (indexed write i parts).failure = none ↔
    ∀ part ∈ parts.zipIdx i, (write part.2 part.1).failure = none := by
  induction parts generalizing i with
  | nil => simp [indexed]
  | cons part rest ih => rw [indexed, failure_append, ih, List.zipIdx_cons, List.forall_mem_cons]

theorem writes_indexed (ok : (indexed write i parts).failure = none) :
    (indexed write i parts).writes = (parts.zipIdx i).flatMap fun part => (write part.2 part.1).writes := by
  induction parts generalizing i with
  | nil => rfl
  | cons part rest ih =>
    rw [indexed, failure_append] at ok
    rw [indexed, append_of_ok ok.1, ih ok.2, List.zipIdx_cons, List.flatMap_cons]

theorem mem_writes_indexed {entry : Slot × Scalar} (mem : entry ∈ (indexed write i parts).writes) :
    ∃ j part, entry ∈ (write j part).writes := by
  induction parts generalizing i with
  | nil => cases mem
  | cons part rest ih =>
    rcases mem_writes_append mem with here | later
    · exact ⟨i, part, here⟩
    · exact ih later

end
end Trace

namespace Schema

variable {omitComputed : Bool} {schema : Schema} {value : Json} {a base : Address} {sliced : Bool}
  {members : List (String × Json)}

/-! ### Equations -/

/-- What one field of a document writes into a block. -/
def traceField (omitComputed : Bool) (members : List (String × Json)) (base : Address) (f : Field Schema) : Trace :=
  if f.computed && omitComputed then .empty
  else .at? (base.append f.name) fun a =>
    match f.value? members with
    | none => if f.optional then .empty else .fail (.missingRequired a.text)
    | some value =>
      match f.schema.segmentOf value with
      | some segment => .at? (a.replaceLast segment) fun a => f.schema.trace omitComputed value a false
      | none => f.schema.trace omitComputed value a false

theorem traceFields_cons (f : Field Schema) (rest : List (Field Schema)) :
    traceFields omitComputed members base (f :: rest) =
      traceField omitComputed members base f ++ traceFields omitComputed members base rest := by
  obtain ⟨name, wireName, schema, optional, computed, aliases, promotedFrom⟩ := f
  rw [traceFields, traceField]
  cases found : members.lookup wireName with
  | none => simp [Field.value?, found]
  | some value => cases value <;> simp only [Field.value?, found] <;> rfl

theorem trace_null : schema.trace omitComputed .null a sliced = .empty := by
  cases schema <;> rfl

theorem trace_scalar {kind : ScalarKind} {leaf : Scalar} (read : Scalar.ofJsonAs? kind value = some leaf) :
    (scalar kind).trace omitComputed value a sliced = .leaf a leaf := by
  cases value with
  | null => cases kind <;> simp [Scalar.ofJsonAs?] at read
  | _ => simp [trace, read]

theorem trace_not_scalar {kind : ScalarKind} (nonnull : value ≠ .null) (unread : Scalar.ofJsonAs? kind value = none) :
    (scalar kind).trace omitComputed value a sliced = mismatch a kind.name value := by
  cases value with
  | null => exact absurd rfl nonnull
  | _ => simp [trace, unread]

theorem trace_items {c : Collection Schema} (form : schema.collection? = some c) (given : List Json) :
    schema.trace omitComputed (.array given) a sliced =
      traceItems (fun item b => c.element.trace omitComputed item b true) c.maxItems c.wrapper a
        (schema.arranged given) := by
  cases schema with
  | list items | set items =>
    cases form
    rfl
  | scalar | map | object | union => simp [collection?] at form

theorem trace_map (element : Schema) (members : List (String × Json)) :
    (map element).trace omitComputed (.object members) a sliced =
      traceEntries (fun value b =>
        if element.isBlock then element.trace omitComputed value b true
        else element.trace omitComputed value (b.member mapValueField) false) a members := by
  have values : ∀ b : Address, b.member mapValueField = b.field mapValueName :=
    fun b => (Address.field_eq_member b mapValueName).symm
  simp only [values]
  rfl

theorem trace_block (block : schema.isBlock = true) (members : List (String × Json)) :
    schema.trace omitComputed (.object members) a sliced =
      .openBlock a sliced ++ traceFields omitComputed members (a.block sliced) (schema.shapeFor members).fields := by
  cases schema with
  | object shape => rfl
  | union choice =>
    obtain ⟨name, discriminator, variants, ⟨baseName, baseFields⟩⟩ := choice
    refine congrArg (Trace.openBlock a sliced ++ ·) ?_
    cases tagged : tagOf discriminator members with
    | none => simp [shapeFor, TaggedUnion.shapeOf, tagged]
    | some tag =>
      simp only [shapeFor, TaggedUnion.shapeOf, TaggedUnion.variant?, tagged, Option.bind_some, traceVariant_eq_find?]
      cases variants.find? (·.values.contains tag) <;> rfl
  | scalar | list | set | map => simp [isBlock] at block

theorem trace_not_array {c : Collection Schema} (form : schema.collection? = some c) (nonnull : value ≠ .null)
    (other : ∀ given, value ≠ .array given) : schema.trace omitComputed value a sliced = mismatch a "array" value := by
  cases schema with
  | list items | set items =>
    cases value with
    | null => exact absurd rfl nonnull
    | array given => exact absurd rfl (other given)
    | _ => rfl
  | scalar | map | object | union => simp [collection?] at form

theorem trace_not_object (form : schema.isBlock = true ∨ ∃ element, schema = .map element) (nonnull : value ≠ .null)
    (other : ∀ members, value ≠ .object members) :
    schema.trace omitComputed value a sliced = mismatch a "object" value := by
  cases schema with
  | map | object | union =>
    cases value with
    | null => exact absurd rfl nonnull
    | object members => exact absurd rfl (other members)
    | _ => rfl
  | scalar | list | set => simp [isBlock] at form

theorem unwrap_of_wraps {c : Collection Schema} {item : Json} (wraps : c.Wraps item) (element : Json → Address → Trace)
    (i : Nat) : traceItems.unwrap element c.wrapper a i item = element (c.unwrap item) (a.index i) := by
  unfold traceItems.unwrap Collection.unwrap
  rcases wraps with bare | ⟨members, rfl⟩
  · rw [bare]
  · cases c.wrapper <;> rfl

theorem unwrap_of_not_wraps {c : Collection Schema} {item : Json} (bare : ¬ c.Wraps item)
    (element : Json → Address → Trace) (i : Nat) :
    ∃ error, traceItems.unwrap element c.wrapper a i item = .fail error := by
  unfold traceItems.unwrap
  cases wrapper : c.wrapper with
  | none => exact absurd (.inl wrapper) bare
  | some name =>
    cases item with
    | object members => exact absurd (.inr ⟨members, rfl⟩) bare
    | _ => exact ⟨_, rfl⟩

/-! ### Where a document writes -/

theorem traceFields_nil : traceFields omitComputed members base [] = .empty := rfl

/-- Members that each field reads alike are written alike. -/
theorem traceFields_congr {first second : List (String × Json)} {fields : List (Field Schema)}
    (same : ∀ f ∈ fields, traceField omitComputed first base f = traceField omitComputed second base f) :
    traceFields omitComputed first base fields = traceFields omitComputed second base fields := by
  induction fields with
  | nil => rfl
  | cons f rest ih =>
    obtain ⟨here, later⟩ := List.forall_mem_cons.1 same
    rw [traceFields_cons, traceFields_cons, here, ih later]

/-- Fields that are all accepted leave it to the last one to fail. -/
theorem failure_traceFields_concat {fields : List (Field Schema)} {last : Field Schema}
    (ok : ∀ f ∈ fields, (traceField omitComputed members base f).failure = none) :
    (traceFields omitComputed members base (fields ++ [last])).failure =
      (traceField omitComputed members base last).failure := by
  induction fields with
  | nil =>
    rw [List.nil_append, traceFields_cons, traceFields_nil]
    cases failed : (traceField omitComputed members base last).failure with
    | none => rw [Trace.append_of_ok failed, Trace.failure_empty]
    | some error => rw [Trace.append_def, failed, failed]
  | cons f rest ih =>
    obtain ⟨here, later⟩ := List.forall_mem_cons.1 ok
    rw [List.cons_append, traceFields_cons, Trace.append_of_ok here, ih later]

/-- What a field writes is what its value writes at one of the places of the field, if it writes anything. -/
theorem mem_traceField {f : Field Schema} {entry : Slot × Scalar}
    (mem : entry ∈ (traceField omitComputed members base f).writes) :
    ∃ value name, f.value? members = some value ∧
      entry ∈ (f.schema.trace omitComputed value (base.member name) false).writes := by
  unfold traceField at mem
  split at mem
  · cases mem
  · cases named : base.append f.name with
    | error fault => simp [named, Trace.at?, Trace.fail] at mem
    | ok a =>
      obtain ⟨usable, rfl⟩ := Address.append_eq_ok_iff.1 named
      simp only [named, Trace.at?] at mem
      cases found : f.value? members with
      | none =>
        cases optional : f.optional <;> simp [found, optional, Trace.fail, Trace.empty] at mem
      | some value =>
        simp only [found] at mem
        cases moved : f.schema.segmentOf value with
        | none => exact ⟨value, f.name, rfl, by simpa [moved] using mem⟩
        | some segment =>
          by_cases segment_usable : isFieldName segment = true
          · simp only [moved, Address.replaceLast_eq usable segment_usable] at mem
            exact ⟨value, segment, rfl, mem⟩
          · simp [moved, Address.replaceLast, FieldName.of, segment_usable, bind, Except.bind, Trace.fail] at mem

theorem mem_traceFields {fields : List (Field Schema)} {entry : Slot × Scalar}
    (mem : entry ∈ (traceFields omitComputed members base fields).writes) :
    ∃ f ∈ fields, entry ∈ (traceField omitComputed members base f).writes := by
  induction fields with
  | nil => cases mem
  | cons f rest ih =>
    rw [traceFields_cons] at mem
    rcases Trace.mem_writes_append mem with here | later
    · exact ⟨f, List.mem_cons_self, here⟩
    · obtain ⟨g, held, there⟩ := ih later
      exact ⟨g, List.mem_cons_of_mem _ held, there⟩

/-- A block that is not the value itself is opened by its count. -/
theorem mem_openBlock_iff {entry : Slot × Scalar} : entry ∈ (Trace.openBlock a sliced).writes ↔
    (sliced || a.isRoot) = false ∧ entry = (.count a, .int 1) := by
  unfold Trace.openBlock
  split
  · next slice => simp [Trace.empty, slice]
  · next own => simpa [Trace.count] using fun _ => by simpa using own

theorem openBlock_under {entry : Slot × Scalar} (mem : entry ∈ (Trace.openBlock a sliced).writes) :
    entry.1.Under a := by
  obtain ⟨-, rfl⟩ := mem_openBlock_iff.1 mem
  exact Slot.under_self (.count a)

private theorem traceItems_under {element : Json → Address → Trace} {maxItems : Option UInt64}
    {wrapper : Option String} {items : List Json}
    (inner : ∀ item b, ∀ entry ∈ (element item b).writes, entry.1.Under b) :
    ∀ entry ∈ (traceItems element maxItems wrapper a items).writes, entry.1.Under a := by
  intro entry mem
  have written : entry ∈ (traceItems.write element wrapper a items).writes := by
    unfold traceItems at mem
    split at mem
    · split at mem
      · cases mem
      · exact mem
    · exact mem
  rcases Trace.mem_writes_append written with mem | mem
  · obtain rfl := List.mem_singleton.1 mem
    exact Slot.under_self _
  · obtain ⟨i, item, mem⟩ := Trace.mem_writes_indexed mem
    unfold traceItems.unwrap at mem
    split at mem
    · exact Slot.Under.of_child (inner _ _ entry mem)
    · exact Slot.Under.of_child (inner _ _ entry mem)
    · cases mem

private theorem traceEntries_under {element : Json → Address → Trace}
    (inner : ∀ value b, ∀ entry ∈ (element value b).writes, entry.1.Under b) :
    ∀ entry ∈ (traceEntries element a members).writes, entry.1.Under a := by
  intro entry mem
  rcases Trace.mem_writes_append mem with mem | mem
  · obtain rfl := List.mem_singleton.1 mem
    exact Slot.under_self _
  · obtain ⟨i, ⟨key, value⟩, mem⟩ := Trace.mem_writes_indexed mem
    rcases Trace.mem_writes_append mem with mem | mem
    · obtain rfl := List.mem_singleton.1 mem
      exact Slot.Under.of_child (Slot.Under.of_child (Slot.under_self _))
    · exact Slot.Under.of_child (inner _ _ entry mem)

/-- A list or a set writes nothing but an array. -/
theorem exists_array_of_mem {c : Collection Schema} (form : schema.collection? = some c) {entry : Slot × Scalar}
    (mem : entry ∈ (schema.trace omitComputed value a sliced).writes) : ∃ given, value = .array given := by
  by_cases array : ∃ given, value = .array given
  · exact array
  · by_cases null : value = .null
    · simp [null, trace_null, Trace.empty] at mem
    · rw [trace_not_array form null (not_exists.1 array)] at mem
      cases mem

/-- A map or a block writes nothing but an object. -/
theorem exists_object_of_mem (form : schema.isBlock = true ∨ ∃ element, schema = .map element)
    {entry : Slot × Scalar} (mem : entry ∈ (schema.trace omitComputed value a sliced).writes) :
    ∃ members, value = .object members := by
  by_cases object : ∃ members, value = .object members
  · exact object
  · by_cases null : value = .null
    · simp [null, trace_null, Trace.empty] at mem
    · rw [trace_not_object form null (not_exists.1 object)] at mem
      cases mem

/-- A document writes at its address or below it, also where it does not fit the schema. -/
theorem trace_under (schema : Schema) (value : Json) (a : Address) (sliced : Bool) :
    ∀ entry ∈ (schema.trace omitComputed value a sliced).writes, entry.1.Under a := by
  induction schema using formInduction generalizing value a sliced with
  | scalar kind =>
    intro entry mem
    by_cases null : value = .null
    · simp [null, trace_null, Trace.empty] at mem
    · cases read : Scalar.ofJsonAs? kind value with
      | some leaf =>
        rw [trace_scalar read] at mem
        obtain rfl := List.mem_singleton.1 mem
        exact Slot.under_self _
      | none =>
        rw [trace_not_scalar null read] at mem
        cases mem
  | items schema c form ih =>
    intro entry mem
    obtain ⟨given, rfl⟩ := exists_array_of_mem form mem
    rw [trace_items form] at mem
    exact traceItems_under (fun item b entry mem => ih item b true entry mem) entry mem
  | map element ih =>
    intro entry mem
    obtain ⟨members, rfl⟩ := exists_object_of_mem (.inr ⟨element, rfl⟩) mem
    rw [trace_map] at mem
    refine traceEntries_under (fun value b entry mem => ?_) entry mem
    split at mem
    · exact ih value b true entry mem
    · exact (ih value _ false entry mem).of_member
  | block schema block ih =>
    intro entry mem
    obtain ⟨members, rfl⟩ := exists_object_of_mem (.inl block) mem
    rw [trace_block block] at mem
    rcases Trace.mem_writes_append mem with mem | mem
    · exact openBlock_under mem
    · obtain ⟨f, held, mem⟩ := mem_traceFields mem
      obtain ⟨value, name, -, mem⟩ := mem_traceField mem
      exact (ih _ (shapeFor_mem_shapes block members) f held value _ false entry mem).of_member.of_block

end Schema
end FlatStore
