import FlatStore.Proofs.Trace
import Mathlib.Data.List.Nodup

/-!
Accepted documents. A document that fits its schema has the form that the schema asks for, its parts are accepted too,
and it writes the entries of its parts one after another. There is one statement for each way in which schemas store
documents (`Accepts.scalar`, `Accepts.items`, `Accepts.map`, `Accepts.block`); what else is shown of accepted documents
is shown from these.
-/
namespace FlatStore

/-- What is written where. -/
abbrev Writes := List (Slot × Scalar)

namespace Schema

/-- Whether a document fits a schema. -/
def Accepts (schema : Schema) (value : Json) (a : Address) (sliced : Bool) : Prop :=
  (schema.trace false value a sliced).failure = none

/-- What a document writes. -/
def writes (schema : Schema) (value : Json) (a : Address) (sliced : Bool) : Writes :=
  (schema.trace false value a sliced).writes

/-- The address at which a map stores the value of an entry. A block is sliced out of its entry. -/
def entryAddress (element : Schema) (entry : Address) : Address :=
  if element.isBlock then entry else entry.member mapValueField

/-- What the entry of a map writes: its key and its value. -/
def entryWrites (element : Schema) (entry : Address) (member : String × Json) : Writes :=
  (.leaf (entry.member mapKeyField), .string member.1) ::
    element.writes member.2 (element.entryAddress entry) element.isBlock

/-- What a field with a value writes into a block. -/
def heldWrites (base : Address) (held : Field Schema × Json) : Writes :=
  held.1.schema.writes held.2 (base.member (held.1.place held.2)) false

variable {schema : Schema} {value : Json} {a base : Address} {sliced : Bool} {members : List (String × Json)}

@[simp] theorem writes_null : schema.writes .null a sliced = [] := by
  rw [writes, trace_null]
  rfl

theorem writes_under : ∀ entry ∈ schema.writes value a sliced, entry.1.Under a :=
  trace_under schema value a sliced

theorem entryWrites_under {element : Schema} {member : String × Json} :
    ∀ entry ∈ entryWrites element a member, entry.1.Under a := by
  intro entry mem
  rcases List.mem_cons.1 mem with rfl | mem
  · exact (Slot.under_self (.leaf (a.member mapKeyField))).of_member
  · have under := writes_under entry mem
    unfold entryAddress at under
    split at under
    · exact under
    · exact under.of_member

theorem heldWrites_under {held : Field Schema × Json} :
    ∀ entry ∈ heldWrites base held, entry.1.Under (base.member (held.1.place held.2)) :=
  writes_under

/-! ### Leaves -/

theorem Accepts.scalar {kind : ScalarKind} (ok : (Schema.scalar kind).Accepts value a sliced) (nonnull : value ≠ .null) :
    ∃ leaf, Scalar.ofJsonAs? kind value = some leaf ∧ (Schema.scalar kind).writes value a sliced = [(.leaf a, leaf)] := by
  cases read : Scalar.ofJsonAs? kind value with
  | none =>
    rw [Accepts, trace_not_scalar nonnull read] at ok
    cases ok
  | some leaf =>
    refine ⟨leaf, rfl, ?_⟩
    rw [writes, trace_scalar read]
    rfl

/-! ### Collections -/

/-- What is written of items that all fit, and are no more than the collection takes. -/
theorem traceItems_ok {c : Collection Schema} {element : Json → Address → Trace} {items : List Json}
    (ok : (traceItems element c.maxItems c.wrapper a items).failure = none) :
    (∀ max ∈ c.maxItems, items.length ≤ max.toNat) ∧ (∀ item ∈ items, c.Wraps item) ∧
      (∀ part ∈ items.zipIdx, (element (c.unwrap part.1) (a.index part.2)).failure = none) ∧
      (traceItems element c.maxItems c.wrapper a items).writes = (.count a, .int (.ofNat items.length)) ::
        items.zipIdx.flatMap fun part => (element (c.unwrap part.1) (a.index part.2)).writes := by
  have within : ∀ max ∈ c.maxItems, ¬ max.toNat < items.length := by
    intro max bound exceeded
    rw [Option.mem_def] at bound
    unfold traceItems at ok
    simp [bound, exceeded, Trace.fail] at ok
  have written : traceItems element c.maxItems c.wrapper a items = traceItems.write element c.wrapper a items := by
    unfold traceItems
    cases bound : c.maxItems with
    | none => rfl
    | some max => exact if_neg (within max bound)
  rw [written, traceItems.write, Trace.failure_append] at ok
  -- an item without its wrapper would have failed
  have each := Trace.failure_indexed.1 ok.2
  have wraps : ∀ item ∈ items, c.Wraps item := by
    intro item mem
    by_contra bare
    obtain ⟨i, indexed⟩ := exists_index mem
    obtain ⟨error, failed⟩ := unwrap_of_not_wraps bare element (a := a) i
    have failure := each (item, i) indexed
    rw [failed] at failure
    cases failure
  have unwrapped : ∀ part ∈ items.zipIdx, traceItems.unwrap element c.wrapper a part.2 part.1 =
      element (c.unwrap part.1) (a.index part.2) :=
    fun part mem => unwrap_of_wraps (wraps part.1 (List.fst_mem_of_mem_zipIdx mem)) element part.2
  refine ⟨fun max bound => Nat.not_lt.1 (within max bound), wraps, fun part mem => ?_, ?_⟩
  · rw [← unwrapped part mem]
    exact each part mem
  · rw [written, traceItems.write, Trace.append_of_ok ok.1, Trace.writes_indexed ok.2]
    refine congrArg (_ :: ·) (List.flatMap_congr fun part mem => ?_)
    rw [unwrapped part mem]

theorem Accepts.items {c : Collection Schema} (form : schema.collection? = some c)
    (ok : schema.Accepts value a sliced) (nonnull : value ≠ .null) :
    ∃ given, value = .array given ∧ (∀ max ∈ c.maxItems, given.length ≤ max.toNat) ∧ (∀ item ∈ given, c.Wraps item) ∧
      (∀ part ∈ (schema.arranged given).zipIdx, c.element.Accepts (c.unwrap part.1) (a.index part.2) true) ∧
      schema.writes value a sliced = (.count a, .int (.ofNat given.length)) ::
        (schema.arranged given).zipIdx.flatMap fun part =>
          c.element.writes (c.unwrap part.1) (a.index part.2) true := by
  have array : ∃ given, value = .array given := by
    by_contra other
    rw [Accepts, trace_not_array form nonnull (not_exists.1 other)] at ok
    cases ok
  obtain ⟨given, rfl⟩ := array
  have arranged := schema.arranged_perm given
  rw [Accepts, trace_items form] at ok
  obtain ⟨within, wraps, accepted, written⟩ := traceItems_ok ok
  rw [arranged.length_eq] at within written
  refine ⟨given, rfl, within, fun item mem => wraps item (arranged.mem_iff.2 mem), accepted, ?_⟩
  rw [writes, trace_items form]
  exact written

/-! ### Maps -/

theorem trace_entry (element : Schema) (value : Json) (entry : Address) :
    (if element.isBlock then element.trace false value entry true
      else element.trace false value (entry.member mapValueField) false) =
        element.trace false value (element.entryAddress entry) element.isBlock := by
  cases block : element.isBlock <;> simp [entryAddress, block]

theorem Accepts.map {element : Schema} (ok : (Schema.map element).Accepts value a sliced) (nonnull : value ≠ .null) :
    ∃ members, value = .object members ∧
      (∀ part ∈ (mapOrder members).zipIdx,
        element.Accepts part.1.2 (element.entryAddress (a.index part.2)) element.isBlock) ∧
      (Schema.map element).writes value a sliced = (.count a, .int (.ofNat members.length)) ::
        (mapOrder members).zipIdx.flatMap fun part => element.entryWrites (a.index part.2) part.1 := by
  have object : ∃ members, value = .object members := by
    by_contra other
    rw [Accepts, trace_not_object (.inr ⟨element, rfl⟩) nonnull (not_exists.1 other)] at ok
    cases ok
  obtain ⟨members, rfl⟩ := object
  simp only [Accepts, trace_map, traceEntries, trace_entry, Address.field_eq_member, mapKeyName, Trace.failure_append,
    Trace.failure_indexed] at ok
  refine ⟨members, rfl, fun part mem => (ok.2 part mem).2, ?_⟩
  simp only [writes, trace_map, traceEntries, trace_entry, Address.field_eq_member, mapKeyName]
  rw [Trace.append_of_ok ok.1, Trace.writes_indexed (Trace.failure_indexed.2 fun part mem =>
    Trace.failure_append.2 (ok.2 part mem))]
  refine congrArg (_ :: ·) (List.flatMap_congr fun part mem => ?_)
  rw [Trace.append_of_ok (ok.2 part mem).1]
  rfl

/-! ### Blocks -/

theorem SoundShape.place_usable {shape : Shape Schema} (sound : SoundShape shape) {f : Field Schema}
    (mem : f ∈ shape.fields) (value : Json) : isFieldName (f.place value) = true := by
  unfold Field.place
  cases moved : f.schema.segmentOf value with
  | none => exact sound.name_usable f mem
  | some segment =>
    obtain ⟨choice, members, tag, v, eq, -, -, selected, stored⟩ := segmentOf_eq_some_iff.1 moved
    have valid := sound.field_valid f mem
    rw [eq, valid_union_iff] at valid
    exact valid.2.2.2.1 v (List.mem_of_find?_eq_some selected) segment stored

/-- A field with a value writes it at its place. -/
theorem traceField_eq {shape : Shape Schema} (sound : SoundShape shape) {f : Field Schema} (mem : f ∈ shape.fields)
    (members : List (String × Json)) (base : Address) : traceField false members base f = match f.value? members with
      | some value => f.schema.trace false value (base.member (f.place value)) false
      | none => if f.optional then .empty else .fail (.missingRequired (base.member f.name).text) := by
  have usable := sound.name_usable f mem
  rw [traceField, Address.append_eq usable]
  cases found : f.value? members with
  | none => simp [Trace.at?]
  | some value =>
    have place := sound.place_usable mem value
    cases moved : f.schema.segmentOf value with
    | none => simp [Trace.at?, Field.place, moved]
    | some segment =>
      rw [Field.place, moved, Option.getD_some] at place
      simp [Trace.at?, Field.place, moved, Address.replaceLast_eq usable place]

private theorem traceFields_ok {shape : Shape Schema} (sound : SoundShape shape) {fields : List (Field Schema)}
    (subset : fields ⊆ shape.fields) (ok : (traceFields false members base fields).failure = none) :
    (∀ f ∈ fields, f.optional = false → f.value? members ≠ none) ∧
      (∀ held ∈ heldFields members fields,
        held.1.schema.Accepts held.2 (base.member (held.1.place held.2)) false) ∧
      (traceFields false members base fields).writes = (heldFields members fields).flatMap (heldWrites base) := by
  induction fields with
  | nil => simp [heldFields, traceFields_nil, Trace.empty]
  | cons f rest ih =>
    rw [traceFields_cons, Trace.failure_append] at ok
    obtain ⟨required, accepted, written⟩ := ih (List.subset_of_cons_subset subset) ok.2
    have equation := traceField_eq sound (subset List.mem_cons_self) members base
    rw [traceFields_cons, Trace.append_of_ok ok.1, written]
    rw [equation] at ok ⊢
    cases found : f.value? members with
    | none =>
      have optional : f.optional = true := by
        by_contra required
        rw [found] at ok
        simp [required, Trace.fail] at ok
      have skipped : heldFields members (f :: rest) = heldFields members rest := by simp [heldFields, found]
      rw [skipped]
      refine ⟨List.forall_mem_cons.2 ⟨by simp [optional], required⟩, accepted, ?_⟩
      simp [optional, Trace.empty]
    | some value =>
      have taken : heldFields members (f :: rest) = (f, value) :: heldFields members rest := by
        simp [heldFields, found]
      rw [taken, List.flatMap_cons]
      rw [found] at ok
      exact ⟨List.forall_mem_cons.2 ⟨by simp [found], required⟩, List.forall_mem_cons.2 ⟨ok.1, accepted⟩, rfl⟩

theorem Accepts.block (block : schema.isBlock = true) (valid : schema.Valid) (ok : schema.Accepts value a sliced)
    (nonnull : value ≠ .null) :
    ∃ members, value = .object members ∧
      (∀ f ∈ (schema.shapeFor members).fields, f.optional = false → f.value? members ≠ none) ∧
      (∀ held ∈ heldFields members (schema.shapeFor members).fields,
        held.1.schema.Accepts held.2 ((a.block sliced).member (held.1.place held.2)) false) ∧
      schema.writes value a sliced = (Trace.openBlock a sliced).writes ++
        (heldFields members (schema.shapeFor members).fields).flatMap (heldWrites (a.block sliced)) := by
  have object : ∃ members, value = .object members := by
    by_contra other
    rw [Accepts, trace_not_object (.inl block) nonnull (not_exists.1 other)] at ok
    cases ok
  obtain ⟨members, rfl⟩ := object
  rw [Accepts, trace_block block, Trace.failure_append] at ok
  have sound := valid.soundShape (shapeFor_mem_shapes block members)
  obtain ⟨required, accepted, written⟩ := traceFields_ok sound (List.Subset.refl _) ok.2
  refine ⟨members, rfl, required, accepted, ?_⟩
  rw [writes, trace_block block, Trace.append_of_ok ok.1, written]

/-! ### Documents that write something -/

/-- What is not null writes something, unless it is a block that is not opened. -/
theorem Accepts.writes_ne_nil (valid : schema.Valid) (ok : schema.Accepts value a sliced) (nonnull : value ≠ .null)
    (own : schema.isBlock = true → (sliced || a.isRoot) = false) : schema.writes value a sliced ≠ [] := by
  induction schema using formInduction with
  | scalar kind =>
    obtain ⟨leaf, -, written⟩ := ok.scalar nonnull
    simp [written]
  | items schema c form =>
    obtain ⟨given, -, -, -, -, written⟩ := ok.items form nonnull
    simp [written]
  | map element =>
    obtain ⟨members, -, -, written⟩ := ok.map nonnull
    simp [written]
  | block schema block =>
    obtain ⟨members, -, -, -, written⟩ := ok.block block valid nonnull
    have opened : (.count a, .int 1) ∈ (Trace.openBlock a sliced).writes := mem_openBlock_iff.2 ⟨own block, rfl⟩
    rw [written]
    exact List.append_ne_nil_of_left_ne_nil (List.ne_nil_of_mem opened) _

/-- An element that stores something writes something. -/
theorem Accepts.element_writes (valid : schema.Valid) (ok : schema.Accepts value a true)
    (occupies : schema.Occupies value) : schema.writes value a true ≠ [] := by
  obtain ⟨nonnull, some_held⟩ := occupies
  cases block : schema.isBlock with
  | false => exact ok.writes_ne_nil valid nonnull (by simp [block])
  | true =>
    obtain ⟨members, rfl, -, accepted, written⟩ := ok.block block valid nonnull
    obtain ⟨held, mem⟩ := List.exists_mem_of_ne_nil _ (some_held members block rfl)
    obtain ⟨declared, found⟩ := mem_heldFields_iff.1 mem
    have sound := valid.soundShape (shapeFor_mem_shapes block members)
    have below := Address.isRoot_member (a := a.block true) (sound.place_usable declared held.2)
    have inner := (accepted held mem).writes_ne_nil (sound.field_valid _ declared)
      (Field.value?_eq_some_iff.1 found).2 (by simp [below])
    obtain ⟨entry, mem_entry⟩ := List.exists_mem_of_ne_nil _ inner
    rw [written]
    exact List.ne_nil_of_mem (List.mem_append_right _ (List.mem_flatMap.2 ⟨held, mem, mem_entry⟩))

end Schema
end FlatStore
