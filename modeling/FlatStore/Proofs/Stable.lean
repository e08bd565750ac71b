import FlatStore.Proofs.Number
import FlatStore.Proofs.Order
import FlatStore.Proofs.Restored
import FlatStore.RoundTrip

/-!
Round trips are stable. The normal form of a document has the trace of the document (`Schema.keeps`): what the
normal form changes is read the same, what it leaves out was not read, and the orders that it establishes are those in
which sets and maps are written. So the document that comes back from a store is stored as the same entries in the same
order (`checkRoundTrip_eq_ok`).
-/
namespace FlatStore

/-! ### Traces of parts -/

theorem Trace.indexed_map {α : Type} {write : Nat → α → Trace} {g : α → α} {i : Nat} {parts : List α}
    (same : ∀ part ∈ parts.zipIdx i, write part.2 (g part.1) = write part.2 part.1) :
    indexed write i (parts.map g) = indexed write i parts := by
  induction parts generalizing i with
  | nil => rfl
  | cons part rest ih =>
    rw [List.zipIdx_cons] at same
    obtain ⟨here, later⟩ := List.forall_mem_cons.1 same
    rw [List.map_cons, indexed, indexed, here, ih later]

namespace Schema

variable {schema : Schema} {choice : TaggedUnion Schema} {value : Json} {members : List (String × Json)}
  {a base : Address} {sliced : Bool}

/-- Elements that have the same traces are written the same, each in its wrapper. -/
theorem traceItems_map {c : Collection Schema} {element : Json → Address → Trace} {items : List Json} {g : Json → Json}
    (wraps : ∀ item ∈ items, c.Wraps item)
    (same : ∀ part ∈ items.zipIdx, element (g (c.unwrap part.1)) (a.index part.2) =
      element (c.unwrap part.1) (a.index part.2)) :
    traceItems element c.maxItems c.wrapper a (items.map fun item => wrapIn c.wrapper (g (c.unwrap item))) =
      traceItems element c.maxItems c.wrapper a items := by
  have each : Trace.indexed (traceItems.unwrap element c.wrapper a) 0
      (items.map fun item => wrapIn c.wrapper (g (c.unwrap item))) =
        Trace.indexed (traceItems.unwrap element c.wrapper a) 0 items := by
    refine Trace.indexed_map fun part mem => ?_
    have wrapped := wraps part.1 (List.fst_mem_of_mem_zipIdx mem)
    rw [unwrap_of_wraps (Collection.wraps_wrapIn _), Collection.unwrap_wrapIn, unwrap_of_wraps wrapped]
    exact same part mem
  unfold traceItems
  rw [traceItems.write, traceItems.write, each, List.length_map]

/-- A field writes the same for two values with the same place and the same trace there. -/
theorem traceField_congr {shape : Shape Schema} (sound : SoundShape shape) {f : Field Schema} (mem : f ∈ shape.fields)
    {first second : List (String × Json)}
    (same : Option.Rel (fun v w => f.place v = f.place w ∧ f.schema.trace false v (base.member (f.place w)) false =
      f.schema.trace false w (base.member (f.place w)) false) (f.value? first) (f.value? second)) :
    traceField false first base f = traceField false second base f := by
  rw [traceField_eq sound mem, traceField_eq sound mem]
  generalize f.value? first = v, f.value? second = w at same
  cases same with
  | none => rfl
  | some same =>
    obtain ⟨place, trace⟩ := same
    simp only [place, trace]

/-! ### Members in normal form -/

theorem lookup_normal {fields : List (Field Schema)} (nodup : (fields.map Field.wireName).Nodup) {f : Field Schema}
    (mem : f ∈ fields) : ((heldFields members fields).map normalMember).lookup f.wireName =
      (f.value? members).map f.schema.normal := by
  rw [map_normalMember_eq_filled, lookup_filled nodup mem]

theorem Accepts.normal_ne_null (valid : schema.Valid) (ok : schema.Accepts value a sliced) (nonnull : value ≠ .null) :
    schema.normal value ≠ .null := by
  induction schema using formInduction with
  | scalar kind =>
    obtain ⟨leaf, read, -⟩ := ok.scalar nonnull
    rw [normal_scalar read]
    exact Scalar.toJson_ne_null read
  | items schema c form =>
    obtain ⟨given, rfl, -⟩ := ok.items form nonnull
    rw [normal_items form]
    simp
  | map element =>
    obtain ⟨members, rfl, -⟩ := ok.map nonnull
    rw [normal_map]
    simp
  | block schema block =>
    obtain ⟨members, rfl, -⟩ := ok.block block valid nonnull
    rw [normal_block block]
    simp

/-- The members of a document in the normal form of its shape. -/
def normalMembers (schema : Schema) (members : List (String × Json)) : List (String × Json) :=
  (heldFields members (schema.shapeFor members).fields).map normalMember

/-- A field of its shape has the value in the normal form of a document that it has in the document, in normal form. -/
theorem value?_normal (block : schema.isBlock = true) (valid : schema.Valid)
    (ok : schema.Accepts (.object members) a sliced) {f : Field Schema} (mem : f ∈ (schema.shapeFor members).fields) :
    f.value? (schema.normalMembers members) = (f.value? members).map f.schema.normal := by
  have sound := valid.soundShape (shapeFor_mem_shapes block members)
  obtain ⟨_, ⟨⟩, -, accepted, -⟩ := ok.block block valid (by simp)
  have there : (schema.normalMembers members).lookup f.wireName = (f.value? members).map f.schema.normal :=
    lookup_normal sound.wireNames_nodup mem
  cases found : f.value? members with
  | none =>
    rw [found] at there
    exact Field.value?_eq_none_iff.2 (.inl there)
  | some v =>
    rw [found] at there
    have nonnull := (Field.value?_eq_some_iff.1 found).2
    have kept := (accepted (f, v) (mem_heldFields_iff.2 ⟨mem, found⟩)).normal_ne_null (sound.field_valid f mem) nonnull
    exact Field.value?_eq_some_iff.2 ⟨there, kept⟩

/-- The normal form of a document of a union has the tag of the document. -/
theorem tagOf_normal (valid : (union choice).Valid) (restorable : (union choice).Restorable)
    (ok : (union choice).Accepts (.object members) a sliced) :
    tagOf choice.discriminator ((union choice).normalMembers members) = tagOf choice.discriminator members := by
  obtain ⟨f, mem, -, wireName, kind, value⟩ := tagField valid restorable ok
  refine tagOf_eq_of_value? _ wireName ?_
  rw [value?_normal rfl valid ok mem, value, kind]
  cases tagOf choice.discriminator members with
  | none => rfl
  | some tag => exact congrArg some (normal_scalar (show Scalar.ofJsonAs? .string (.string tag) = some (.string tag) from rfl))

theorem shapeFor_normal (block : schema.isBlock = true) (valid : schema.Valid) (restorable : schema.Restorable)
    (ok : schema.Accepts (.object members) a sliced) :
    schema.shapeFor (schema.normalMembers members) = schema.shapeFor members := by
  cases schema with
  | object shape => rfl
  | union choice => rw [shapeFor, shapeFor, TaggedUnion.shapeOf, tagOf_normal valid restorable ok, TaggedUnion.shapeOf]
  | scalar | list | set | map => cases block

theorem segmentOf_normal (valid : schema.Valid) (restorable : schema.Restorable) (ok : schema.Accepts value a sliced)
    (nonnull : value ≠ .null) : schema.segmentOf (schema.normal value) = schema.segmentOf value := by
  cases schema with
  | union choice =>
    obtain ⟨members, rfl, -⟩ := ok.block rfl valid nonnull
    rw [normal_block rfl, segmentOf, segmentOf, ← normalMembers, tagOf_normal valid restorable ok]
  | scalar | list | set | map | object => rfl

/-! ### Traces of normal forms -/

/-- Whether all sets of a schema have elements that are stored as they are. -/
def PlainSets (schema : Schema) : Prop :=
  ∀ c, Inside (.set c) schema → c.wrapper = none ∧ ∃ kind, c.element = .scalar kind ∧ kind ≠ .float

theorem PlainSets.child {part : Schema} (plain : schema.PlainSets) (mem : part ∈ schema.children) : part.PlainSets :=
  fun c inside => plain c (.child mem inside)

/-- Whether a schema is no set, or one whose elements are stored as they are. -/
def plainHere : Schema → Bool
  | .set ⟨.scalar kind, _, _, none⟩ => kind != .float
  | .set _ => false
  | _ => true

theorem plainSets_iff : schema.PlainSets ↔ schema.within.all plainHere = true := by
  rw [List.all_eq_true]
  constructor
  · intro plain inner mem
    cases inner with
    | set c =>
      obtain ⟨bare, kind, scalar, exact_kind⟩ := plain c (mem_within_iff.1 mem)
      obtain ⟨element, least, most, wrapper⟩ := c
      cases bare
      cases scalar
      simpa [plainHere] using exact_kind
    | scalar | list | map | object | union => rfl
  · intro all c inside
    have here := all _ (mem_within_iff.2 inside)
    unfold plainHere at here
    split at here
    · next kind least most eq =>
      cases eq
      exact ⟨rfl, kind, rfl, by simpa using here⟩
    · cases here
    · next other => exact absurd rfl (other c)

instance (schema : Schema) : Decidable schema.PlainSets := decidable_of_iff _ plainSets_iff.symm

/-- Whether all documents of a schema have the traces of their normal forms. -/
def Keeps (schema : Schema) : Prop :=
  ∀ {value a sliced}, schema.Valid → schema.Restorable → schema.PlainSets → schema.Accepts value a sliced →
    value ≠ .null → schema.Clean value → schema.trace false (schema.normal value) a sliced =
      schema.trace false value a sliced

private theorem keeps_scalar (kind : ScalarKind) : Keeps (.scalar kind) := by
  intro value a sliced valid restorable plain ok nonnull clean
  obtain ⟨leaf, read, -⟩ := ok.scalar nonnull
  rw [normal_scalar read, trace_scalar read, trace_scalar (Scalar.ofJsonAs?_toJson read)]

/-- The items of a list or a set in normal form are in the order in which they are written. -/
private theorem arranged_normal {c : Collection Schema} (form : schema.collection? = some c) (plain : schema.PlainSets)
    {given : List Json} (ok : ∀ item ∈ given, ∃ b sliced, c.element.Accepts (c.unwrap item) b sliced)
    (occupies : ∀ item ∈ given, c.element.Occupies (c.unwrap item)) :
    schema.arranged ((schema.arranged given).map fun item => wrapIn c.wrapper (c.element.normal (c.unwrap item))) =
      (schema.arranged given).map fun item => wrapIn c.wrapper (c.element.normal (c.unwrap item)) := by
  cases schema with
  | list items => rfl
  | set items =>
    cases form
    obtain ⟨bare, kind, scalar, exact_kind⟩ := plain c (.self _)
    -- the order is that of the items, and these are their own normal forms
    have same : ∀ item ∈ given, wrapIn c.wrapper (c.element.normal (c.unwrap item)) = item := by
      intro item mem
      have unwrapped : c.unwrap item = item := by simp [Collection.unwrap, bare]
      obtain ⟨b, sliced, accepted⟩ := ok item mem
      have nonnull := (occupies item mem).1
      rw [scalar, unwrapped] at accepted
      rw [unwrapped] at nonnull
      obtain ⟨leaf, read, -⟩ := accepted.scalar nonnull
      rw [unwrapped, bare, scalar, wrapIn, normal_scalar read, Scalar.toJson_of_ofJsonAs? read exact_kind]
    have kept : (setOrder given).map (fun item => wrapIn c.wrapper (c.element.normal (c.unwrap item))) =
        setOrder given := by
      refine (List.map_congr_left fun item mem => ?_).trans (List.map_id _)
      exact same item ((arranged_perm (.set c) given).mem_iff.1 mem)
    rw [arranged, arranged, kept, setOrder_setOrder]
  | scalar | map | object | union => cases form

private theorem keeps_items {c : Collection Schema} (form : schema.collection? = some c) (ih : Keeps c.element) :
    Keeps schema := by
  intro value a sliced valid restorable plain ok nonnull clean
  obtain ⟨given, rfl, -, wraps, accepted, -⟩ := ok.items form nonnull
  have arranged := schema.arranged_perm given
  have child := items_mem_children form
  have accepts : ∀ item ∈ given, ∃ b sliced, c.element.Accepts (c.unwrap item) b sliced := by
    intro item mem
    obtain ⟨i, indexed⟩ := exists_index (arranged.mem_iff.2 mem)
    exact ⟨_, _, accepted (item, i) indexed⟩
  rw [normal_items form, trace_items form, trace_items form,
    arranged_normal form plain accepts fun item mem => (clean.item form mem).1]
  refine traceItems_map (fun item mem => wraps item (arranged.mem_iff.1 mem)) fun part mem => ?_
  obtain ⟨⟨element_nonnull, -⟩, element_clean⟩ := clean.item form (mem_of_mem_arranged mem)
  exact ih (valid.element form).2 (restorable.child child) (plain.child child) (accepted part mem) element_nonnull
    element_clean

private theorem keeps_map {element : Schema} (ih : Keeps element) : Keeps (.map element) := by
  intro value a sliced valid restorable plain ok nonnull clean
  obtain ⟨members, rfl, accepted, -⟩ := ok.map nonnull
  have child := entry_mem_children element
  have each : ∀ part ∈ (mapOrder members).zipIdx,
      element.trace false (element.normal part.1.2) (element.entryAddress (a.index part.2)) element.isBlock =
        element.trace false part.1.2 (element.entryAddress (a.index part.2)) element.isBlock := by
    intro part mem
    obtain ⟨value_nonnull, value_clean⟩ := clean.entry (mem_of_mem_mapOrder mem)
    exact ih (valid_map_iff.1 valid).2.2 (restorable.child child) (plain.child child) (accepted part mem) value_nonnull
      value_clean
  rw [normal_map, trace_map, trace_map, traceEntries, traceEntries, mapOrder_map, List.length_map,
    (mapOrder_perm members).length_eq]
  refine congrArg (Trace.count a members.length ++ ·) (Trace.indexed_map fun part mem => ?_)
  dsimp only
  rw [trace_entry, trace_entry, each part mem]

private theorem keeps_block (block : schema.isBlock = true)
    (ih : ∀ shape ∈ schema.shapes, ∀ f ∈ shape.fields, Keeps f.schema) : Keeps schema := by
  intro value a sliced valid restorable plain ok nonnull clean
  obtain ⟨members, rfl, -, accepted, -⟩ := ok.block block valid nonnull
  have shape_mem := shapeFor_mem_shapes block members
  have sound := valid.soundShape shape_mem
  rw [normal_block block, ← normalMembers, trace_block block, trace_block block,
    shapeFor_normal block valid restorable ok]
  refine congrArg (Trace.openBlock a sliced ++ ·) (traceFields_congr fun f mem => traceField_congr sound mem ?_)
  rw [value?_normal block valid ok mem]
  cases found : f.value? members with
  | none => exact .none
  | some v =>
    have held : (f, v) ∈ heldFields members (schema.shapeFor members).fields := mem_heldFields_iff.2 ⟨mem, found⟩
    obtain ⟨field_nonnull, field_clean⟩ := clean.held block held
    have field_valid := sound.field_valid f mem
    have child := field_mem_children shape_mem mem
    -- the segment of a variant stands for the name of the field, so that the variant has to be the same
    have place : f.place (f.schema.normal v) = f.place v := by
      rw [Field.place, Field.place,
        segmentOf_normal field_valid (restorable.child child) (accepted (f, v) held) field_nonnull]
    exact .some ⟨place, ih _ shape_mem f mem field_valid (restorable.child child) (plain.child child)
      (accepted (f, v) held) field_nonnull field_clean⟩

theorem keeps (schema : Schema) : Keeps schema := by
  induction schema using formInduction with
  | scalar kind => exact keeps_scalar kind
  | items schema c form ih => exact keeps_items form ih
  | map element ih => exact keeps_map ih
  | block schema block ih => exact keeps_block block ih

/-- A document is stored as its normal form is. -/
theorem flatten_normal (valid : schema.Valid) (restorable : schema.Restorable) (plain : schema.PlainSets)
    (nonnull : value ≠ .null) (clean : schema.Clean value) {s : Store} (stored : schema.flatten value false = .ok s) :
    schema.flatten (schema.normal value) false = .ok s := by
  have ok := (flatten_eq_ok_iff.1 stored).1
  have kept := keeps schema valid restorable plain ok nonnull clean
  rw [flatten, flattenInto] at stored ⊢
  rw [kept]
  exact stored

end Schema

/-! ### Round trips -/

theorem firstDifference_self (s : Store) : firstDifference s s = none := by
  have same : ∀ pair ∈ s.toList.zip s.toList, sameEntry pair.1 pair.2 = true := by
    intro pair mem
    rw [List.zip_eq_zipWith, List.zipWith_self] at mem
    obtain ⟨entry, -, rfl⟩ := List.mem_map.1 mem
    simp [sameEntry, Scalar.same_iff]
  rw [firstDifference, List.find?_eq_none.2]
  · exact if_pos rfl
  · intro pair mem
    simp [same pair mem]

/-- A document that is stored again as it was survives the round trip. -/
theorem checkRoundTrip_eq_ok {schema : Schema} {value back : Json} {s : Store}
    (stored : schema.flatten value false = .ok s) (read : schema.resolveRoot s.source = .ok (some back))
    (again : schema.flatten back false = .ok s) : checkRoundTrip schema value = .ok () := by
  rw [checkRoundTrip, stored, mapError_ok, ok_bind, resolvedOrNull, read]
  change ((schema.flatten back false).mapError RoundTripError.flattenAgain >>= _) = _
  rw [again, mapError_ok, ok_bind, firstDifference_self]
  rfl

namespace Schema

variable {schema : Schema} {value : Json} {s : Store}

/-- What comes back from the store of a document is stored as the same entries in the same order. As for
`Schema.readsBack_root`, the counts of the store have to fit into 64 bits with a sign. -/
theorem roundTrip_stable (valid : schema.Valid) (restorable : schema.Restorable) (plain : schema.PlainSets)
    (nonnull : value ≠ .null) (clean : schema.Clean value) (stored : schema.flatten value false = .ok s)
    (fits : s.size < 2 ^ 63) :
    (∃ back, schema.resolveRoot s.source = .ok (some back) ∧ schema.flatten back false = .ok s) ∧
      checkRoundTrip schema value = .ok () := by
  have read : schema.resolveRoot s.source = .ok (some (schema.normal value)) :=
    (readsBack_root valid restorable nonnull clean stored fits).resolves
  have again := flatten_normal valid restorable plain nonnull clean stored
  exact ⟨⟨schema.normal value, read, again⟩, checkRoundTrip_eq_ok stored read again⟩

theorem roundTrip_stable_tapRule : checkRoundTrip rule tapRule = .ok () := by
  have stored : rule.flatten tapRule false = .ok (.ofList (rule.writes tapRule .root false).entries) :=
    flatten_eq_ok_iff.2 ⟨accepts_tapRule, rfl⟩
  have valid : rule.Valid := by decide
  have restorable : rule.Restorable := by decide
  have nonnull : tapRule ≠ .null := by simp [tapRule]
  have plain : rule.PlainSets := by decide
  exact (roundTrip_stable valid restorable plain nonnull clean_tapRule stored size_tapRule).2

end Schema
end FlatStore
