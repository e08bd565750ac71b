import FlatStore.Proofs.Outcome

/-!
Documents come back from their stores. What a store shows of a document resolves to the normal form of the document
(`Schema.restores`), and a store that is made of a document shows it at the root (`Schema.readsBack_root`). The
proof follows the four forms of schemas. A collection is read at the indices that its count gives, and a block field
by field, where every field is found at the one candidate at which it was written.
-/
namespace FlatStore
namespace Schema

variable {s : Store} {schema : Schema} {choice : TaggedUnion Schema} {value : Json} {members : List (String × Json)}
  {a base : Address} {sliced : Bool}

/-! ### Blocks -/

theorem resolveFields_eq_ok {source : Source} {fields : List (Field Schema)}
    (each : ∀ f ∈ fields, resolveField source base f = .ok ((f.value? members).map f.schema.normal))
    (required : ∀ f ∈ fields, f.optional = false → f.value? members ≠ none) :
    resolveFields source base fields = .ok ((heldFields members fields).map normalMember) := by
  rw [resolveFields_eq_ok_iff, map_normalMember_eq_filled]
  refine ⟨fun f mem => ⟨_, each f mem⟩, List.filterMap_congr fun f mem => ?_⟩
  rw [filledAt, each f mem]
  cases found : f.value? members with
  | none =>
    have optional : f.optional = true := by
      by_contra needed
      exact required f mem (by simpa using needed) found
    simp [Field.fill, optional, found]
  | some v => simp [Field.fill, found]

/-- In the shape of a union its tag is the value of a field. -/
theorem tagField (valid : (union choice).Valid) (restorable : (union choice).Restorable)
    (ok : (union choice).Accepts (.object members) a sliced) : ∃ f ∈ (choice.shapeOf members).fields,
      f.name = choice.discriminator.name ∧ f.wireName = choice.discriminator.wireName ∧ f.schema = .scalar .string ∧
        f.value? members = (tagOf choice.discriminator members).map .string := by
  obtain ⟨f, mem, name, wireName, kind, -⟩ :=
    restorable.tagged choice (.self _) (choice.shapeOf members) (shapeOf_mem_shapes choice members)
  obtain ⟨_, ⟨⟩, -, accepted, -⟩ := ok.block rfl valid (by simp)
  refine ⟨f, mem, name, wireName, kind, ?_⟩
  cases found : f.value? members with
  | none =>
    rw [tagOf_eq_of_value? none wireName found]
    rfl
  | some v =>
    have scalar := accepted (f, v) (mem_heldFields_iff.2 ⟨mem, found⟩)
    rw [kind] at scalar
    obtain ⟨leaf, read, -⟩ := scalar.scalar (Field.value?_eq_some_iff.1 found).2
    cases v with
    | string tag =>
      rw [tagOf_eq_of_value? (some tag) wireName found]
      rfl
    | _ => simp [Scalar.ofJsonAs?] at read

/-- The tag of a union is stored in the block of its shape. -/
theorem get?_tag (valid : (union choice).Valid) (restorable : (union choice).Restorable)
    (ok : (union choice).Accepts (.object members) a sliced)
    (shown : s.Shows (union choice) (.object members) a sliced) :
    s.get? ((a.block sliced).member choice.discriminator.name).text =
      (tagOf choice.discriminator members).map .string := by
  obtain ⟨f, mem, name, -, kind, value⟩ := tagField valid restorable ok
  have there := ((Store.shows_block_iff rfl).1 shown).2 f mem f.name (name_mem_candidateNames f)
  rw [Field.writesAt, value] at there
  rw [← name]
  cases tagged : tagOf choice.discriminator members with
  | none =>
    rw [tagged] at there
    exact there.get?_eq_none (Slot.under_self (.leaf ((a.block sliced).member f.name)))
  | some tag =>
    have place : f.place (.string tag) = f.name := by simp [Field.place, kind, segmentOf]
    simp only [tagged, Option.map_some, place, if_true, heldWrites, kind] at there
    rw [writes, trace_scalar (show Scalar.ofJsonAs? .string (.string tag) = some (.string tag) from rfl)] at there
    exact (there.get?_leaf _).2 List.mem_cons_self

/-- Whether a document comes back from an address in its normal form: by the reader of its schema, and for a union also
by any candidates that lead there. -/
structure ReadsBack (s : Store) (schema : Schema) (value : Json) (a : Address) (sliced : Bool) : Prop where
  resolves : schema.resolve s.source a sliced = .ok (some (schema.normal value))
  leads : ∀ choice members cs, schema = .union choice → value = .object members →
    Leads s choice members cs a sliced → resolveChoice s.source choice sliced cs = .ok (some (schema.normal value))

/-- The candidates of a field lead to the place of its value. -/
theorem leads_of_holdsField {f : Field Schema} (usable : ∀ name ∈ f.candidateNames, isFieldName name = true)
    (holds : s.HoldsField base members f) {v : Json} (found : f.value? members = some v)
    (kind : f.schema = .union choice) {inner : List (String × Json)} (object : v = .object inner) :
    Leads s choice inner (candidatesOf f base) (base.member (f.place v)) false where
  others := by
    intro c mem
    obtain ⟨name, candidate, here⟩ := mem_candidatesOf mem
    rw [here]
    by_cases place : f.place v = name
    · exact .inl (by rw [place])
    · have there := holds name candidate
      rw [Field.writesAt, found] at there
      dsimp only at there
      rw [if_neg place] at there
      exact .inr ⟨rfl, Address.isRoot_member (usable name candidate), there⟩
  leads := by
    cases moved : f.schema.segmentOf v with
    | none =>
      refine ⟨⟨base.member f.name, none⟩, List.mem_cons_self, ?_, by simp⟩
      rw [Field.place, moved, Option.getD_none]
    | some segment =>
      obtain ⟨_, _, tag, w, eq, same, tagged, selected, stored⟩ := segmentOf_eq_some_iff.1 moved
      cases kind.symm.trans eq
      cases object.symm.trans same
      obtain ⟨i, here⟩ := List.mem_iff_getElem?.1 (List.mem_of_find?_eq_some selected)
      have owned : (i, segment) ∈ f.schema.variantSegments := eq ▸ mem_variantSegments_iff.2 ⟨w, here, stored⟩
      have candidate : ⟨base.member segment, some i⟩ ∈ candidatesOf f base :=
        List.mem_append_left _ (List.mem_cons_of_mem _ (List.mem_map.2 ⟨(i, segment), owned, rfl⟩))
      refine ⟨_, candidate, by rw [Field.place, moved, Option.getD_some], fun j only => ?_⟩
      cases only
      exact ⟨tag, w, tagged, selected, here⟩

/-- A field is found in its normal form if it has a value, and not at all if it has none. -/
theorem resolveField_eq_ok {f : Field Schema} (usable : ∀ name ∈ f.candidateNames, isFieldName name = true)
    (valid : f.schema.Valid) (holds : s.HoldsField base members f)
    (ok : ∀ v, f.value? members = some v → f.schema.Accepts v (base.member (f.place v)) false)
    (back : ∀ v, f.value? members = some v → ReadsBack s f.schema v (base.member (f.place v)) false) :
    resolveField s.source base f = .ok ((f.value? members).map f.schema.normal) := by
  rw [resolveField, candidates_eq usable, mapError_ok, ok_bind]
  cases found : f.value? members with
  | none =>
    refine resolveAt_nothing valid fun c mem => ?_
    obtain ⟨name, candidate, here⟩ := mem_candidatesOf mem
    have there := holds name candidate
    rw [Field.writesAt, found] at there
    rw [here]
    exact ⟨Address.isRoot_member (usable name candidate), there⟩
  | some v =>
    have nonnull := (Field.value?_eq_some_iff.1 found).2
    by_cases union : ∃ choice, f.schema = .union choice
    · obtain ⟨choice, kind⟩ := union
      obtain ⟨inner, object, -⟩ := (ok v found).block (by rw [kind]; rfl) valid nonnull
      have leads := leads_of_holdsField usable holds found kind object
      rw [Option.map_some, ← (back v found).leads choice inner _ kind object leads, kind, resolveAt_union]
    · have other := not_exists.1 union
      have place : f.place v = f.name := by
        have unmoved : f.schema.segmentOf v = none := by
          cases kind : f.schema with
          | union choice => exact absurd kind (other choice)
          | _ => rfl
        rw [Field.place, unmoved, Option.getD_none]
      have first := (back v found).resolves
      rw [place] at first
      rw [resolveAt_first other, candidatesOf, List.cons_append, resolveFirst, first]
      rfl

/-! ### Leaves and collections -/

theorem kind_of_ofJsonAs? {kind : ScalarKind} {leaf : Scalar} (read : Scalar.ofJsonAs? kind value = some leaf) :
    leaf.kind = kind := by
  unfold Scalar.ofJsonAs? at read
  split at read
  · cases read
    rfl
  · cases read
    rfl
  · obtain ⟨n, -, rfl⟩ := Option.map_eq_some_iff.1 read
    rfl
  · cases read
    rfl
  · cases read
    rfl
  · cases read

/-! ### All documents -/

/-- Whether a store gives back all documents of a schema that it shows. -/
def Restores (s : Store) (schema : Schema) : Prop :=
  ∀ {value a sliced}, schema.Valid → schema.Restorable → schema.Accepts value a sliced → value ≠ .null →
    schema.Clean value → s.Shows schema value a sliced → ReadsBack s schema value a sliced

private theorem restores_scalar (kind : ScalarKind) : Restores s (.scalar kind) := by
  intro value a sliced valid restorable ok nonnull clean shown
  refine ⟨?_, by simp⟩
  obtain ⟨leaf, read, written⟩ := ok.scalar nonnull
  have holds := (Store.shows_iff rfl).1 shown
  rw [written] at holds
  have there : s.get? a.text = some leaf := (holds.get?_leaf leaf).2 List.mem_cons_self
  rw [resolve_scalar, resolveScalar_eq_ok_iff, normal_scalar read]
  refine ⟨some leaf, there, rfl, ?_⟩
  rintro _ ⟨⟩
  exact kind_of_ofJsonAs? read

/-- The count of parts that have all written something is read back. -/
private theorem storedCount_of_parts {α : Type} {write : α × Nat → Writes} {parts : List α} (fits : s.size < 2 ^ 63)
    (holds : s.Holds a ((.count a, .int (.ofNat parts.length)) :: parts.zipIdx.flatMap write))
    (below : ∀ part, ∀ entry ∈ write part, entry.1.Under (a.index part.2))
    (some_written : ∀ part ∈ parts.zipIdx, write part ≠ []) : storedCount s.source a = .ok (some parts.length) := by
  refine storedCount_of_some ((holds.get?_count _).2 List.mem_cons_self) fits ?_
  refine s.le_size_of_indices (b := a) fun i bound => ?_
  have mem : (parts[i], i) ∈ parts.zipIdx := List.mk_mem_zipIdx_iff_getElem?.2 (List.getElem?_eq_getElem bound)
  obtain ⟨entry, held⟩ := List.exists_mem_of_ne_nil _ (some_written _ mem)
  exact ⟨entry.1, below _ entry held, (holds.element below mem).mem_keys held (below _)⟩

private theorem restores_items (fits : s.size < 2 ^ 63) {c : Collection Schema} (form : schema.collection? = some c)
    (ih : Restores s c.element) : Restores s schema := by
  intro value a sliced valid restorable ok nonnull clean shown
  refine ⟨?_, by rintro choice members cs rfl; cases form⟩
  obtain ⟨given, rfl, within, -, accepted, written⟩ := ok.items form nonnull
  have arranged := schema.arranged_perm given
  have element_valid := (valid.element form).2
  have element_restorable := restorable.child (items_mem_children form)
  have holds := (Store.shows_iff (isBlock_of_collection? form)).1 shown
  rw [written, ← arranged.length_eq] at holds
  -- every element has written something, so that the store has enough entries to back the count
  have count : storedCount s.source a = .ok (some (schema.arranged given).length) :=
    storedCount_of_parts fits holds (fun part => writes_under) fun part mem =>
      (accepted part mem).element_writes element_valid (clean.item form (mem_of_mem_arranged mem)).1
  have each : ∀ part ∈ (schema.arranged given).zipIdx,
      (c.element.orZero <$> c.element.resolve s.source (a.index part.2) true) =
        .ok (c.element.normal (c.unwrap part.1)) := by
    intro part mem
    obtain ⟨⟨element_nonnull, -⟩, element_clean⟩ := clean.item form (mem_of_mem_arranged mem)
    have element_shown := (holds.element (fun part => writes_under) mem).shows element_valid
      element_restorable.separate (accepted part mem) element_nonnull
    have back := ih element_valid element_restorable (accepted part mem) element_nonnull element_clean element_shown
    rw [back.resolves]
    rfl
  rw [resolve_items form, normal_items form, resolveItems_eq_ok_iff]
  refine .inr ⟨(schema.arranged given).map fun item => c.element.normal (c.unwrap item), ?_, ?_, ?_, ?_⟩
  · rwa [List.length_map]
  · rwa [List.length_map, arranged.length_eq]
  · rw [List.zipIdx_map]
    exact List.forall_mem_map.2 each
  · rw [List.map_map]
    rfl

private theorem restores_map (fits : s.size < 2 ^ 63) {element : Schema} (ih : Restores s element) :
    Restores s (.map element) := by
  intro value a sliced valid restorable ok nonnull clean shown
  refine ⟨?_, by simp⟩
  obtain ⟨members, rfl, accepted, written⟩ := ok.map nonnull
  have sorted := mapOrder_perm members
  obtain ⟨-, -, element_valid⟩ := valid_map_iff.1 valid
  have element_restorable := restorable.child (entry_mem_children element)
  have holds := (Store.shows_iff rfl).1 shown
  rw [written, ← sorted.length_eq] at holds
  have there : ∀ part ∈ (mapOrder members).zipIdx,
      s.Holds (a.index part.2) (element.entryWrites (a.index part.2) part.1) :=
    fun part mem => holds.element (fun part => entryWrites_under) mem
  have count : storedCount s.source a = .ok (some (mapOrder members).length) :=
    storedCount_of_parts fits holds (fun part => entryWrites_under) fun part mem => List.cons_ne_nil _ _
  have keys : ∀ part ∈ (mapOrder members).zipIdx,
      s.get? ((a.index part.2).member mapKeyField).text = some (.string part.1.1) := by
    intro part mem
    have key := Slot.under_self (.leaf ((a.index part.2).member mapKeyField))
    exact (there part mem _ key.of_member _).2 List.mem_cons_self
  have each : ∀ part ∈ (mapOrder members).zipIdx,
      (element.orZero <$> element.resolve s.source (element.entryAddress (a.index part.2)) element.isBlock) =
        .ok (element.normal part.1.2) := by
    intro part mem
    obtain ⟨value_nonnull, value_clean⟩ := clean.entry (mem_of_mem_mapOrder mem)
    have value_shown := (there part mem).shows_entry element_valid element_restorable.separate
      (restorable.keys element (.self _)) (accepted part mem) value_nonnull
    have back := ih element_valid element_restorable (accepted part mem) value_nonnull value_clean value_shown
    rw [back.resolves]
    rfl
  let entries := (mapOrder members).map fun member => (member.1, element.normal member.2)
  have nodup : (entries.map Prod.fst).Nodup := by
    rw [List.map_map]
    exact (sorted.map Prod.fst).nodup_iff.2 clean.distinct.1
  rw [resolve_map, normal_map, resolveEntries_eq_ok_iff]
  refine .inr ⟨entries, ?_, ?_, ?_⟩
  · rwa [List.length_map]
  · rw [List.zipIdx_map]
    exact List.forall_mem_map.2 fun part mem => resolveEntry_eq_ok_iff.2 ⟨keys part mem, each part mem⟩
  · rw [membersOf_eq_of_nodup nodup]

/-- Each field of a block is found in its normal form. -/
private theorem restores_field (block : schema.isBlock = true)
    (ih : ∀ shape ∈ schema.shapes, ∀ f ∈ shape.fields, Restores s f.schema) (valid : schema.Valid)
    (restorable : schema.Restorable) (ok : schema.Accepts (.object members) a sliced)
    (clean : schema.Clean (.object members))
    (holds : ∀ f ∈ (schema.shapeFor members).fields, s.HoldsField (a.block sliced) members f) {f : Field Schema}
    (mem : f ∈ (schema.shapeFor members).fields) :
    resolveField s.source (a.block sliced) f = .ok ((f.value? members).map f.schema.normal) := by
  obtain ⟨_, ⟨⟩, -, accepted, -⟩ := ok.block block valid (by simp)
  have shape_mem := shapeFor_mem_shapes block members
  have sound := valid.soundShape shape_mem
  have field_valid := sound.field_valid f mem
  have field_restorable := restorable.child (field_mem_children shape_mem mem)
  have field_ok : ∀ v, f.value? members = some v → f.schema.Accepts v ((a.block sliced).member (f.place v)) false :=
    fun v found => accepted (f, v) (mem_heldFields_iff.2 ⟨mem, found⟩)
  refine resolveField_eq_ok (sound.candidate_usable mem) field_valid (holds f mem) field_ok fun v found => ?_
  have held : (f, v) ∈ heldFields members (schema.shapeFor members).fields := mem_heldFields_iff.2 ⟨mem, found⟩
  obtain ⟨field_nonnull, field_clean⟩ := clean.held block held
  have there := holds f mem (f.place v) (place_mem_candidateNames f v)
  simp only [Field.writesAt, found, if_true] at there
  have field_shown : s.Shows f.schema v ((a.block sliced).member (f.place v)) false :=
    there.shows field_valid field_restorable.separate (field_ok v found) field_nonnull
  exact ih _ shape_mem f mem field_valid field_restorable (field_ok v found) field_nonnull field_clean field_shown

private theorem restores_block (block : schema.isBlock = true)
    (ih : ∀ shape ∈ schema.shapes, ∀ f ∈ shape.fields, Restores s f.schema) : Restores s schema := by
  intro value a sliced valid restorable ok nonnull clean shown
  obtain ⟨members, rfl, required, -⟩ := ok.block block valid nonnull
  have sound := valid.soundShape (shapeFor_mem_shapes block members)
  obtain ⟨opened, holds⟩ := (Store.shows_block_iff block).1 shown
  have fields := resolveFields_eq_ok (fun f mem => restores_field block ih valid restorable ok clean holds mem) required
  have names : (((heldFields members (schema.shapeFor members).fields).map normalMember).map Prod.fst).Nodup := by
    rw [map_normalMember_eq_filled]
    exact (names_filled_sublist _ _).nodup sound.wireNames_nodup
  cases schema with
  | object shape =>
    refine ⟨?_, by simp⟩
    rw [resolve_object, present_of_opened opened, ok_bind, if_pos rfl, normal_block block]
    change (resolveFields s.source (a.block sliced) ((object shape).shapeFor members).fields >>= _) = _
    rw [fields, ok_bind, membersOf_eq_of_nodup names]
    rfl
  | union choice =>
    -- a field of the union reads it at candidates of its own, and the root at itself
    have led : ∀ cs, Leads s choice members cs a sliced →
        resolveChoice s.source choice sliced cs = .ok (some ((union choice).normal (.object members))) := by
      intro cs leads
      rw [resolveChoice_leads valid leads (get?_tag valid restorable ok shown) opened, normal_block block]
      change (_ <$> resolveFields s.source (a.block sliced) ((union choice).shapeFor members).fields) = _
      rw [fields]
      exact congrArg (fun members => Except.ok (some (Json.object members))) (membersOf_eq_of_nodup names)
    refine ⟨?_, by rintro _ _ cs ⟨⟩ ⟨⟩ leads; exact led cs leads⟩
    rw [resolve_union]
    exact led _ ⟨by simp, ⟨a, none⟩, List.mem_cons_self, rfl, by simp⟩
  | scalar | list | set | map => cases block

theorem restores (fits : s.size < 2 ^ 63) (schema : Schema) : Restores s schema := by
  induction schema using formInduction with
  | scalar kind => exact restores_scalar kind
  | items schema c form ih => exact restores_items fits form ih
  | map element ih => exact restores_map fits ih
  | block schema block ih => exact restores_block block ih

/-- The store of a document gives it back. -/
theorem readsBack_root (valid : schema.Valid) (restorable : schema.Restorable) (nonnull : value ≠ .null)
    (clean : schema.Clean value) (stored : schema.flatten value false = .ok s) (fits : s.size < 2 ^ 63) :
    ReadsBack s schema value .root false := by
  have ok := (flatten_eq_ok_iff.1 stored).1
  have nodup := (nodup_slots_iff valid ok).2 (restorable.separate.apart value)
  have shown := (holds_root stored nodup).shows valid restorable.separate ok nonnull
  exact restores fits schema valid restorable ok nonnull clean shown

/-- A document of a restorable schema resolves from its store to its normal form. A count has 64 bits with a sign, so
that the store must not have more entries than that: none that fits into memory has. -/
theorem resolve_flatten (valid : schema.Valid) (restorable : schema.Restorable) (nonnull : value ≠ .null)
    (clean : schema.Clean value) (stored : schema.flatten value false = .ok s) (fits : s.size < 2 ^ 63) :
    schema.resolveRoot s.source = .ok (some (schema.normal value)) :=
  (readsBack_root valid restorable nonnull clean stored fits).resolves

/-- The shape of a tap, which is also that of other events. -/
def tap : Shape Schema := ⟨"Tap", [⟨"type", "type", .scalar .string, true, false, [], none⟩]⟩

/-- A rule with a set of tags and an event. A tap is stored under its own name. -/
def rule : Schema :=
  .object ⟨"Rule",
    [⟨"tags", "tags", .set (.of (.scalar .string)), true, false, [], none⟩,
      ⟨"event", "event", .union ⟨"Event", ⟨"type", "type"⟩, [⟨"Tap", ["tap"], some "tap", tap⟩], tap⟩, true, false,
        ["trigger"], none⟩]⟩

/-- A rule whose members and tags come in another order, and one member that its schema does not model. -/
def tapRule : Json :=
  .object [("extra", .bool true), ("event", .object [("type", .string "tap")]),
    ("tags", .array [.string "b", .string "a"])]

/-- The tags are the only collection in the rule. -/
theorem part_tapRule : ∀ inner x, Part inner x rule tapRule →
    inner = .set (.of (.scalar .string)) ∧ x = .array [.string "b", .string "a"] ∨ inner.isBlock = true ∨
      inner = .scalar .string := by
  have text : ∀ t inner x, Part inner x (.scalar .string) (.string t) → inner = .scalar .string :=
    fun t => part_iff.2 ⟨rfl, fun part y mem => by cases mem⟩
  refine part_iff.2 ⟨.inr (.inl rfl), fun part y mem => ?_⟩
  rcases List.mem_cons.1 mem with tags | mem
  · cases tags
    refine part_iff.2 ⟨.inl ⟨rfl, rfl⟩, fun part y mem inner x inside => ?_⟩
    rcases List.mem_cons.1 mem with first | mem
    · cases first
      exact .inr (.inr (text _ _ _ inside))
    · cases List.mem_singleton.1 mem
      exact .inr (.inr (text _ _ _ inside))
  · cases List.mem_singleton.1 mem
    refine part_iff.2 ⟨.inr (.inl rfl), fun part y mem inner x inside => ?_⟩
    cases List.mem_singleton.1 mem
    exact .inr (.inr (text _ _ _ inside))

theorem clean_tapRule : rule.Clean tapRule := by
  have text : ∀ t, (scalar .string).Occupies (.string t) := fun t => ⟨by simp, by simp [isBlock]⟩
  refine ⟨fun inner x inside c form => ?_, fun element members inside => ?_, ?_⟩
  · rcases part_tapRule inner x inside with ⟨rfl, rfl⟩ | block | rfl
    · cases form
      rintro given ⟨⟩ item mem
      rcases List.mem_cons.1 mem with rfl | mem
      · exact text _
      · cases List.mem_singleton.1 mem
        exact text _
    · rw [isBlock_of_collection? form] at block
      cases block
    · cases form
  · rcases part_tapRule _ _ inside with ⟨eq, -⟩ | block | eq
    · cases eq
    · cases block
    · cases eq
  · simp [tapRule, Json.Distinct, Json.DistinctItems, Json.DistinctMembers]

/-- The tags are written in their order. -/
theorem setOrder_tags : setOrder [.string "b", .string "a"] = [.string "a", .string "b"] := by
  have later : ¬ (Json.string "b").render ≤ (Json.string "a").render := by decide
  simp [setOrder, List.mergeSort, later]

theorem trace_tapRule : rule.trace false tapRule .root false =
    .count (Address.root.member "tags") 2 ++ (.leaf ((Address.root.member "tags").index 0) (.string "a") ++
      (.leaf ((Address.root.member "tags").index 1) (.string "b") ++ .empty)) ++
        (.count (Address.root.member "tap") 1 ++
          .leaf (((Address.root.member "tap").index 0).member "type") (.string "tap")) := by
  have tags : (set (.of (scalar .string))).trace false (.array [.string "b", .string "a"])
      (Address.root.member "tags") false =
        .count (Address.root.member "tags") 2 ++ (.leaf ((Address.root.member "tags").index 0) (.string "a") ++
          (.leaf ((Address.root.member "tags").index 1) (.string "b") ++ .empty)) := by
    rw [trace_items rfl, arranged, setOrder_tags]
    rfl
  exact congrArg (· ++ (Trace.count (Address.root.member "tap") 1 ++
    .leaf (((Address.root.member "tap").index 0).member "type") (.string "tap"))) tags

theorem accepts_tapRule : rule.Accepts tapRule .root false := by
  rw [Accepts, trace_tapRule]
  rfl

theorem size_tapRule : (Store.ofList (rule.writes tapRule .root false).entries).size < 2 ^ 63 := by
  rw [Store.size_eq_length, Store.toList_ofList, writes, trace_tapRule]
  decide +kernel

theorem normal_tapRule : rule.normal tapRule = .object
    [("tags", .array [.string "a", .string "b"]), ("event", .object [("type", .string "tap")])] := by
  have tags : (set (.of (scalar .string))).normal (.array [.string "b", .string "a"]) =
      .array [.string "a", .string "b"] := by
    rw [normal_items rfl, arranged, setOrder_tags]
    rfl
  exact congrArg (fun tags => Json.object [("tags", tags), ("event", .object [("type", .string "tap")])]) tags

theorem resolve_flatten_tapRule : ∃ s, rule.flatten tapRule false = .ok s ∧
    rule.resolveRoot s.source = .ok (some (.object
      [("tags", .array [.string "a", .string "b"]), ("event", .object [("type", .string "tap")])])) := by
  have stored : rule.flatten tapRule false = .ok (.ofList (rule.writes tapRule .root false).entries) :=
    flatten_eq_ok_iff.2 ⟨accepts_tapRule, rfl⟩
  have valid : rule.Valid := by decide
  have restorable : rule.Restorable := by decide
  have nonnull : tapRule ≠ .null := by simp [tapRule]
  have back := resolve_flatten valid restorable nonnull clean_tapRule stored size_tapRule
  exact ⟨_, stored, normal_tapRule ▸ back⟩

end Schema
end FlatStore
