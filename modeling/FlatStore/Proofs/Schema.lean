import FlatStore.Schema.Valid

/-!
The structure of schemas. Properties of all schemas are shown by induction over their parts (`Schema.induction`), and
what validation promises is said of one schema and of its direct parts at a time (`Schema.valid_list_iff` and the
others), whatever the place that an error would name (`Schema.valid_iff_check`).
-/
namespace FlatStore

theorem ok_bind {ε α β : Type} (a : α) (f : α → Except ε β) : (Except.ok a >>= f) = f a := rfl

/-- A computation in two steps succeeds if both do. -/
theorem bind_eq_ok_iff {ε α β : Type} {x : Except ε α} {f : α → Except ε β} {b : β} :
    (x >>= f) = .ok b ↔ ∃ a, x = .ok a ∧ f a = .ok b := by
  cases x with
  | error e => simp [bind, Except.bind]
  | ok a => simp [bind, Except.bind]

/-- A computation in two steps fails if one of them does. -/
theorem bind_eq_error_iff {ε α β : Type} {x : Except ε α} {f : α → Except ε β} {e : ε} :
    (x >>= f) = .error e ↔ x = .error e ∨ ∃ a, x = .ok a ∧ f a = .error e := by
  cases x with
  | error other => simp [bind, Except.bind]
  | ok a => simp [bind, Except.bind]

theorem map_eq_ok_iff {ε α β : Type} {x : Except ε α} {f : α → β} {b : β} :
    f <$> x = .ok b ↔ ∃ a, x = .ok a ∧ f a = b := by
  cases x <;> simp [Functor.map, Except.map]

theorem map_eq_error_iff {ε α β : Type} {x : Except ε α} {f : α → β} {e : ε} : f <$> x = .error e ↔ x = .error e := by
  cases x <;> simp [Functor.map, Except.map]

/-- A check before a computation succeeds if both do. -/
theorem then_eq_ok_iff {ε β : Type} {x : Except ε Unit} {f : Unit → Except ε β} {b : β} :
    (x >>= f) = .ok b ↔ x = .ok () ∧ f () = .ok b := by
  rw [bind_eq_ok_iff]
  exact ⟨fun ⟨(), first, second⟩ => ⟨first, second⟩, fun both => ⟨(), both⟩⟩

/-! ### Induction -/

/-- The shapes that a value of a union may have. -/
def TaggedUnion.shapes {σ : Type} (choice : TaggedUnion σ) : List (Shape σ) :=
  choice.base :: choice.variants.map (·.shape)

namespace Schema

/-- Induction over schemas: what holds of a schema if it holds of the elements and fields in it holds of all. -/
@[elab_as_elim, induction_eliminator]
theorem induction {motive : Schema → Prop}
    (scalar : ∀ kind, motive (.scalar kind))
    (list : ∀ items, motive items.element → motive (.list items))
    (set : ∀ items, motive items.element → motive (.set items))
    (map : ∀ element, motive element → motive (.map element))
    (object : ∀ shape, (∀ f ∈ shape.fields, motive f.schema) → motive (.object shape))
    (union : ∀ choice, (∀ shape ∈ choice.shapes, ∀ f ∈ shape.fields, motive f.schema) → motive (.union choice))
    (schema : Schema) : motive schema := by
  -- the motives are those for collections, shapes, unions, rows of fields and of variants, fields and variants
  refine @Schema.rec motive (fun items => motive items.element)
    (fun shape => ∀ f ∈ shape.fields, motive f.schema)
    (fun choice => ∀ shape ∈ choice.shapes, ∀ f ∈ shape.fields, motive f.schema)
    (fun fields => ∀ f ∈ fields, motive f.schema)
    (fun variants => ∀ v ∈ variants, ∀ f ∈ v.shape.fields, motive f.schema)
    (fun f => motive f.schema)
    (fun v => ∀ f ∈ v.shape.fields, motive f.schema)
    scalar list set map object union (fun _ _ _ _ ih => ih) (fun _ _ ih => ih) ?_ (by simp) ?_ (by simp) ?_
    (fun _ _ _ _ _ _ _ ih => ih) (fun _ _ _ _ ih => ih) schema
  · intro _ _ variants base ihVariants ihBase shape mem
    rcases List.mem_cons.1 mem with rfl | mem
    · exact ihBase
    · obtain ⟨v, held, rfl⟩ := List.mem_map.1 mem
      exact ihVariants v held
  · intro head tail ihHead ihTail f mem
    rcases List.mem_cons.1 mem with rfl | mem
    · exact ihHead
    · exact ihTail f mem
  · intro head tail ihHead ihTail v mem
    rcases List.mem_cons.1 mem with rfl | mem
    · exact ihHead
    · exact ihTail v mem

/-! ### Schemas inside of others -/

/-- The shapes of a schema itself: that of an object, or those of a union. -/
def shapes : Schema → List (Shape Schema)
  | .object shape => [shape]
  | .union choice => choice.shapes
  | _ => []

/-- The schemas that a schema is directly made of. -/
def children (schema : Schema) : List Schema :=
  schema.element?.toList ++ schema.shapes.flatMap fun shape => shape.fields.map (·.schema)

/-- A schema lies inside of another at any depth, or is it. -/
inductive Inside : Schema → Schema → Prop
  | self (schema : Schema) : Inside schema schema
  | child {inner part schema : Schema} : part ∈ schema.children → Inside inner part → Inside inner schema

theorem element_mem_children {schema element : Schema} (held : schema.element? = some element) :
    element ∈ schema.children :=
  List.mem_append_left _ (by simp [held])

theorem field_mem_children {schema : Schema} {shape : Shape Schema} {f : Field Schema} (mem : shape ∈ schema.shapes)
    (held : f ∈ shape.fields) : f.schema ∈ schema.children :=
  List.mem_append_right _ (List.mem_flatMap.2 ⟨shape, mem, List.mem_map.2 ⟨f, held, rfl⟩⟩)

/-- What has no element is directly made of the schemas of its fields. -/
theorem exists_field_of_mem_children {schema part : Schema} (block : schema.element? = none)
    (mem : part ∈ schema.children) : ∃ shape ∈ schema.shapes, ∃ f ∈ shape.fields, f.schema = part := by
  rcases List.mem_append.1 mem with element | mem
  · simp [block] at element
  · obtain ⟨shape, own, held⟩ := List.mem_flatMap.1 mem
    exact ⟨shape, own, List.mem_map.1 held⟩

/-- Induction over schemas by what they are directly made of. -/
theorem childInduction {motive : Schema → Prop}
    (step : ∀ schema, (∀ part ∈ schema.children, motive part) → motive schema) (schema : Schema) : motive schema := by
  induction schema with
  | scalar kind => exact step _ (by simp [children, element?, shapes])
  | list items ih => exact step _ (by simpa [children, element?, shapes] using ih)
  | set items ih => exact step _ (by simpa [children, element?, shapes] using ih)
  | map element ih => exact step _ (by simpa [children, element?, shapes] using ih)
  | object shape ih => exact step _ (by simpa [children, element?, shapes] using ih)
  | union choice ih =>
    refine step _ fun part mem => ?_
    obtain ⟨shape, shape_mem, f, declared, rfl⟩ := exists_field_of_mem_children rfl mem
    exact ih shape shape_mem f declared

/-! ### Single rules -/

theorem checkName_eq_ok_iff {place name : String} : checkName place name = .ok () ↔ isFieldName name = true := by
  unfold checkName
  split <;> simp_all

theorem forM_eq_ok_iff {α : Type} {check : α → Except SchemaError Unit} {items : List α} :
    items.forM check = .ok () ↔ ∀ item ∈ items, check item = .ok () := by
  induction items with
  | nil => simp [pure, Except.pure]
  | cons item rest ih =>
    change (check item >>= fun _ => rest.forM check) = .ok () ↔ _
    rw [then_eq_ok_iff, List.forall_mem_cons, ih]

theorem checkDistinct_eq_ok_iff {place : String} {fields : List (Field Schema)} :
    checkDistinct place fields = .ok () ↔ (fields.map Field.name).Nodup ∧ (fields.map Field.wireName).Nodup := by
  have general : ∀ names wireNames, checkDistinct.go place names wireNames fields = .ok () ↔
      ((fields.map Field.name).Nodup ∧ ∀ f ∈ fields, f.name ∉ names) ∧
        (fields.map Field.wireName).Nodup ∧ ∀ f ∈ fields, f.wireName ∉ wireNames := by
    induction fields with
    | nil => simp [checkDistinct.go]
    | cons f rest ih =>
      intro names wireNames
      unfold checkDistinct.go
      by_cases first : f.name ∈ names
      · simp [first]
      · by_cases second : f.wireName ∈ wireNames
        · simp [first, second]
        · simp only [List.contains_eq_mem, first, second, decide_false, Bool.false_eq_true, if_false, ih]
          simp only [List.map_cons, List.nodup_cons, List.mem_map, List.mem_cons, not_or, not_exists, not_and,
            forall_eq_or_imp]
          grind
  simpa [checkDistinct] using general [] []

/-- The tags that were added to claims: each once, and none that was there. -/
theorem add_eq_ok_iff {place variant : String} {values : List String} {claims after : Claims} :
    claims.add place variant values = .ok after ↔
      after = (values.map (·, variant)).reverse ++ claims ∧
        values.Nodup ∧ ∀ value ∈ values, value ∉ claims.map Prod.fst := by
  induction values generalizing claims with
  | nil => simp [Claims.add, eq_comm]
  | cons value rest ih =>
    unfold Claims.add
    cases found : claims.lookup value with
    | some first =>
      have present : value ∈ claims.map Prod.fst := by
        obtain ⟨before, behind, rfl, -⟩ := List.lookup_eq_some_iff.1 found
        simp
      simp only [reduceCtorEq, false_iff, not_and]
      exact fun _ _ absent => absent value List.mem_cons_self present
    | none =>
      have absent : value ∉ claims.map Prod.fst := by
        intro mem
        obtain ⟨claim, held, same⟩ := List.mem_map.1 mem
        simpa [same] using List.lookup_eq_none_iff.1 found claim held
      simp only [ih, List.map_cons, List.reverse_cons, List.append_assoc, List.singleton_append, List.nodup_cons,
        List.mem_cons, not_or]
      grind

/-! ### All rules -/

theorem checkFields_eq_ok_iff {place : String} {fields : List (Field Schema)} :
    checkFields place fields = .ok () ↔ ∀ f ∈ fields, isFieldName f.name = true ∧
      (∀ other ∈ f.aliases, isFieldName other = true) ∧ f.schema.check (fieldPlace place f.name) = .ok () := by
  induction fields with
  | nil => simp [checkFields]
  | cons f rest ih =>
    obtain ⟨name, wireName, schema, optional, computed, aliases, promotedFrom⟩ := f
    rw [List.forall_mem_cons, checkFields, then_eq_ok_iff, then_eq_ok_iff, then_eq_ok_iff, checkName_eq_ok_iff,
      forM_eq_ok_iff, ih]
    simp only [checkName_eq_ok_iff, and_assoc]

theorem checkVariants_eq_ok_iff {place : String} {claims : Claims} {variants : List (Variant Schema)} :
    checkVariants place claims variants = .ok () ↔
      ((variants.flatMap (·.values)).Nodup ∧ ∀ value ∈ variants.flatMap (·.values), value ∉ claims.map Prod.fst) ∧
        ∀ v ∈ variants, (∀ segment ∈ v.segment, isFieldName segment = true) ∧
          checkFields (variantPlace place v.name) v.shape.fields = .ok () ∧
          checkDistinct (variantPlace place v.name) v.shape.fields = .ok () := by
  induction variants generalizing claims with
  | nil => simp [checkVariants]
  | cons v rest ih =>
    obtain ⟨name, values, segment, ⟨shapeName, fields⟩⟩ := v
    have segments : segment.forM (checkName (variantPlace place name)) = .ok () ↔
        ∀ s ∈ segment, isFieldName s = true := by
      cases segment with
      | none => simp [pure, Except.pure]
      | some s => simp [checkName_eq_ok_iff]
    rw [List.forall_mem_cons, checkVariants, bind_eq_ok_iff]
    simp only [add_eq_ok_iff, then_eq_ok_iff, segments, ih, List.flatMap_cons, List.nodup_append, List.mem_append]
    have names : values.map (Prod.fst ∘ (·, name)) = values := by simp [Function.comp_def]
    constructor
    · rintro ⟨claims', ⟨rfl, nodup, absent⟩, usable, fieldsOk, distinct, ⟨restNodup, restAbsent⟩, others⟩
      simp only [List.map_append, List.map_reverse, List.map_map, names, List.mem_append, List.mem_reverse, not_or]
        at restAbsent
      refine ⟨⟨⟨nodup, restNodup, fun a here b there same => (restAbsent b there).1 (same ▸ here)⟩, ?_⟩,
        ⟨usable, fieldsOk, distinct⟩, others⟩
      rintro value (here | there)
      · exact absent value here
      · exact (restAbsent value there).2
    · rintro ⟨⟨⟨nodup, restNodup, apart⟩, absent⟩, ⟨usable, fieldsOk, distinct⟩, others⟩
      refine ⟨_, ⟨rfl, nodup, fun value mem => absent value (.inl mem)⟩, usable, fieldsOk, distinct,
        ⟨restNodup, fun value mem => ?_⟩, others⟩
      simp only [List.map_append, List.map_reverse, List.map_map, names, List.mem_append, List.mem_reverse, not_or]
      exact ⟨fun here => apart value here value mem rfl, absent value (.inr mem)⟩

theorem check_list_iff {place : String} {items : Collection Schema} :
    (list items).check place = .ok () ↔
      items.element.nestsCollections = false ∧ items.element.check (elementPlace place) = .ok () := by
  change (if items.element.nestsCollections then Except.error (.nestedCollection (elementPlace place))
    else items.element.check (elementPlace place)) = .ok () ↔ _
  by_cases nests : items.element.nestsCollections = true <;> simp [nests]

theorem check_set_iff {place : String} {items : Collection Schema} :
    (set items).check place = .ok () ↔
      items.element.nestsCollections = false ∧ items.element.check (elementPlace place) = .ok () := by
  change (if items.element.nestsCollections then Except.error (.nestedCollection (elementPlace place))
    else items.element.check (elementPlace place)) = .ok () ↔ _
  by_cases nests : items.element.nestsCollections = true <;> simp [nests]

theorem check_map_iff {place : String} {element : Schema} :
    (map element).check place = .ok () ↔ element.nestsCollections = false ∧ element.hidesMapKey = false ∧
      element.check (elementPlace place) = .ok () := by
  change (if element.nestsCollections then Except.error (.nestedCollection (elementPlace place))
    else element.check (elementPlace place) >>= fun _ =>
      if element.hidesMapKey then Except.error (.reservedMapKey place) else pure ()) = .ok () ↔ _
  by_cases nests : element.nestsCollections = true
  · simp [nests]
  · simp only [nests, Bool.false_eq_true, if_false, then_eq_ok_iff]
    by_cases hides : element.hidesMapKey = true
    · simp [hides]
    · simp [hides, pure, Except.pure]

theorem check_object_iff {place : String} {shape : Shape Schema} :
    (object shape).check place = .ok () ↔
      checkFields place shape.fields = .ok () ∧ checkDistinct place shape.fields = .ok () := by
  exact then_eq_ok_iff

theorem check_union_iff {place : String} {choice : TaggedUnion Schema} :
    (union choice).check place = .ok () ↔ choice.variants ≠ [] ∧ isFieldName choice.discriminator.name = true ∧
      checkVariants place [] choice.variants = .ok () ∧
      checkFields (basePlace place) choice.base.fields = .ok () ∧
      checkDistinct (basePlace place) choice.base.fields = .ok () := by
  obtain ⟨name, discriminator, variants, ⟨baseName, baseFields⟩⟩ := choice
  cases variants with
  | nil => simp [check, bind, Except.bind]
  | cons v rest =>
    simp only [check, List.isEmpty_cons, Bool.false_eq_true, if_false, then_eq_ok_iff, checkName_eq_ok_iff]
    simp

/-- Which rules a schema keeps does not depend on the place that errors name. -/
theorem check_place (schema : Schema) {place other : String} (ok : schema.check place = .ok ()) :
    schema.check other = .ok () := by
  have fieldsMoved : ∀ {fields : List (Field Schema)} {p q : String},
      (∀ f ∈ fields, ∀ {p q : String}, f.schema.check p = .ok () → f.schema.check q = .ok ()) →
      checkFields p fields = .ok () ∧ checkDistinct p fields = .ok () →
      checkFields q fields = .ok () ∧ checkDistinct q fields = .ok () := by
    intro fields p q moved kept
    simp only [checkFields_eq_ok_iff, checkDistinct_eq_ok_iff] at kept ⊢
    exact ⟨fun f mem => ⟨(kept.1 f mem).1, (kept.1 f mem).2.1, moved f mem (kept.1 f mem).2.2⟩, kept.2⟩
  induction schema generalizing place other with
  | scalar kind => rfl
  | list items ih =>
    rw [check_list_iff] at ok ⊢
    exact ⟨ok.1, ih ok.2⟩
  | set items ih =>
    rw [check_set_iff] at ok ⊢
    exact ⟨ok.1, ih ok.2⟩
  | map element ih =>
    rw [check_map_iff] at ok ⊢
    exact ⟨ok.1, ok.2.1, ih ok.2.2⟩
  | object shape ih =>
    rw [check_object_iff] at ok ⊢
    exact fieldsMoved ih ok
  | union choice ih =>
    rw [check_union_iff, checkVariants_eq_ok_iff] at ok ⊢
    obtain ⟨some, usable, ⟨tags, variantsOk⟩, base⟩ := ok
    refine ⟨some, usable, ⟨tags, fun v mem => ⟨(variantsOk v mem).1, ?_⟩⟩, fieldsMoved (ih _ List.mem_cons_self) base⟩
    exact fieldsMoved (ih _ (List.mem_cons_of_mem _ (List.mem_map.2 ⟨v, mem, rfl⟩))) (variantsOk v mem).2

instance (schema : Schema) : Decidable schema.Valid :=
  match outcome : schema.validate with
  | .ok () => .isTrue outcome
  | .error error => .isFalse fun valid => by rw [Valid, outcome] at valid; cases valid

theorem valid_iff_check {schema : Schema} (place : String) : schema.Valid ↔ schema.check place = .ok () :=
  ⟨schema.check_place, schema.check_place⟩

/-! ### Valid schemas and their parts -/

/-- What validation promises of a shape: its names are usable and distinct, and the schemas of its fields are valid. -/
structure SoundShape (shape : Shape Schema) : Prop where
  name_usable : ∀ f ∈ shape.fields, isFieldName f.name = true
  alias_usable : ∀ f ∈ shape.fields, ∀ other ∈ f.aliases, isFieldName other = true
  names_nodup : (shape.fields.map Field.name).Nodup
  wireNames_nodup : (shape.fields.map Field.wireName).Nodup
  field_valid : ∀ f ∈ shape.fields, f.schema.Valid

theorem soundShape_iff {shape : Shape Schema} (place : String) :
    SoundShape shape ↔ checkFields place shape.fields = .ok () ∧ checkDistinct place shape.fields = .ok () := by
  rw [checkFields_eq_ok_iff, checkDistinct_eq_ok_iff]
  constructor
  · rintro ⟨names, aliases, distinct, wire, valid⟩
    exact ⟨fun f mem => ⟨names f mem, aliases f mem, (valid_iff_check _).1 (valid f mem)⟩, distinct, wire⟩
  · rintro ⟨fields, distinct, wire⟩
    exact ⟨fun f mem => (fields f mem).1, fun f mem => (fields f mem).2.1, distinct, wire,
      fun f mem => (valid_iff_check _).2 (fields f mem).2.2⟩

theorem valid_list_iff {items : Collection Schema} :
    (list items).Valid ↔ items.element.nestsCollections = false ∧ items.element.Valid := by
  rw [valid_iff_check "", check_list_iff, valid_iff_check]

theorem valid_set_iff {items : Collection Schema} :
    (set items).Valid ↔ items.element.nestsCollections = false ∧ items.element.Valid := by
  rw [valid_iff_check "", check_set_iff, valid_iff_check]

theorem valid_map_iff {element : Schema} :
    (map element).Valid ↔ element.nestsCollections = false ∧ element.hidesMapKey = false ∧ element.Valid := by
  rw [valid_iff_check "", check_map_iff, valid_iff_check]

theorem valid_object_iff {shape : Shape Schema} : (object shape).Valid ↔ SoundShape shape := by
  rw [valid_iff_check "", check_object_iff, soundShape_iff]

theorem valid_union_iff {choice : TaggedUnion Schema} :
    (union choice).Valid ↔ choice.variants ≠ [] ∧ isFieldName choice.discriminator.name = true ∧
      (choice.variants.flatMap (·.values)).Nodup ∧
      (∀ v ∈ choice.variants, ∀ segment ∈ v.segment, isFieldName segment = true) ∧
      ∀ shape ∈ choice.shapes, SoundShape shape := by
  rw [valid_iff_check "", check_union_iff, checkVariants_eq_ok_iff, ← soundShape_iff]
  simp only [← soundShape_iff, TaggedUnion.shapes, List.forall_mem_cons, List.forall_mem_map]
  constructor
  · rintro ⟨some, usable, ⟨⟨tags, -⟩, variants⟩, base⟩
    exact ⟨some, usable, tags, fun v mem => (variants v mem).1, base, fun v mem => (variants v mem).2⟩
  · rintro ⟨some, usable, tags, segments, base, variants⟩
    exact ⟨some, usable, ⟨⟨tags, by simp⟩, fun v mem => ⟨segments v mem, variants v mem⟩⟩, base⟩

/-- A block leaves the key of a map entry alone if none of its fields has the name of the key. -/
theorem hidesMapKey_eq_false_iff {schema : Schema} :
    schema.hidesMapKey = false ↔ ∀ shape ∈ schema.shapes, ∀ f ∈ shape.fields, f.name ≠ mapKeyField := by
  have absent : ∀ shape : Shape Schema,
      (shape.field? mapKeyField).isSome = false ↔ ∀ f ∈ shape.fields, f.name ≠ mapKeyField := by
    intro shape
    simp [Shape.field?]
  cases schema with
  | object shape => simp only [hidesMapKey, absent, shapes, List.forall_mem_singleton]
  | union choice =>
    simp only [hidesMapKey, Bool.or_eq_false_iff, absent, List.any_eq_false, Bool.not_eq_true, shapes,
      TaggedUnion.shapes, List.forall_mem_cons, List.forall_mem_map]
  | scalar | list | set | map => simp [hidesMapKey, shapes]

/-- The shapes of a valid schema are sound. -/
theorem Valid.soundShape {schema : Schema} (valid : schema.Valid) {shape : Shape Schema}
    (mem : shape ∈ schema.shapes) : SoundShape shape := by
  cases schema with
  | object own => exact List.mem_singleton.1 mem ▸ valid_object_iff.1 valid
  | union choice => exact (valid_union_iff.1 valid).2.2.2.2 shape mem
  | scalar | list | set | map => cases mem

end Schema
end FlatStore
