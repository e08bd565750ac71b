import FlatStore.Proofs.Synthesized

/-!
Synthesis of parts. What is synthesized with some levels left is synthesized with more as well, and the place, which
only errors name, does not matter (`Synthesis.levels_covers`). So a type has one schema, however deep it is met
(`Synthesis.SchemaAt.unique`), and what is made of a part of a type is what synthesis gives for the part by itself
(`Synthesis.SchemaAt.synthesize`).
-/
namespace FlatStore

namespace Synthesis

/-! ### Computations that make as much -/

/-- Whether a computation makes all that another one makes, wherever it does so. -/
def Covers {α β : Type} (more less : String → α → Except SchemaError β) : Prop :=
  ∀ place other of made, less place of = .ok made → more other of = .ok made

/-- A computation that makes nothing is covered by every other. -/
theorem covers_tooDeep {α β : Type} (more : String → α → Except SchemaError β) :
    Covers more fun place _ => tooDeep place :=
  fun _ _ _ _ made => nomatch made

section

variable {catalog : Catalog} {schema schema' : String → Descriptor → Except SchemaError Schema}
  {shape shape' : String → ObjectDescriptor Descriptor → Except SchemaError (Shape Schema)}

theorem fieldsOf_covers (schemas : Covers schema' schema) (shapes : Covers shape' shape) :
    Covers (fieldsOf catalog schema' shape') (fieldsOf catalog schema shape) := by
  intro place other f fields ok
  cases embedded : f.embedded with
  | false =>
    rw [fieldsOf_plain embedded, map_eq_ok_iff] at ok ⊢
    obtain ⟨made, here, rfl⟩ := ok
    exact ⟨made, schemas _ _ _ _ here, rfl⟩
  | true =>
    rw [fieldsOf_embedded embedded] at ok ⊢
    by_cases unaliased : f.aliases.isEmpty = true
    · rw [if_pos unaliased] at ok ⊢
      split at ok
      · obtain ⟨made, here, rfl⟩ := map_eq_ok_iff.1 ok
        exact map_eq_ok_iff.2 ⟨made, shapes _ _ _ _ here, rfl⟩
      · cases ok
    · rw [if_neg unaliased] at ok
      cases ok

theorem shapeOf_covers (schemas : Covers schema' schema) (shapes : Covers shape' shape) :
    Covers (shapeOf catalog schema' shape') (shapeOf catalog schema shape) := by
  intro place other object made ok
  obtain ⟨parts, each, ok⟩ := bind_eq_ok_iff.1 ok
  obtain ⟨distinct, ok⟩ := then_eq_ok_iff.1 ok
  rw [Schema.checkDistinct_eq_ok_iff] at distinct
  apply bind_eq_ok_iff.2
  refine ⟨parts, mapM_eq_ok_iff.2 ?_, then_eq_ok_iff.2 ⟨Schema.checkDistinct_eq_ok_iff.2 distinct, ok⟩⟩
  exact (mapM_eq_ok_iff.1 each).imp fun f fields here => fieldsOf_covers schemas shapes _ _ _ _ here

theorem variantShape_covers (shapes : Covers shape' shape) :
    Covers (variantShape catalog shape') (variantShape catalog shape) := by
  intro place other type made ok
  unfold variantShape at ok ⊢
  split at ok
  · obtain ⟨own, here, rfl⟩ := map_eq_ok_iff.1 ok
    exact map_eq_ok_iff.2 ⟨own, shapes _ _ _ _ here, rfl⟩
  · cases ok

theorem variantsOf_covers (shapes : Covers shape' shape) (discriminator : Discriminator) (claims : Schema.Claims) :
    Covers (fun place => variantsOf catalog shape' place discriminator claims)
      (fun place => variantsOf catalog shape place discriminator claims) := by
  intro place other variants made ok
  induction variants generalizing claims made with
  | nil => exact ok
  | cons v rest ih =>
    obtain ⟨claimed, claim, ok⟩ := bind_eq_ok_iff.1 ok
    obtain ⟨own, here, ok⟩ := bind_eq_ok_iff.1 ok
    obtain ⟨others, later, ok⟩ := bind_eq_ok_iff.1 ok
    rw [Schema.add_eq_ok_iff] at claim
    apply bind_eq_ok_iff.2
    refine ⟨claimed, Schema.add_eq_ok_iff.2 claim, bind_eq_ok_iff.2 ⟨own, ?_, bind_eq_ok_iff.2 ⟨others, ?_, ok⟩⟩⟩
    · exact variantShape_covers shapes _ _ _ _ here
    · exact ih claimed others later

/-- Which fields are merged does not depend on the place and the variant that errors name. -/
theorem mergeFields_covers {place variant other another : String} {merged fields out : List (Field Schema)}
    (ok : mergeFields place variant merged fields = .ok out) : mergeFields other another merged fields = .ok out := by
  induction fields generalizing merged with
  | nil => exact ok
  | cons f rest ih =>
    rw [mergeFields] at ok ⊢
    cases found : merged.find? (·.name = f.name) with
    | none =>
      rw [found] at ok
      exact ih ok
    | some seen =>
      rw [found] at ok
      by_cases agree : seen.wireName = f.wireName ∧ seen.schema = f.schema
      · simp only [if_pos agree] at ok ⊢
        exact ih ok
      · simp only [if_neg agree] at ok
        cases ok

theorem mergeVariants_covers {place other tagName : String} {merged out : List (Field Schema)}
    {variants : List (Variant Schema)} (ok : mergeVariants place tagName merged variants = .ok out) :
    mergeVariants other tagName merged variants = .ok out := by
  induction variants generalizing merged with
  | nil => exact ok
  | cons v rest ih =>
    obtain ⟨next, here, ok⟩ := bind_eq_ok_iff.1 ok
    exact bind_eq_ok_iff.2 ⟨next, mergeFields_covers here, ih ok⟩

theorem mergedBase_covers (name : String) (discriminator : Discriminator) :
    Covers (fun place => mergedBase name place discriminator) (fun place => mergedBase name place discriminator) := by
  intro place other variants made ok
  obtain ⟨fields, each, ok⟩ := bind_eq_ok_iff.1 ok
  obtain ⟨distinct, ok⟩ := then_eq_ok_iff.1 ok
  rw [Schema.checkDistinct_eq_ok_iff] at distinct
  apply bind_eq_ok_iff.2
  exact ⟨fields, mergeVariants_covers each, then_eq_ok_iff.2 ⟨Schema.checkDistinct_eq_ok_iff.2 distinct, ok⟩⟩

theorem unionOf_covers (shapes : Covers shape' shape) : Covers (unionOf catalog shape') (unionOf catalog shape) := by
  intro place other choice made ok
  unfold unionOf at ok ⊢
  rw [refuse_eq_ok_iff] at ok ⊢
  obtain ⟨some, ok⟩ := ok
  obtain ⟨variants, each, ok⟩ := bind_eq_ok_iff.1 ok
  have each := variantsOf_covers shapes choice.discriminator [] _ other _ _ each
  refine ⟨some, bind_eq_ok_iff.2 ⟨variants, each, ?_⟩⟩
  cases declared : choice.base with
  | some type =>
    rw [declared] at ok
    obtain ⟨base, own, ok⟩ := bind_eq_ok_iff.1 ok
    exact bind_eq_ok_iff.2 ⟨base, variantShape_covers shapes _ _ _ _ own, ok⟩
  | none =>
    rw [declared] at ok
    obtain ⟨base, own, ok⟩ := bind_eq_ok_iff.1 ok
    exact bind_eq_ok_iff.2 ⟨base, mergedBase_covers choice.name choice.discriminator _ _ _ _ own, ok⟩

theorem elementOf_covers (schemas : Covers schema' schema) : Covers (elementOf schema') (elementOf schema) := by
  intro place other type made ok
  obtain ⟨element, here, ok⟩ := bind_eq_ok_iff.1 ok
  obtain ⟨flat, ok⟩ := refuse_eq_ok_iff.1 ok
  exact bind_eq_ok_iff.2 ⟨element, schemas _ _ _ _ here, refuse_eq_ok_iff.2 ⟨flat, ok⟩⟩

theorem collectionOf_covers (schemas : Covers schema' schema) : Covers (collectionOf schema') (collectionOf schema) := by
  intro place other type made ok
  obtain ⟨element, here, ok⟩ := bind_eq_ok_iff.1 ok
  exact bind_eq_ok_iff.2 ⟨element, elementOf_covers schemas _ _ _ _ here, ok⟩

end

/-! ### Levels that make as much -/

/-- Whether with some levels left all is made that is made with others left. -/
structure Level.Covers (more less : Level) : Prop where
  schema : Synthesis.Covers more.schema less.schema
  shape : Synthesis.Covers more.shape less.shape

variable {catalog : Catalog} {below below' variants variants' : Level}

theorem schemaOf_covers (inner : below'.Covers below) (shapes : variants'.Covers variants) :
    Covers (schemaOf catalog below' variants') (schemaOf catalog below variants) := by
  intro place other type made ok
  cases type with
  | scalar kind => exact ok
  | optional type => exact inner.schema _ _ _ _ ok
  | list element =>
    obtain ⟨items, here, rfl⟩ := map_eq_ok_iff.1 ok
    exact map_eq_ok_iff.2 ⟨items, collectionOf_covers inner.schema _ _ _ _ here, rfl⟩
  | set element =>
    obtain ⟨items, here, rfl⟩ := map_eq_ok_iff.1 ok
    exact map_eq_ok_iff.2 ⟨items, collectionOf_covers inner.schema _ _ _ _ here, rfl⟩
  | map element =>
    obtain ⟨held, here, ok⟩ := bind_eq_ok_iff.1 ok
    obtain ⟨plain, ok⟩ := refuse_eq_ok_iff.1 ok
    exact bind_eq_ok_iff.2 ⟨held, elementOf_covers inner.schema _ _ _ _ here, refuse_eq_ok_iff.2 ⟨plain, ok⟩⟩
  | object object =>
    obtain ⟨shape, here, rfl⟩ := map_eq_ok_iff.1 ok
    exact map_eq_ok_iff.2 ⟨shape, inner.shape _ _ _ _ here, rfl⟩
  | union choice =>
    obtain ⟨union, here, rfl⟩ := map_eq_ok_iff.1 ok
    exact map_eq_ok_iff.2 ⟨union, unionOf_covers shapes.shape _ _ _ _ here, rfl⟩
  | unsupported name => cases ok
  | named name => cases ok

theorem above_covers (inner : below'.Covers below) (shapes : variants'.Covers variants) :
    (below'.above catalog variants').Covers (below.above catalog variants) where
  schema := schemaOf_covers inner shapes
  shape := shapeOf_covers (schemaOf_covers inner shapes) inner.shape

/-- With no levels left nothing is made but shapes without fields, which are made anywhere. -/
theorem covers_ground (n : Nat) : (levels catalog n).1.Covers (ground catalog) := by
  cases n with
  | zero => exact ⟨covers_tooDeep _, shapeOf_covers (covers_tooDeep _) (covers_tooDeep _)⟩
  | succ n => exact ⟨covers_tooDeep _, shapeOf_covers (covers_tooDeep _) (covers_tooDeep _)⟩

/-- With more levels left as much is made. -/
theorem levels_covers {n m : Nat} (le : n ≤ m) : (levels catalog m).1.Covers (levels catalog n).1 := by
  -- the variants of a union are made with one level less, and so stand in the same order
  have both : (levels catalog m).1.Covers (levels catalog n).1 ∧ (levels catalog m).2.Covers (levels catalog n).2 := by
    induction n generalizing m with
    | zero =>
      rw [levels_snd, levels_snd]
      exact ⟨covers_ground m, covers_ground (m - 1)⟩
    | succ n ih =>
      obtain ⟨k, rfl⟩ : ∃ k, m = k + 1 := ⟨m - 1, by omega⟩
      obtain ⟨inner, shapes⟩ := ih (Nat.le_of_succ_le_succ le)
      exact ⟨above_covers inner shapes, inner⟩
  exact both.1

variable {n m : Nat} {type : Descriptor} {schema other : Schema}

/-- What is made of a type is made with more levels left as well, at any place. -/
theorem SchemaAt.make (ok : SchemaAt catalog n type schema) (le : n ≤ m) (place : String) :
    (levels catalog m).1.schema place type = .ok schema := by
  obtain ⟨there, ok⟩ := ok
  exact (levels_covers le).schema there place type schema ok

/-- A type has one schema, however many levels are left for it. -/
theorem SchemaAt.unique (first : SchemaAt catalog n type schema) (second : SchemaAt catalog m type other) :
    schema = other := by
  have one := first.make (Nat.le_max_left n m) ""
  have same := second.make (Nat.le_max_right n m) ""
  exact Except.ok.inj (one.symm.trans same)

theorem ShapeAt.unique {object : ObjectDescriptor Descriptor} {shape own : Shape Schema}
    (first : ShapeAt catalog n object shape) (second : ShapeAt catalog m object own) : shape = own := by
  obtain ⟨there, one⟩ := first
  obtain ⟨elsewhere, same⟩ := second
  have one := (levels_covers (Nat.le_max_left n m)).shape there "" object shape one
  have same := (levels_covers (Nat.le_max_right n m)).shape elsewhere "" object own same
  exact Except.ok.inj (one.symm.trans same)

end Synthesis

/-! ### Names in types -/

namespace Descriptor

/-- Whether a type names no other, except inside objects and unions. -/
def Expanded : Descriptor → Prop
  | .optional inner => inner.Expanded
  | .list element | .set element | .map element => element.Expanded
  | .named _ => False
  | _ => True

theorem expandWith_expanded {types : String → Descriptor} (each : ∀ name, (types name).Expanded) :
    (type : Descriptor) → (type.expandWith types).Expanded
  | .optional inner => expandWith_expanded each inner
  | .list element | .set element | .map element => expandWith_expanded each element
  | .named name => each name
  | .scalar _ | .object _ | .union _ | .unsupported _ => trivial

theorem expandWith_eq_self (types : String → Descriptor) :
    (type : Descriptor) → type.Expanded → type.expandWith types = type
  | .optional inner, expanded => congrArg Descriptor.optional (expandWith_eq_self types inner expanded)
  | .list element, expanded => congrArg Descriptor.list (expandWith_eq_self types element expanded)
  | .set element, expanded => congrArg Descriptor.set (expandWith_eq_self types element expanded)
  | .map element, expanded => congrArg Descriptor.map (expandWith_eq_self types element expanded)
  | .named _, expanded => expanded.elim
  | .scalar _, _ | .object _, _ | .union _, _ | .unsupported _, _ => rfl

theorem Expanded.bare {type : Descriptor} (expanded : type.Expanded) : type.bare.Expanded := by
  cases type with
  | optional inner => exact expanded
  | scalar | list | set | map | object | union | unsupported | named => exact expanded

end Descriptor

namespace Catalog

theorem typeWithin_expanded (catalog : Catalog) (bound : Nat) (name : String) :
    (catalog.typeWithin bound name).Expanded := by
  induction bound generalizing name with
  | zero => trivial
  | succ bound ih =>
    rw [typeWithin]
    cases catalog.lookup name with
    | some type => exact Descriptor.expandWith_expanded ih type
    | none => trivial

theorem expand_expanded (catalog : Catalog) (type : Descriptor) : (catalog.expand type).Expanded :=
  Descriptor.expandWith_expanded (catalog.typeWithin_expanded catalog.length) type

/-- A type without names stays as it is. -/
theorem expand_eq_self {catalog : Catalog} {type : Descriptor} (expanded : type.Expanded) :
    catalog.expand type = type :=
  Descriptor.expandWith_eq_self _ type expanded

/-- The type of the values of a field has no names in it. -/
theorem expand_valueType (catalog : Catalog) (f : FieldDescriptor Descriptor) :
    catalog.expand (f.valueType catalog) = f.valueType catalog :=
  expand_eq_self (catalog.expand_expanded f.type).bare

end Catalog

/-! ### Synthesis of parts -/

/-- A type is synthesized by itself if a schema is made of it with no more than all levels left. -/
theorem Synthesis.SchemaAt.synthesize {catalog : Catalog} {n : Nat} {type : Descriptor} {schema : Schema}
    (ok : SchemaAt catalog n (catalog.expand type) schema) (le : n ≤ maxDepth) (valid : schema.Valid) :
    type.synthesize catalog = .ok schema := by
  apply bind_eq_ok_iff.2
  exact ⟨schema, ok.make le _, then_eq_ok_iff.2 ⟨valid, rfl⟩⟩

theorem Descriptor.valid_of_synthesize {catalog : Catalog} {type : Descriptor} {schema : Schema}
    (synthesized : type.synthesize catalog = .ok schema) : schema.Valid := by
  obtain ⟨made, -, checked⟩ := bind_eq_ok_iff.1 synthesized
  obtain ⟨valid, same⟩ := then_eq_ok_iff.1 checked
  cases same
  exact valid

end FlatStore
