import FlatStore.Proofs.Fit
import FlatStore.Proofs.Order
import FlatStore.Proofs.Stable
import Mathlib.Data.List.Forall2

/-!
Documents in another order. Two documents are alike if they differ in nothing but the order of members and of the
elements of sets (`Alike`). Of two that are alike both fit a schema or neither does. They are stored as the same
entries if the elements of their sets are alike in the order in which they are written, which is always so where sets
have scalars as elements (`Schema.flatten_alike`). It need not be so where the elements are objects: their order is
that of their texts, and the text of an object shows the order of its members.
-/
namespace FlatStore

/-! ### Documents that are alike -/

/-- Whether all sets of a schema have scalars as elements, without a wrapper. -/
def Schema.ScalarSets (schema : Schema) : Prop :=
  ∀ c, Inside (.set c) schema → c.wrapper = none ∧ ∃ kind, c.element = .scalar kind

theorem Schema.ScalarSets.child {schema part : Schema} (scalars : schema.ScalarSets) (mem : part ∈ schema.children) :
    part.ScalarSets :=
  fun c inside => scalars c (.child mem inside)

/-- What a schema has to say of a value. -/
inductive Role where
  | unseen
  | value (schema : Schema)
  /-- An item with an element under a name. -/
  | wrapped (name : String) (element : Schema)

def Collection.itemRole (c : Collection Schema) : Role :=
  match c.wrapper with
  | none => .value c.element
  | some name => .wrapped name c.element

def Shape.memberRole (shape : Shape Schema) (name : String) : Role :=
  match shape.fields.find? (·.wireName = name) with
  | some f => .value f.schema
  | none => .unseen

namespace Role

def item : Role → Role
  | .value schema => (schema.collection?.map Collection.itemRole).getD .unseen
  | _ => .unseen

def member (role : Role) (members : List (String × Json)) (name : String) : Role :=
  match role with
  | .unseen => .unseen
  | .value (.map element) => .value element
  | .value schema => (schema.shapeFor members).memberRole name
  | .wrapped other element => if name = other then .value element else .unseen

end Role

/-- Whether two values are the same but for the order of members and of the elements of sets. If they are `aligned`, the
elements of sets are alike in the order in which they are written. -/
inductive Alike (aligned : Prop) : Role → Json → Json → Prop
  | same (role : Role) (v : Json) : Alike aligned role v v
  | items {role : Role} {xs ys : List Json} : (∀ c, role ≠ .value (.set c)) → xs.length = ys.length →
    (∀ pair ∈ xs.zip ys, Alike aligned role.item pair.1 pair.2) → Alike aligned role (.array xs) (.array ys)
  | set {c : Collection Schema} {xs ys first second : List Json} : first.Perm xs → second.Perm ys →
    (aligned → first = Schema.setOrder xs ∧ second = Schema.setOrder ys) → first.length = second.length →
    (∀ pair ∈ first.zip second, Alike aligned c.itemRole pair.1 pair.2) →
    Alike aligned (.value (.set c)) (.array xs) (.array ys)
  | members {role : Role} {ms ns : List (String × Json)} : (ms.map Prod.fst).Perm (ns.map Prod.fst) →
    (∀ name v w, ms.lookup name = some v → ns.lookup name = some w → Alike aligned (role.member ms name) v w) →
    Alike aligned role (.object ms) (.object ns)

/-! ### Parts of documents that are alike -/

theorem forall_mem_iff_of_forall₂ {α β : Type} {P : α → Prop} {Q : β → Prop} {xs : List α} {ys : List β}
    (each : List.Forall₂ (fun x y => P x ↔ Q y) xs ys) : (∀ x ∈ xs, P x) ↔ ∀ y ∈ ys, Q y := by
  induction each with
  | nil => simp
  | cons head _ ih => rw [List.forall_mem_cons, List.forall_mem_cons, head, ih]

namespace Alike

variable {aligned : Prop} {role : Role} {schema : Schema} {c : Collection Schema} {v w x y : Json} {xs ys : List Json}
  {ms ns : List (String × Json)}

theorem eq_null_iff (alike : Alike aligned role v w) : v = .null ↔ w = .null := by
  cases alike <;> simp

theorem cases_form (alike : Alike aligned role v w) :
    v = w ∨ (∃ xs ys, v = .array xs ∧ w = .array ys) ∨ ∃ ms ns, v = .object ms ∧ w = .object ns := by
  cases alike with
  | same => exact .inl rfl
  | items | set => exact .inr (.inl ⟨_, _, rfl, rfl⟩)
  | members => exact .inr (.inr ⟨_, _, rfl, rfl⟩)

/-- Arrays that a schema stores as lists or sets have items that are alike. They are so in the order in which they are
written in a list, and in a set if the arrays are aligned. -/
theorem collection (form : schema.collection? = some c) (alike : Alike aligned (.value schema) (.array xs) (.array ys)) :
    ∃ first second, first.Perm xs ∧ second.Perm ys ∧
      ((aligned ∨ schema ≠ .set c) → first = schema.arranged xs ∧ second = schema.arranged ys) ∧
        List.Forall₂ (Alike aligned c.itemRole) first second := by
  cases alike with
  | same =>
    have arranged := schema.arranged_perm xs
    exact ⟨_, _, arranged, arranged, fun _ => ⟨rfl, rfl⟩, List.forall₂_same.2 fun item _ => .same _ item⟩
  | items plain length each =>
    have role : (Role.value schema).item = c.itemRole := by rw [Role.item, form]; rfl
    have arranged : ∀ given, schema.arranged given = given := by
      intro given
      cases schema with
      | set items => exact absurd rfl (plain items)
      | scalar | list | map | object | union => rfl
    rw [role] at each
    exact ⟨xs, ys, .refl _, .refl _, fun _ => ⟨(arranged xs).symm, (arranged ys).symm⟩,
      List.forall₂_iff_zip.2 ⟨length, fun {a b} mem => each (a, b) mem⟩⟩
  | set first second order length each =>
    cases form
    exact ⟨_, _, first, second, fun settled => order (settled.resolve_right (absurd rfl)),
      List.forall₂_iff_zip.2 ⟨length, fun {a b} mem => each (a, b) mem⟩⟩

theorem lookup (alike : Alike aligned role (.object ms) (.object ns)) (name : String) :
    (ms.lookup name = none ∧ ns.lookup name = none) ∨ ∃ v w, ms.lookup name = some v ∧ ns.lookup name = some w ∧
      Alike aligned (role.member ms name) v w := by
  cases alike with
  | same =>
    cases found : ms.lookup name with
    | none => exact .inl ⟨rfl, rfl⟩
    | some v => exact .inr ⟨v, v, rfl, rfl, .same _ v⟩
  | members names each =>
    cases first : ms.lookup name with
    | none =>
      rw [lookup_eq_none_iff, names.mem_iff, ← lookup_eq_none_iff] at first
      exact .inl ⟨rfl, first⟩
    | some v =>
      cases second : ns.lookup name with
      | none =>
        rw [lookup_eq_none_iff, ← names.mem_iff, ← lookup_eq_none_iff, first] at second
        cases second
      | some w => exact .inr ⟨v, w, rfl, rfl, each name v w first second⟩

theorem names_perm (alike : Alike aligned role (.object ms) (.object ns)) :
    (ms.map Prod.fst).Perm (ns.map Prod.fst) := by
  cases alike with
  | same => exact .refl _
  | members names => exact names

/-- Items that are alike are wrapped both or neither, and have elements that are alike. -/
theorem unwrap (alike : Alike aligned c.itemRole x y) :
    (c.Wraps x ↔ c.Wraps y) ∧ Alike aligned (.value c.element) (c.unwrap x) (c.unwrap y) := by
  cases wrapper : c.wrapper with
  | none =>
    have bare : ∀ item, c.unwrap item = item := by simp [Collection.unwrap, wrapper]
    rw [Collection.itemRole, wrapper] at alike
    rw [bare, bare]
    exact ⟨iff_of_true (.inl wrapper) (.inl wrapper), alike⟩
  | some name =>
    rw [Collection.itemRole, wrapper] at alike
    rcases alike.cases_form with rfl | ⟨xs, ys, rfl, rfl⟩ | ⟨ms, ns, rfl, rfl⟩
    · exact ⟨.rfl, .same _ _⟩
    · have none : ∀ xs, c.unwrap (.array xs) = .null := by simp [Collection.unwrap, wrapper]
      rw [none, none]
      exact ⟨by simp [Collection.Wraps], .same _ _⟩
    · refine ⟨iff_of_true (.inr ⟨ms, rfl⟩) (.inr ⟨ns, rfl⟩), ?_⟩
      simp only [Collection.unwrap, wrapper]
      rcases alike.lookup name with ⟨first, second⟩ | ⟨v, w, first, second, inner⟩
      · rw [first, second]
        exact .same _ _
      · rw [first, second]
        simpa [Role.member] using inner

theorem tagOf_eq (alike : Alike aligned role (.object ms) (.object ns)) (discriminator : Discriminator) :
    Schema.tagOf discriminator ms = Schema.tagOf discriminator ns := by
  unfold Schema.tagOf
  rcases alike.lookup discriminator.wireName with ⟨first, second⟩ | ⟨v, w, first, second, inner⟩
  · rw [first, second]
  · rw [first, second]
    rcases inner.cases_form with rfl | ⟨xs, ys, rfl, rfl⟩ | ⟨ms, ns, rfl, rfl⟩ <;> rfl

theorem shapeFor_eq (alike : Alike aligned (.value schema) (.object ms) (.object ns)) :
    schema.shapeFor ms = schema.shapeFor ns := by
  cases schema with
  | union choice => rw [Schema.shapeFor, Schema.shapeFor, TaggedUnion.shapeOf, TaggedUnion.shapeOf, alike.tagOf_eq]
  | scalar | list | set | map | object => rfl

theorem segmentOf_eq (alike : Alike aligned (.value schema) v w) : schema.segmentOf v = schema.segmentOf w := by
  rcases alike.cases_form with rfl | ⟨xs, ys, rfl, rfl⟩ | ⟨ms, ns, rfl, rfl⟩
  · rfl
  · cases schema <;> rfl
  · cases schema with
    | union choice => rw [Schema.segmentOf, Schema.segmentOf, alike.tagOf_eq]
    | scalar | list | set | map | object => rfl

theorem value? {shape : Shape Schema} (sound : Schema.SoundShape shape) (block : schema.isBlock = true)
    (alike : Alike aligned (.value schema) (.object ms) (.object ns)) (own : schema.shapeFor ms = shape)
    {f : Field Schema} (mem : f ∈ shape.fields) : (f.value? ms = none ∧ f.value? ns = none) ∨
      ∃ v w, f.value? ms = some v ∧ f.value? ns = some w ∧ Alike aligned (.value f.schema) v w := by
  have role : (Role.value schema).member ms f.wireName = .value f.schema := by
    have declared : shape.fields.find? (·.wireName = f.wireName) = some f := by
      cases found : shape.fields.find? (·.wireName = f.wireName) with
      | none => simpa using List.find?_eq_none.1 found f mem
      | some g =>
        have name : g.wireName = f.wireName := by simpa using List.find?_some found
        rw [List.inj_on_of_nodup_map sound.wireNames_nodup (List.mem_of_find?_eq_some found) mem name]
    cases schema with
    | object | union => simp only [Role.member, own, Shape.memberRole, declared]
    | scalar | list | set | map => cases block
  rcases alike.lookup f.wireName with ⟨first, second⟩ | ⟨v, w, first, second, inner⟩
  · exact .inl ⟨Field.value?_eq_none_iff.2 (.inl first), Field.value?_eq_none_iff.2 (.inl second)⟩
  · rw [role] at inner
    by_cases null : v = .null
    · have other := inner.eq_null_iff.1 null
      exact .inl ⟨Field.value?_eq_none_iff.2 (.inr (null ▸ first)), Field.value?_eq_none_iff.2 (.inr (other ▸ second))⟩
    · have other := mt inner.eq_null_iff.2 null
      exact .inr ⟨v, w, Field.value?_eq_some_iff.2 ⟨first, null⟩, Field.value?_eq_some_iff.2 ⟨second, other⟩, inner⟩

/-- The entries of maps that are alike are alike in the order of their keys. -/
theorem entries {element : Schema} (alike : Alike aligned (.value (.map element)) (.object ms) (.object ns))
    (nodup : (ms.map Prod.fst).Nodup) :
    List.Forall₂ (fun m n => m.1 = n.1 ∧ Alike aligned (.value element) m.2 n.2) (Schema.mapOrder ms)
      (Schema.mapOrder ns) := by
  have names := Schema.names_mapOrder alike.names_perm
  have keys : List.Forall₂ (fun m n : String × Json => m.1 = n.1) (Schema.mapOrder ms) (Schema.mapOrder ns) := by
    have same := List.forall₂_eq_eq_eq (α := String) ▸ names
    rwa [List.forall₂_map_left_iff, List.forall₂_map_right_iff] at same
  obtain ⟨length, each⟩ := List.forall₂_iff_zip.1 keys
  refine List.forall₂_iff_zip.2 ⟨length, fun {m n} mem => ⟨each mem, ?_⟩⟩
  obtain ⟨left, right⟩ := List.of_mem_zip mem
  have first := (lookup_eq_some_iff_mem nodup).2 ((Schema.mapOrder_perm ms).mem_iff.1 left)
  have second := (lookup_eq_some_iff_mem (alike.names_perm.nodup_iff.1 nodup)).2
    ((Schema.mapOrder_perm ns).mem_iff.1 right)
  rw [← each mem] at second
  rcases alike.lookup m.1 with ⟨missing, -⟩ | ⟨v, w, found, other, inner⟩
  · rw [first] at missing
    cases missing
  · rw [first] at found
    rw [second] at other
    cases found
    cases other
    exact inner

/-! ### Documents that fit -/

private theorem forall_held_iff {fields : List (Field Schema)} {P : Field Schema → Json → Prop}
    (value : ∀ f ∈ fields, (f.value? ms = none ∧ f.value? ns = none) ∨
      ∃ v w, f.value? ms = some v ∧ f.value? ns = some w ∧ (P f v ↔ P f w)) :
    (∀ held ∈ heldFields ms fields, P held.1 held.2) ↔ ∀ held ∈ heldFields ns fields, P held.1 held.2 := by
  simp only [Prod.forall, mem_heldFields_iff, and_imp]
  refine forall_congr' fun f => ⟨fun each w mem second => ?_, fun each v mem first => ?_⟩
  · rcases value f mem with ⟨-, none⟩ | ⟨v, _, first, some, same⟩
    · simp [none] at second
    · obtain rfl := Option.some.inj (some.symm.trans second)
      exact same.1 (each v mem first)
  · rcases value f mem with ⟨none, -⟩ | ⟨_, w, some, second, same⟩
    · simp [none] at first
    · obtain rfl := Option.some.inj (some.symm.trans first)
      exact same.2 (each w mem second)

/-- Whether of any two documents that are alike both fit a schema or neither does. -/
def FitBoth (aligned : Prop) (schema : Schema) : Prop :=
  ∀ {v w}, schema.Valid → v.Distinct → Alike aligned (.value schema) v w → (schema.Fits v ↔ schema.Fits w)

private theorem fitBoth_scalar (kind : ScalarKind) : FitBoth aligned (.scalar kind) := by
  intro v w valid distinct alike
  rcases alike.cases_form with rfl | ⟨xs, ys, rfl, rfl⟩ | ⟨ms, ns, rfl, rfl⟩
  · rfl
  · simp [Schema.fits_scalar_iff, Scalar.ofJsonAs?]
  · simp [Schema.fits_scalar_iff, Scalar.ofJsonAs?]

private theorem fitBoth_items (form : schema.collection? = some c) (ih : FitBoth aligned c.element) :
    FitBoth aligned schema := by
  intro v w valid distinct alike
  rw [Schema.fits_items_iff form valid, Schema.fits_items_iff form valid]
  rcases alike.cases_form with rfl | ⟨xs, ys, rfl, rfl⟩ | ⟨ms, ns, rfl, rfl⟩
  · rfl
  · obtain ⟨first, second, perm, perm', -, each⟩ := alike.collection form
    have length : xs.length = ys.length := by rw [← perm.length_eq, ← perm'.length_eq, each.length_eq]
    have parts : List.Forall₂ (fun x y => (c.Wraps x ∧ c.element.Fits (c.unwrap x)) ↔
        (c.Wraps y ∧ c.element.Fits (c.unwrap y))) first second := by
      obtain ⟨same, zipped⟩ := List.forall₂_iff_zip.1 each
      refine List.forall₂_iff_zip.2 ⟨same, fun {x y} mem => ?_⟩
      obtain ⟨wraps, inner⟩ := (zipped mem).unwrap
      have item_mem := perm.mem_iff.1 (List.of_mem_zip mem).1
      have inner_distinct := Json.distinct_hereditary.unwrap (c := c) (Json.distinct_hereditary.item distinct item_mem)
      rw [wraps, ih (valid.element form).2 inner_distinct inner]
    have whole := forall_mem_iff_of_forall₂ parts
    simp only [perm.mem_iff, perm'.mem_iff] at whole
    simp [length, whole]
  · simp

private theorem fitBoth_map {element : Schema} (ih : FitBoth aligned element) : FitBoth aligned (.map element) := by
  intro v w valid distinct alike
  rw [Schema.fits_map_iff valid, Schema.fits_map_iff valid]
  rcases alike.cases_form with rfl | ⟨xs, ys, rfl, rfl⟩ | ⟨ms, ns, rfl, rfl⟩
  · rfl
  · simp
  · obtain ⟨same, zipped⟩ := List.forall₂_iff_zip.1 (alike.entries distinct.1)
    have parts : List.Forall₂ (fun m n : String × Json => element.Fits m.2 ↔ element.Fits n.2) (Schema.mapOrder ms)
        (Schema.mapOrder ns) := by
      refine List.forall₂_iff_zip.2 ⟨same, fun {m n} mem => ?_⟩
      have member_mem := (Schema.mapOrder_perm ms).mem_iff.1 (List.of_mem_zip mem).1
      exact ih (Schema.valid_map_iff.1 valid).2.2 (Json.distinct_hereditary.member distinct member_mem) (zipped mem).2
    have whole := forall_mem_iff_of_forall₂ parts
    simp only [(Schema.mapOrder_perm ms).mem_iff, (Schema.mapOrder_perm ns).mem_iff] at whole
    simpa using whole

private theorem fitBoth_block (block : schema.isBlock = true)
    (ih : ∀ shape ∈ schema.shapes, ∀ f ∈ shape.fields, FitBoth aligned f.schema) : FitBoth aligned schema := by
  intro v w valid distinct alike
  rw [Schema.fits_block_iff block valid, Schema.fits_block_iff block valid]
  rcases alike.cases_form with rfl | ⟨xs, ys, rfl, rfl⟩ | ⟨ms, ns, rfl, rfl⟩
  · rfl
  · simp
  · have own := Schema.shapeFor_mem_shapes block ms
    have sound := valid.soundShape own
    have value : ∀ f ∈ (schema.shapeFor ms).fields, (f.value? ms = none ∧ f.value? ns = none) ∨
        ∃ v w, f.value? ms = some v ∧ f.value? ns = some w ∧ (f.schema.Fits v ↔ f.schema.Fits w) := by
      intro f mem
      refine (alike.value? sound block rfl mem).imp_right ?_
      rintro ⟨v, w, first, second, inner⟩
      have inner_distinct := Json.distinct_hereditary.lookup distinct (Field.value?_eq_some_iff.1 first).1
      exact ⟨v, w, first, second, ih _ own f mem (sound.field_valid f mem) inner_distinct inner⟩
    have required : (∀ f ∈ (schema.shapeFor ms).fields, f.optional = false → f.value? ms ≠ none) ↔
        ∀ f ∈ (schema.shapeFor ms).fields, f.optional = false → f.value? ns ≠ none := by
      refine forall₂_congr fun f mem => imp_congr_right fun _ => ?_
      rcases value f mem with ⟨first, second⟩ | ⟨v, w, first, second, -⟩ <;> simp [first, second]
    have held := forall_held_iff (P := fun f v => f.schema.Fits v) value
    simp only [Json.object.injEq, reduceCtorEq, false_or, exists_eq_left', ← alike.shapeFor_eq, required, held]

theorem fitBoth (aligned : Prop) (schema : Schema) : FitBoth aligned schema := by
  induction schema using Schema.formInduction with
  | scalar kind => exact fitBoth_scalar kind
  | items schema c form ih => exact fitBoth_items form ih
  | map element ih => exact fitBoth_map ih
  | block schema block ih => exact fitBoth_block block ih

/-! ### Documents that are aligned -/

/-- Whether the elements of sets have no order but that of their texts: they are aligned, or all of them are scalars. -/
def Settled (aligned : Prop) (schema : Schema) (v : Json) : Prop := aligned ∨ schema.ScalarSets ∧ schema.Fits v

theorem settled_item (valid : schema.Valid) (form : schema.collection? = some c)
    (settled : Settled aligned schema (.array xs)) (mem : x ∈ xs) : Settled aligned c.element (c.unwrap x) := by
  refine settled.imp_right fun ⟨scalars, fits⟩ => ⟨scalars.child (Schema.items_mem_children form), ?_⟩
  rcases (Schema.fits_items_iff form valid).1 fits with null | ⟨_, ⟨⟩, -, each⟩
  · cases null
  · exact (each x mem).2

theorem settled_entry {element : Schema} (valid : (Schema.map element).Valid)
    (settled : Settled aligned (.map element) (.object ms)) {member : String × Json} (mem : member ∈ ms) :
    Settled aligned element member.2 := by
  refine settled.imp_right fun ⟨scalars, fits⟩ => ⟨scalars.child (Schema.entry_mem_children element), ?_⟩
  rcases (Schema.fits_map_iff valid).1 fits with null | ⟨_, ⟨⟩, each⟩
  · cases null
  · exact each member mem

theorem settled_held (valid : schema.Valid) (block : schema.isBlock = true)
    (settled : Settled aligned schema (.object ms)) {f : Field Schema}
    (mem : (f, v) ∈ heldFields ms (schema.shapeFor ms).fields) : Settled aligned f.schema v := by
  have child := Schema.field_mem_children (Schema.shapeFor_mem_shapes block ms) (mem_heldFields_iff.1 mem).1
  refine settled.imp_right fun ⟨scalars, fits⟩ => ⟨scalars.child child, ?_⟩
  rcases (Schema.fits_block_iff block valid).1 fits with null | ⟨_, ⟨⟩, -, each⟩
  · cases null
  · exact each (f, v) mem

private theorem scalars_eq (bare : c.wrapper = none) {kind : ScalarKind} (element : c.element = .scalar kind)
    (fits : ∀ x ∈ xs, c.element.Fits (c.unwrap x)) (each : List.Forall₂ (Alike aligned c.itemRole) xs ys) : xs = ys := by
  rw [← List.forall₂_eq_eq_eq]
  obtain ⟨length, zipped⟩ := List.forall₂_iff_zip.1 each
  refine List.forall₂_iff_zip.2 ⟨length, fun {x y} mem => ?_⟩
  have leaf := fits x (List.of_mem_zip mem).1
  have itself : c.unwrap x = x := by simp [Collection.unwrap, bare]
  rw [element, itself, Schema.fits_scalar_iff] at leaf
  rcases (zipped mem).cases_form with same | ⟨xs, ys, rfl, rfl⟩ | ⟨ms, ns, rfl, rfl⟩
  · exact same
  · simp [Scalar.ofJsonAs?] at leaf
  · simp [Scalar.ofJsonAs?] at leaf

/-- Items whose order is settled are alike in the order in which they are written. -/
theorem arranged (valid : schema.Valid) (form : schema.collection? = some c)
    (settled : Settled aligned schema (.array xs)) (alike : Alike aligned (.value schema) (.array xs) (.array ys)) :
    List.Forall₂ (Alike aligned c.itemRole) (schema.arranged xs) (schema.arranged ys) := by
  obtain ⟨first, second, perm, perm', order, each⟩ := alike.collection form
  by_cases ordered : aligned ∨ schema ≠ .set c
  · obtain ⟨rfl, rfl⟩ := order ordered
    exact each
  · obtain ⟨loose, set⟩ := not_or.1 ordered
    obtain rfl := not_not.1 set
    obtain ⟨scalars, fits⟩ := settled.resolve_left loose
    obtain ⟨bare, kind, element⟩ := scalars c (.self _)
    have leaves : ∀ x ∈ first, c.element.Fits (c.unwrap x) := by
      rcases (Schema.fits_items_iff form valid).1 fits with null | ⟨_, ⟨⟩, -, inner⟩
      · cases null
      · exact fun x mem => (inner x (perm.mem_iff.1 mem)).2
    obtain rfl := scalars_eq bare element leaves each
    have whole : Schema.setOrder xs = Schema.setOrder ys := Schema.setOrder_eq_of_perm (perm.symm.trans perm')
    rw [Schema.arranged, Schema.arranged, whole]
    exact List.forall₂_same.2 fun item _ => .same _ item

theorem indexed_eq {α : Type} {write : Nat → α → Trace} {i : Nat} {parts others : List α}
    (same : List.Forall₂ (fun x y => ∀ i, write i x = write i y) parts others) :
    Trace.indexed write i parts = Trace.indexed write i others := by
  induction same generalizing i with
  | nil => rfl
  | cons head _ ih => rw [Trace.indexed, Trace.indexed, head, ih]

private theorem unwrapped_eq {element : Json → Address → Trace} {a : Address} (i : Nat)
    (alike : Alike aligned c.itemRole x y) (same : ∀ b, element (c.unwrap x) b = element (c.unwrap y) b) :
    Schema.traceItems.unwrap element c.wrapper a i x = Schema.traceItems.unwrap element c.wrapper a i y := by
  by_cases wraps : c.Wraps x
  · rw [Schema.unwrap_of_wraps wraps, Schema.unwrap_of_wraps (alike.unwrap.1.1 wraps), same]
  · unfold Schema.traceItems.unwrap
    cases wrapper : c.wrapper with
    | none => exact absurd (.inl wrapper) wraps
    | some name =>
      rcases alike.cases_form with rfl | ⟨xs, ys, rfl, rfl⟩ | ⟨ms, ns, rfl, rfl⟩
      · rfl
      · rfl
      · exact absurd (.inr ⟨ms, rfl⟩) wraps

/-- Whether any two documents that are alike are written the same, if the order of their sets is settled. -/
def TraceBoth (aligned : Prop) (schema : Schema) : Prop :=
  ∀ {v w}, schema.Valid → v.Distinct → Settled aligned schema v → Alike aligned (.value schema) v w →
    ∀ a sliced, schema.trace false v a sliced = schema.trace false w a sliced

private theorem traceBoth_scalar (kind : ScalarKind) : TraceBoth aligned (.scalar kind) := by
  intro v w valid distinct settled alike a sliced
  rcases alike.cases_form with rfl | ⟨xs, ys, rfl, rfl⟩ | ⟨ms, ns, rfl, rfl⟩
  · rfl
  · cases kind <;> rfl
  · cases kind <;> rfl

private theorem traceBoth_items (form : schema.collection? = some c) (ih : TraceBoth aligned c.element) :
    TraceBoth aligned schema := by
  intro v w valid distinct settled alike a sliced
  rcases alike.cases_form with rfl | ⟨xs, ys, rfl, rfl⟩ | ⟨ms, ns, rfl, rfl⟩
  · rfl
  · have each := alike.arranged valid form settled
    have parts : List.Forall₂ (fun x y => ∀ i,
        Schema.traceItems.unwrap (fun item b => c.element.trace false item b true) c.wrapper a i x =
          Schema.traceItems.unwrap (fun item b => c.element.trace false item b true) c.wrapper a i y)
        (schema.arranged xs) (schema.arranged ys) := by
      obtain ⟨same, zipped⟩ := List.forall₂_iff_zip.1 each
      refine List.forall₂_iff_zip.2 ⟨same, fun {x y} mem i => unwrapped_eq i (zipped mem) fun b => ?_⟩
      have item_mem := (schema.arranged_perm xs).mem_iff.1 (List.of_mem_zip mem).1
      have inner := (zipped mem).unwrap.2
      have inner_distinct := Json.distinct_hereditary.unwrap (c := c) (Json.distinct_hereditary.item distinct item_mem)
      exact ih (valid.element form).2 inner_distinct (settled_item valid form settled item_mem) inner b true
    rw [Schema.trace_items form, Schema.trace_items form]
    unfold Schema.traceItems
    rw [Schema.traceItems.write, Schema.traceItems.write, each.length_eq, indexed_eq parts]
  · rw [Schema.trace_not_array form (by simp) (by simp), Schema.trace_not_array form (by simp) (by simp)]
    rfl

private theorem traceBoth_map {element : Schema} (ih : TraceBoth aligned element) : TraceBoth aligned (.map element) := by
  intro v w valid distinct settled alike a sliced
  rcases alike.cases_form with rfl | ⟨xs, ys, rfl, rfl⟩ | ⟨ms, ns, rfl, rfl⟩
  · rfl
  · rfl
  · obtain ⟨same, zipped⟩ := List.forall₂_iff_zip.1 (alike.entries distinct.1)
    have length : ms.length = ns.length := by simpa using alike.names_perm.length_eq
    rw [Schema.trace_map, Schema.trace_map, Schema.traceEntries, Schema.traceEntries, length]
    refine congrArg (Trace.count a ns.length ++ ·) (indexed_eq ?_)
    refine List.forall₂_iff_zip.2 ⟨same, fun {m n} mem i => ?_⟩
    obtain ⟨key, inner⟩ := zipped mem
    have member_mem := (Schema.mapOrder_perm ms).mem_iff.1 (List.of_mem_zip mem).1
    dsimp only
    rw [key, Schema.trace_entry, Schema.trace_entry, ih (Schema.valid_map_iff.1 valid).2.2
      (Json.distinct_hereditary.member distinct member_mem) (settled_entry valid settled member_mem) inner]

private theorem traceBoth_block (block : schema.isBlock = true)
    (ih : ∀ shape ∈ schema.shapes, ∀ f ∈ shape.fields, TraceBoth aligned f.schema) : TraceBoth aligned schema := by
  intro v w valid distinct settled alike a sliced
  rcases alike.cases_form with rfl | ⟨xs, ys, rfl, rfl⟩ | ⟨ms, ns, rfl, rfl⟩
  · rfl
  · rw [Schema.trace_not_object (.inl block) (by simp) (by simp),
      Schema.trace_not_object (.inl block) (by simp) (by simp)]
    rfl
  · have own := Schema.shapeFor_mem_shapes block ms
    have sound := valid.soundShape own
    rw [Schema.trace_block block, Schema.trace_block block, ← alike.shapeFor_eq]
    refine congrArg (Trace.openBlock a sliced ++ ·)
      (Schema.traceFields_congr fun f mem => Schema.traceField_congr sound mem ?_)
    rcases alike.value? sound block rfl mem with ⟨first, second⟩ | ⟨v, w, first, second, inner⟩
    · rw [first, second]
      exact .none
    · have inner_distinct := Json.distinct_hereditary.lookup distinct (Field.value?_eq_some_iff.1 first).1
      have place : f.place v = f.place w := by rw [Field.place, Field.place, inner.segmentOf_eq]
      have inner_settled := settled_held valid block settled (mem_heldFields_iff.2 ⟨mem, first⟩)
      rw [first, second]
      exact .some ⟨place, ih _ own f mem (sound.field_valid f mem) inner_distinct inner_settled inner _ false⟩

theorem traceBoth (aligned : Prop) (schema : Schema) : TraceBoth aligned schema := by
  induction schema using Schema.formInduction with
  | scalar kind => exact traceBoth_scalar kind
  | items schema c form ih => exact traceBoth_items form ih
  | map element ih => exact traceBoth_map ih
  | block schema block ih => exact traceBoth_block block ih

end Alike

namespace Schema

variable {schema : Schema} {v w : Json}

/-- Of two documents that are alike both fit a schema or neither does. They have the same outcome if the elements of
their sets are alike in the order in which they are written, and the same store if all sets have scalars as elements. -/
theorem flatten_alike (valid : schema.Valid) (distinct : v.Distinct) (alike : Alike False (.value schema) v w) :
    ((∃ s, schema.flatten v false = .ok s) ↔ ∃ s, schema.flatten w false = .ok s) ∧
      (Alike True (.value schema) v w → schema.flatten v false = schema.flatten w false) ∧
        (schema.ScalarSets → ∀ s, schema.flatten v false = .ok s → schema.flatten w false = .ok s) := by
  have stored : ∀ value, (∃ s, schema.flatten value false = .ok s) ↔ schema.Fits value := by
    intro value
    constructor
    · rintro ⟨s, stored⟩
      exact (flatten_eq_ok_iff.1 stored).1.fits valid
    · intro fits
      exact ⟨_, flatten_eq_ok_iff.2 ⟨fits .root false, rfl⟩⟩
  have same : ∀ {aligned : Prop}, Alike.Settled aligned schema v → Alike aligned (.value schema) v w →
      schema.flatten v false = schema.flatten w false := by
    intro aligned settled alike
    rw [flatten, flattenInto, Alike.traceBoth _ schema valid distinct settled alike, flatten, flattenInto]
  refine ⟨?_, fun aligned => same (.inl trivial) aligned, fun scalars s first => ?_⟩
  · rw [stored, stored, Alike.fitBoth _ schema valid distinct alike]
  · rw [← same (.inr ⟨scalars, (stored v).1 ⟨s, first⟩⟩) alike, first]

def shuffledRule : Json :=
  .object [("tags", .array [.string "a", .string "b"]), ("extra", .bool true),
    ("event", .object [("type", .string "tap")])]

theorem flatten_alike_shuffledRule : Alike False (.value rule) tapRule shuffledRule ∧
    ∃ s, rule.flatten tapRule false = .ok s ∧ rule.flatten shuffledRule false = .ok s := by
  have alike : Alike False (.value rule) tapRule shuffledRule := by
    refine .members (by decide) fun name v w first second => ?_
    have mem := (lookup_eq_some_iff_mem (by decide)).1 first
    have mem' := (lookup_eq_some_iff_mem (by decide)).1 second
    simp only [List.mem_cons, Prod.mk.injEq, List.not_mem_nil, or_false] at mem mem'
    rcases mem with ⟨rfl, rfl⟩ | ⟨rfl, rfl⟩ | ⟨rfl, rfl⟩ <;> simp at mem' <;> subst mem'
    · exact .same _ _
    · exact .same _ _
    · refine .set (.swap (Json.string "b") (Json.string "a") []) (.refl _) False.elim rfl fun pair mem => ?_
      simp at mem
      rcases mem with rfl | rfl <;> exact .same _ _
  have scalars : rule.ScalarSets := by
    intro c inside
    obtain ⟨bare, kind, element, -⟩ := (by decide : rule.PlainSets) c inside
    exact ⟨bare, kind, element⟩
  have stored : rule.flatten tapRule false = .ok (.ofList (rule.writes tapRule .root false).entries) :=
    flatten_eq_ok_iff.2 ⟨accepts_tapRule, rfl⟩
  exact ⟨alike, _, stored, (flatten_alike (by decide) clean_tapRule.distinct alike).2.2 scalars _ stored⟩

/-- A set is stored as the list of its elements in their order. -/
theorem flatten_set (c : Collection Schema) (given : List Json) :
    (set c).flatten (.array given) false = (list c).flatten (.array (setOrder given)) false := rfl

def pairs : Collection Schema :=
  .of (.object ⟨"Pair", [.plain "a" (.scalar .string), .plain "b" (.scalar .string)]⟩)

/-- Two pairs, the first with its members in one of their orders. -/
def firstPair (swapped : Bool) : Json :=
  .object (if swapped then [("b", .string "2"), ("a", .string "1")] else [("a", .string "1"), ("b", .string "2")])

def secondPair : Json := .object [("a", .string "2"), ("b", .string "1")]

/-- The first pair comes last as soon as its text starts with its second member. -/
theorem flatten_alike_pairs : ∃ s t, (set pairs).Valid ∧ (firstPair false).Distinct ∧ secondPair.Distinct ∧
    Alike False (.value (set pairs)) (.array [firstPair false, secondPair]) (.array [firstPair true, secondPair]) ∧
    (set pairs).flatten (.array [firstPair false, secondPair]) false = .ok s ∧
    (set pairs).flatten (.array [firstPair true, secondPair]) false = .ok t ∧
    s.get? "0.a" = some (.string "1") ∧ t.get? "0.a" = some (.string "2") := by
  have alike : Alike False (.value (set pairs)) (.array [firstPair false, secondPair])
      (.array [firstPair true, secondPair]) := by
    refine .set (.refl _) (.refl _) False.elim rfl fun pair mem => ?_
    simp only [List.zip_cons_cons, List.zip_nil_right, List.mem_cons, List.not_mem_nil, or_false] at mem
    rcases mem with rfl | rfl
    · refine .members (by decide) fun name v w first second => ?_
      have mem := (lookup_eq_some_iff_mem (by decide)).1 first
      have mem' := (lookup_eq_some_iff_mem (by decide)).1 second
      simp at mem mem'
      rcases mem with ⟨rfl, rfl⟩ | ⟨rfl, rfl⟩ <;> simp at mem' <;> subst mem' <;> exact .same _ _
    · exact .same _ _
  have before : setOrder [firstPair false, secondPair] = [firstPair false, secondPair] :=
    setOrder_of_pairwise (by decide)
  have behind : setOrder [firstPair true, secondPair] = [secondPair, firstPair true] :=
    (setOrder_eq_of_perm (.swap _ _ _)).trans (setOrder_of_pairwise (by decide))
  have stored : (set pairs).flatten (.array [firstPair false, secondPair]) false =
      .ok (.ofList ((list pairs).writes (.array [firstPair false, secondPair]) .root false).entries) := by
    rw [flatten_set, before]
    exact flatten_eq_ok_iff.2 ⟨by rw [Accepts]; decide, rfl⟩
  have stored' : (set pairs).flatten (.array [firstPair true, secondPair]) false =
      .ok (.ofList ((list pairs).writes (.array [secondPair, firstPair true]) .root false).entries) := by
    rw [flatten_set, behind]
    exact flatten_eq_ok_iff.2 ⟨by rw [Accepts]; decide, rfl⟩
  refine ⟨_, _, by decide, ?_, ?_, alike, stored, stored', by decide +kernel, by decide +kernel⟩
  · simp [firstPair, Json.Distinct, Json.DistinctMembers]
  · simp [secondPair, Json.Distinct, Json.DistinctMembers]

end Schema
end FlatStore
