import FlatStore.Proofs.Distinct
import FlatStore.Proofs.Levels
import FlatStore.Proofs.Merged
import FlatStore.Record.Basic

/-!
The base of a union that declares none. Behind the field for the tag it has each field of the variants once, where it
first occurs (`TaggedUnion.SharesBase`). The variants agree on it, since variants that do not have no base in common and
their union is refused (`Descriptor.base_of_variants`). What the base does not look at is the places of the fields. A
document whose tag selects no variant writes all that the variants model, and it keeps a member unless another one is
stored in its place (`Schema.KeepsMember`).
-/
namespace FlatStore

/-! ### Merged fields -/

/-- Whether two fields mean the same to documents: they have one wire name and one schema. -/
def Field.Agrees (f g : Field Schema) : Prop := f.wireName = g.wireName ∧ f.schema = g.schema

namespace Synthesis

/-- The fields of variants, but for those with the name of the tag. -/
def modelled (tagName : String) (variants : List (Variant Schema)) : List (Field Schema) :=
  variants.flatMap fun v => v.shape.fields.filter (·.name ≠ tagName)

theorem mem_modelled_iff {tagName : String} {variants : List (Variant Schema)} {f : Field Schema} :
    f ∈ modelled tagName variants ↔ f.name ≠ tagName ∧ ∃ v ∈ variants, f ∈ v.shape.fields := by
  simp only [modelled, List.mem_flatMap, List.mem_filter, decide_eq_true_eq]
  exact ⟨fun ⟨v, held, mem, other⟩ => ⟨other, v, held, mem⟩, fun ⟨other, v, held, mem⟩ => ⟨v, held, mem, other⟩⟩

/-- Whether some fields are those that others have in common: each name once, where it first occurs, with a field that
all of the name agree with. -/
structure Shared (fields shared : List (Field Schema)) : Prop where
  names : shared.map Field.name = (fields.map Field.name).eraseDups
  subset : shared ⊆ fields
  agree : ∀ f ∈ shared, ∀ g ∈ fields, g.name = f.name → g.Agrees f

namespace Shared

variable {fields shared : List (Field Schema)} {f g : Field Schema}

theorem exists_of_mem (own : Shared fields shared) (mem : f ∈ fields) : ∃ g ∈ shared, g.name = f.name ∧ f.Agrees g := by
  have named : f.name ∈ shared.map Field.name := by
    rw [own.names, List.mem_eraseDups]
    exact List.mem_map_of_mem mem
  obtain ⟨g, held, same⟩ := List.mem_map.1 named
  exact ⟨g, held, same, own.agree g held f mem same.symm⟩

theorem agrees (own : Shared fields shared) (first : f ∈ fields) (second : g ∈ fields) (same : f.name = g.name) :
    f.Agrees g := by
  obtain ⟨seen, held, name, wireName, schema⟩ := own.exists_of_mem first
  obtain ⟨wireName', schema'⟩ := own.agree seen held g second (by rw [name, same])
  exact ⟨wireName.trans wireName'.symm, schema.trans schema'.symm⟩

theorem concat (own : Shared fields shared) (fresh : ∀ seen ∈ shared, seen.name ≠ f.name) :
    Shared (fields ++ [f]) (shared ++ [f]) := by
  have unnamed : f.name ∉ fields.map Field.name := by
    rw [← List.mem_eraseDups, ← own.names]
    simpa using fresh
  refine ⟨?_, List.append_subset.2 ⟨List.subset_append_of_subset_left _ own.subset, List.subset_append_right _ _⟩, ?_⟩
  · have kept : [f.name].removeAll (fields.map Field.name) = [f.name] := by simpa [List.removeAll] using unnamed
    rw [List.map_append, List.map_append, List.eraseDups_append, own.names, List.map_singleton, kept]
    rfl
  · intro seen held g mem same
    rcases List.mem_append.1 held with held | here <;> rcases List.mem_append.1 mem with mem | last
    · exact own.agree seen held g mem same
    · cases List.mem_singleton.1 last
      exact absurd same.symm (fresh seen held)
    · cases List.mem_singleton.1 here
      exact absurd (List.mem_map.2 ⟨g, mem, same⟩) unnamed
    · cases List.mem_singleton.1 here
      cases List.mem_singleton.1 last
      exact ⟨rfl, rfl⟩

theorem skip (own : Shared fields shared) (held : g ∈ shared) (name : g.name = f.name) (agree : f.Agrees g) :
    Shared (fields ++ [f]) shared := by
  have named : f.name ∈ fields.map Field.name := List.mem_map.2 ⟨g, own.subset held, name⟩
  refine ⟨?_, List.subset_append_of_subset_left _ own.subset, ?_⟩
  · have dropped : [f.name].removeAll (fields.map Field.name) = [] := by simpa [List.removeAll] using named
    rw [List.map_append, List.eraseDups_append, own.names, List.map_singleton, dropped]
    simp
  · intro seen mem h given same
    rcases List.mem_append.1 given with given | last
    · exact own.agree seen mem h given same
    · cases List.mem_singleton.1 last
      obtain ⟨wireName, schema⟩ := own.agree seen mem g (own.subset held) (name.trans same)
      exact ⟨agree.1.trans wireName, agree.2.trans schema⟩

end Shared

variable {place : String}

theorem shared_of_mergeFields {variant : String} {fields before merged out : List (Field Schema)}
    (ok : mergeFields place variant merged fields = .ok out) (own : Shared before merged) :
    Shared (before ++ fields) out := by
  induction fields generalizing before merged with
  | nil =>
    cases ok
    rwa [List.append_nil]
  | cons f rest ih =>
    rw [List.append_cons]
    unfold mergeFields at ok
    split at ok
    · next fresh => exact ih ok (own.concat (by simpa using fresh))
    · next seen found =>
      split at ok
      · next agree =>
        have name : seen.name = f.name := by simpa using List.find?_some found
        exact ih ok (own.skip (List.mem_of_find?_eq_some found) name ⟨agree.1.symm, agree.2.symm⟩)
      · cases ok

theorem shared_of_mergeVariants {tagName : String} {variants : List (Variant Schema)}
    {before merged out : List (Field Schema)} (ok : mergeVariants place tagName merged variants = .ok out)
    (own : Shared before merged) : Shared (before ++ modelled tagName variants) out := by
  induction variants generalizing before merged with
  | nil =>
    cases ok
    simpa [modelled] using own
  | cons v rest ih =>
    obtain ⟨next, here, ok⟩ := bind_eq_ok_iff.1 ok
    rw [modelled, List.flatMap_cons, ← List.append_assoc]
    exact ih ok (shared_of_mergeFields here own)

theorem shared_of_mergedBase {name : String} {discriminator : Discriminator} {variants : List (Variant Schema)}
    {merged : Shape Schema} (ok : mergedBase name place discriminator variants = .ok merged) :
    Shared (modelled discriminator.name variants) merged.fields := by
  obtain ⟨fields, each, ok⟩ := bind_eq_ok_iff.1 ok
  obtain ⟨-, ok⟩ := then_eq_ok_iff.1 ok
  cases ok
  have start : Shared [] [] := ⟨rfl, List.Subset.refl _, by simp⟩
  simpa using shared_of_mergeVariants each start

end Synthesis

/-! ### Variants -/

/-- Whether synthesis makes a field of the type of a variant. -/
def VariantDescriptor.Models (catalog : Catalog) (v : VariantDescriptor Descriptor) (f : Field Schema) : Prop :=
  ∃ n object own, catalog.expand v.type = .object object ∧ Synthesis.ShapeAt catalog n object own ∧ f ∈ own.fields

/-- What is made of a variant: it has the fields of its type, which are optional, and whatever has the name of the
tag. -/
structure VariantDescriptor.MadeAs (catalog : Catalog) (discriminator : Discriminator)
    (v : VariantDescriptor Descriptor) (made : Variant Schema) : Prop where
  name : made.name = v.name
  values : made.values = v.values
  segment : made.segment = v.segment
  fields : ∀ f, f.name ≠ discriminator.name →
    (f ∈ made.shape.fields ↔ ∃ own, v.Models catalog own ∧ { own with optional := true } = f)

namespace Synthesis

variable {catalog : Catalog} {n : Nat} {discriminator : Discriminator}

theorem mem_withTag_iff {shape : Shape Schema} {f : Field Schema} (other : f.name ≠ discriminator.name) :
    f ∈ (withTag discriminator shape).fields ↔ f ∈ shape.fields := by
  cases own : shape.field? discriminator.name with
  | none =>
    have differs : f ≠ tagField discriminator := by
      rintro rfl
      exact other rfl
    rw [withTag_of_none own, List.mem_cons, or_iff_right differs]
  | some g => rw [withTag_of_some own]

theorem madeAs_of_made {v : VariantDescriptor Descriptor} {made : Variant Schema}
    (own : VariantMade catalog (ShapeAt catalog n) discriminator v made) : v.MadeAs catalog discriminator made := by
  obtain ⟨tagged⟩ := own
  refine ⟨rfl, rfl, rfl, fun f other => ?_⟩
  cases tagged with
  | @mk object own expanded ok =>
  rw [mem_withTag_iff other]
  constructor
  · intro mem
    obtain ⟨g, held, rfl⟩ := List.mem_map.1 mem
    exact ⟨g, ⟨n, object, own, expanded, ok, held⟩, rfl⟩
  · rintro ⟨g, ⟨m, object', own', expanded', ok', held⟩, rfl⟩
    cases expanded.symm.trans expanded'
    cases ok.unique ok'
    exact List.mem_map.2 ⟨g, held, rfl⟩

end Synthesis

namespace VariantDescriptor.MadeAs

variable {catalog : Catalog} {discriminator : Discriminator} {variants : List (VariantDescriptor Descriptor)}
  {made : List (Variant Schema)}

theorem optional (each : List.Forall₂ (MadeAs catalog discriminator) variants made) {f : Field Schema}
    (mem : f ∈ Synthesis.modelled discriminator.name made) : f.optional = true := by
  obtain ⟨other, w, held, declared⟩ := Synthesis.mem_modelled_iff.1 mem
  obtain ⟨v, -, (own : v.MadeAs catalog discriminator w)⟩ := Draft.exists_of_forall₂ each.flip held
  obtain ⟨g, -, rfl⟩ := (own.fields f other).1 declared
  rfl

theorem mem_modelled (each : List.Forall₂ (MadeAs catalog discriminator) variants made)
    {v : VariantDescriptor Descriptor} (mem : v ∈ variants) {f : Field Schema} (models : v.Models catalog f)
    (other : f.name ≠ discriminator.name) :
    { f with optional := true } ∈ Synthesis.modelled discriminator.name made := by
  obtain ⟨w, held, own⟩ := Draft.exists_of_forall₂ each mem
  have declared := (own.fields { f with optional := true } other).2 ⟨f, models, rfl⟩
  exact Synthesis.mem_modelled_iff.2 ⟨other, w, held, declared⟩

end VariantDescriptor.MadeAs

/-! ### Members of documents -/

/-- Whether a document keeps a member that has the value of a field. All that the value writes is in one piece among the
writes of the document, and its keys are in every store that the document is written into. If no other member has its
place, then what is found there and below it is what the value writes by itself. -/
structure Schema.KeepsMember (schema : Schema) (members : List (String × Json)) (a : Address) (sliced : Bool)
    (f : Field Schema) (value : Json) : Prop where
  something : heldWrites (a.block sliced) (f, value) ≠ []
  written : ∃ before after,
    schema.writes (.object members) a sliced = before ++ heldWrites (a.block sliced) (f, value) ++ after
  stored : ∀ s, ∀ entry ∈ heldWrites (a.block sliced) (f, value),
    entry.1.key ∈ (schema.flattenInto false (.object members) a sliced s).2.keys
  alone : (∀ other ∈ heldFields members (schema.shapeFor members).fields,
      other.1.name ≠ f.name → other.1.place other.2 ≠ f.place value) →
    ∀ s, ∀ slot : Slot, slot.Under ((a.block sliced).member (f.place value)) →
      (schema.flattenInto false (.object members) a sliced s).2.get? slot.key =
        (s.insertAll (Writes.entries (heldWrites (a.block sliced) (f, value)))).get? slot.key

namespace Schema

variable {schema : Schema} {members : List (String × Json)} {a : Address} {sliced : Bool} {f g : Field Schema}
  {value : Json}

theorem lookup_entries_eq_none {writes : Writes} {slot : Slot} (apart : ∀ entry ∈ writes, entry.1 ≠ slot) :
    (Writes.entries writes).reverse.lookup slot.key = none := by
  rw [lookup_eq_none_iff, List.map_reverse, List.mem_reverse, Writes.names_entries]
  intro mem
  obtain ⟨other, held, same⟩ := List.mem_map.1 mem
  obtain ⟨v, written⟩ := Writes.mem_slots_iff.1 held
  exact apart _ written (Slot.key_injective same)

theorem get?_insertAll_between {before own after : Writes} {slot : Slot} (first : ∀ entry ∈ before, entry.1 ≠ slot)
    (last : ∀ entry ∈ after, entry.1 ≠ slot) (s : Store) :
    (s.insertAll (Writes.entries (before ++ own ++ after))).get? slot.key =
      (s.insertAll (Writes.entries own)).get? slot.key := by
  have parts : (Writes.entries (before ++ own ++ after)).reverse = (Writes.entries after).reverse ++
      ((Writes.entries own).reverse ++ (Writes.entries before).reverse) := by
    simp only [Writes.entries, List.map_append, List.reverse_append]
  rw [Store.get?_insertAll, Store.get?_insertAll, parts, List.lookup_append, List.lookup_append,
    lookup_entries_eq_none first, lookup_entries_eq_none last, Option.none_or, Option.or_none]

theorem heldFields_split {shape : Shape Schema} (sound : SoundShape shape)
    (held : (f, value) ∈ heldFields members shape.fields) :
    ∃ before after, heldFields members shape.fields = before ++ (f, value) :: after ∧
      ∀ other ∈ before ++ after, other ∈ heldFields members shape.fields ∧ other.1.name ≠ f.name := by
  have names : ((heldFields members shape.fields).map fun other => other.1.name).Nodup := by
    have nodup := sound.names_nodup.sublist ((heldFields_sublist members _).map Field.name)
    rwa [List.map_map] at nodup
  obtain ⟨before, after, split⟩ := List.append_of_mem held
  rw [split, List.map_append, List.map_cons, List.nodup_middle, ← List.map_append, List.nodup_cons] at names
  refine ⟨before, after, split, fun other mem => ⟨?_, fun same => names.1 (same ▸ List.mem_map_of_mem mem)⟩⟩
  rw [split]
  rcases List.mem_append.1 mem with earlier | later
  · exact List.mem_append_left _ earlier
  · exact List.mem_append_right _ (List.mem_cons_of_mem _ later)

/-- A document keeps each member that a field of its shape has as its value. -/
theorem Accepts.keepsMember (block : schema.isBlock = true) (valid : schema.Valid)
    (ok : schema.Accepts (.object members) a sliced)
    (held : (f, value) ∈ heldFields members (schema.shapeFor members).fields) :
    schema.KeepsMember members a sliced f value := by
  have sound := valid.soundShape (shapeFor_mem_shapes block members)
  obtain ⟨_, ⟨⟩, -, accepted, written⟩ := ok.block block valid (by simp)
  have usable : ∀ other ∈ heldFields members (schema.shapeFor members).fields,
      isFieldName (other.1.place other.2) = true :=
    fun other mem => sound.place_usable (mem_heldFields_iff.1 mem).1 other.2
  obtain ⟨before, after, split, others⟩ := heldFields_split sound held
  have whole : schema.writes (.object members) a sliced =
      ((Trace.openBlock a sliced).writes ++ before.flatMap (heldWrites (a.block sliced))) ++
        heldWrites (a.block sliced) (f, value) ++ after.flatMap (heldWrites (a.block sliced)) := by
    rw [written, split, List.flatMap_append, List.flatMap_cons]
    simp only [List.append_assoc]
  have entries : ∀ s, (schema.flattenInto false (.object members) a sliced s).2 =
      s.insertAll (Writes.entries (schema.writes (.object members) a sliced)) := fun _ => rfl
  refine ⟨?_, ⟨_, _, whole⟩, fun s entry mem => ?_, fun only s slot under => ?_⟩
  · obtain ⟨declared, found⟩ := mem_heldFields_iff.1 held
    have nonroot : ((a.block sliced).member (f.place value)).isRoot = false := Address.isRoot_member (usable _ held)
    exact (accepted _ held).writes_ne_nil (sound.field_valid f declared) (Field.value?_eq_some_iff.1 found).2
      (by simp [nonroot])
  · have given : entry ∈ schema.writes (.object members) a sliced := by
      rw [whole]
      exact List.mem_append_left _ (List.mem_append_right _ mem)
    rw [entries]
    apply Store.mem_keys_insertAll
    rw [Writes.names_entries]
    exact List.mem_map_of_mem (List.mem_map_of_mem given)
  · -- what another member writes stands below its own place
    have apart : ∀ other ∈ before ++ after, ∀ entry ∈ heldWrites (a.block sliced) other, entry.1 ≠ slot := by
      rintro other mem entry wrote rfl
      obtain ⟨here, differs⟩ := others other mem
      exact only other here differs ((heldWrites_under entry wrote).member_eq (usable other here) (usable _ held) under)
    rw [entries, whole]
    apply get?_insertAll_between
    · rintro entry mem
      rcases List.mem_append.1 mem with opened | earlier
      · rintro rfl
        obtain ⟨-, rfl⟩ := mem_openBlock_iff.1 opened
        exact Slot.not_under_block_member (usable _ held) rfl under
      · obtain ⟨other, mem, wrote⟩ := List.mem_flatMap.1 earlier
        exact apart other (List.mem_append_left _ mem) entry wrote
    · intro entry later
      obtain ⟨other, mem, wrote⟩ := List.mem_flatMap.1 later
      exact apart other (List.mem_append_right _ mem) entry wrote

theorem heldWrites_congr {base : Address} (name : g.name = f.name) (agree : f.Agrees g) :
    heldWrites base (g, value) = heldWrites base (f, value) := by
  simp only [heldWrites, Field.place, name, agree.2]

theorem KeepsMember.congr (kept : schema.KeepsMember members a sliced g value) (name : g.name = f.name)
    (agree : f.Agrees g) : schema.KeepsMember members a sliced f value := by
  have place : g.place value = f.place value := by simp only [Field.place, name, agree.2]
  obtain ⟨something, written, stored, alone⟩ := kept
  rw [name, place] at alone
  rw [heldWrites_congr name agree] at something written stored alone
  exact ⟨something, written, stored, alone⟩

end Schema

/-! ### The base -/

/-- Whether the base of a union is what its variants have in common: behind the field for the tag it has each name of
their fields once, where it first occurs, and the field of the name is optional and agrees with those of the
variants. -/
structure TaggedUnion.SharesBase (choice : TaggedUnion Schema) (shared : List (Field Schema)) : Prop where
  fields : choice.base.fields = Synthesis.tagField choice.discriminator :: shared
  names : shared.map Field.name = (((choice.variants.flatMap (·.shape.fields)).map Field.name).filter
    (· ≠ choice.discriminator.name)).eraseDups
  optional : ∀ f ∈ shared, f.optional = true
  agree : ∀ f ∈ shared, ∀ v ∈ choice.variants, ∀ g ∈ v.shape.fields, g.name = f.name → g.Agrees f

namespace Synthesis

variable {catalog : Catalog} {n : Nat} {described : UnionDescriptor Descriptor} {choice : TaggedUnion Schema}

theorem names_modelled (tagName : String) (variants : List (Variant Schema)) :
    (modelled tagName variants).map Field.name =
      ((variants.flatMap (·.shape.fields)).map Field.name).filter (· ≠ tagName) := by
  rw [modelled, ← List.filter_flatMap, List.filter_map]
  rfl

theorem UnionMade.shared (made : UnionMade catalog (ShapeAt catalog n) described choice)
    (undeclared : described.base = none) :
    choice.discriminator = described.discriminator ∧
      List.Forall₂ (VariantDescriptor.MadeAs catalog described.discriminator) described.variants choice.variants ∧
      ∃ shared, Shared (modelled described.discriminator.name choice.variants) shared ∧ choice.SharesBase shared := by
  cases made with
  | mk each base =>
    have each := each.imp fun _ _ => madeAs_of_made
    refine ⟨rfl, each, ?_⟩
    cases base with
    | declared declared => exact absurd (undeclared.symm.trans declared) (by simp)
    | @merged _ own _ merged =>
      have shared := shared_of_mergedBase merged
      have none : own.field? described.discriminator.name = none := by
        simpa [Shape.field?] using fun f mem => (mem_mergedBase merged mem).1
      refine ⟨own.fields, shared, ?_, ?_, ?_, ?_⟩
      · rw [withTag_of_none none]
      · rw [shared.names, names_modelled]
      · exact fun f mem => VariantDescriptor.MadeAs.optional each (shared.subset mem)
      · intro f mem v held g declared name
        have other := (mem_mergedBase merged mem).1
        refine shared.agree f mem g (mem_modelled_iff.2 ⟨?_, v, held, declared⟩) name
        rwa [name]

end Synthesis

/-- The base of a union that declares none is what its variants have in common, and a document whose tag selects no
variant keeps in it what they model. A union of variants that do not agree on a field is refused. -/
theorem Descriptor.base_of_variants {catalog : Catalog} {described : UnionDescriptor Descriptor}
    (undeclared : described.base = none) :
    (∀ schema, (Descriptor.union described).synthesize catalog = .ok schema → ∃ choice shared, schema = .union choice ∧
      choice.discriminator = described.discriminator ∧
      List.Forall₂ (VariantDescriptor.MadeAs catalog choice.discriminator) described.variants choice.variants ∧
      choice.SharesBase shared ∧
      ∀ members a sliced, (Schema.tagOf choice.discriminator members).bind choice.variant? = none →
        (Schema.union choice).Accepts (.object members) a sliced →
          ∀ v ∈ choice.variants, ∀ f ∈ v.shape.fields, f.name ≠ choice.discriminator.name →
            ∀ value, f.value? members = some value → (Schema.union choice).KeepsMember members a sliced f value) ∧
    ∀ v ∈ described.variants, ∀ w ∈ described.variants, ∀ f g, v.Models catalog f → w.Models catalog g →
      f.name = g.name → f.name ≠ described.discriminator.name → ¬ f.Agrees g →
        ∃ error, (Descriptor.union described).synthesize catalog = .error error := by
  have made : ∀ schema, (Descriptor.union described).synthesize catalog = .ok schema → ∃ choice, schema = .union choice ∧
      Synthesis.UnionMade catalog (Synthesis.ShapeAt catalog (Synthesis.maxDepth - 2)) described choice := by
    intro schema synthesized
    have own : Synthesis.SchemaMade _ _ _ _ (.union described) schema := (schemaAt_of_synthesize synthesized).made
    cases own with
    | union made => exact ⟨_, rfl, made⟩
  constructor
  · intro schema synthesized
    obtain ⟨choice, rfl, own⟩ := made schema synthesized
    obtain ⟨discriminator, each, fields, shared, shares⟩ := own.shared undeclared
    rw [← discriminator] at each shared
    refine ⟨choice, fields, rfl, discriminator, each, shares, ?_⟩
    intro members a sliced untagged ok v held f declared other value found
    obtain ⟨g, mem, name, agree⟩ := shared.exists_of_mem (Synthesis.mem_modelled_iff.2 ⟨other, v, held, declared⟩)
    have shape : (Schema.union choice).shapeFor members = choice.base := by
      rw [Schema.shapeFor, TaggedUnion.shapeOf, untagged]
      rfl
    have value : g.value? members = some value := by
      rw [← found, Field.value?, Field.value?, agree.1]
    refine Schema.KeepsMember.congr (Schema.Accepts.keepsMember rfl (valid_of_synthesize synthesized) ok ?_) name agree
    rw [mem_heldFields_iff, shape, shares.fields]
    exact ⟨List.mem_cons_of_mem _ mem, value⟩
  · intro v first w second f g models models' name other conflict
    cases synthesized : (Descriptor.union described).synthesize catalog with
    | error error => exact ⟨error, rfl⟩
    | ok schema =>
      obtain ⟨choice, rfl, own⟩ := made schema synthesized
      obtain ⟨-, each, fields, shared, -⟩ := own.shared undeclared
      have one := VariantDescriptor.MadeAs.mem_modelled each first models other
      have another := VariantDescriptor.MadeAs.mem_modelled each second models' (name ▸ other)
      exact absurd (shared.agrees one another name) conflict

def UnionDescriptor.pointerEvent : UnionDescriptor Descriptor where
  name := "Event"
  discriminator := ⟨"type", "type"⟩
  variants :=
    [⟨"Click", ["click"], none, .record "Click" [.of "x" "x" (.scalar .string), .of "y" "y" (.scalar .string)]⟩,
      ⟨"Tap", ["tap"], some "tap_event",
        .record "Tap" [.of "x" "x" (.scalar .string), .of "duration" "duration" (.scalar .string)]⟩]
  base := none

def Field.pointerPart (name : String) : Field Schema := { Field.plain name (.scalar .string) with optional := true }

def TaggedUnion.pointerEvent : TaggedUnion Schema where
  name := "Event"
  discriminator := ⟨"type", "type"⟩
  variants :=
    [⟨"Click", ["click"], none, ⟨"Click", [Synthesis.tagField ⟨"type", "type"⟩, .pointerPart "x", .pointerPart "y"]⟩⟩,
      ⟨"Tap", ["tap"], some "tap_event",
        ⟨"Tap", [Synthesis.tagField ⟨"type", "type"⟩, .pointerPart "x", .pointerPart "duration"]⟩⟩]
  base := ⟨"EventBase",
    [Synthesis.tagField ⟨"type", "type"⟩, .pointerPart "x", .pointerPart "y", .pointerPart "duration"]⟩

theorem Descriptor.base_of_pointerEvent :
    (Descriptor.union .pointerEvent).synthesize [] = .ok (.union .pointerEvent) ∧
      (Schema.union .pointerEvent).KeepsMember [("type", .string "swipe"), ("duration", .string "7")] .root false
        (.pointerPart "duration") (.string "7") := by
  have synthesized : (Descriptor.union .pointerEvent).synthesize [] = .ok (.union .pointerEvent) := by decide +kernel
  obtain ⟨_, shared, ⟨⟩, -, -, -, keeps⟩ := (base_of_variants rfl).1 _ synthesized
  have accepted : (Schema.union .pointerEvent).Accepts (.object [("type", .string "swipe"), ("duration", .string "7")])
      .root false := rfl
  have declared : ⟨"Tap", ["tap"], some "tap_event",
      ⟨"Tap", [Synthesis.tagField ⟨"type", "type"⟩, .pointerPart "x", .pointerPart "duration"]⟩⟩ ∈
        TaggedUnion.pointerEvent.variants := List.mem_cons_of_mem _ List.mem_cons_self
  refine ⟨synthesized, keeps _ .root false rfl accepted _ declared _ ?_ (by decide) _ rfl⟩
  exact List.mem_cons_of_mem _ (List.mem_cons_of_mem _ List.mem_cons_self)

/-- A screen with an event in one variant, which is stored at the segment of its own variant, and a field of that name
in another. -/
def UnionDescriptor.touchScreen : UnionDescriptor Descriptor where
  name := "Screen"
  discriminator := ⟨"kind", "kind"⟩
  variants :=
    [⟨"Panel", ["panel"], none, .record "Panel" [.of "event" "event" (.union ⟨"Event", ⟨"type", "type"⟩,
        [⟨"Tap", ["tap"], some "tap", .record "Tap" [.of "x" "x" (.scalar .string)]⟩], none⟩)]⟩,
      ⟨"Pad", ["pad"], none, .record "Pad" [.of "tap" "tap" (.record "Touch"
        [.of "type" "type" (.scalar .string), .of "x" "x" (.scalar .string)])]⟩]
  base := none

def TaggedUnion.touchScreen : TaggedUnion Schema :=
  let part := Field.pointerPart
  let tag := Synthesis.tagField ⟨"kind", "kind"⟩
  let eventTag := Synthesis.tagField ⟨"type", "type"⟩
  let event := { Field.plain "event" (.union ⟨"Event", ⟨"type", "type"⟩,
    [⟨"Tap", ["tap"], some "tap", ⟨"Tap", [eventTag, part "x"]⟩⟩], ⟨"EventBase", [eventTag, part "x"]⟩⟩) with
    optional := true }
  let tap := { Field.plain "tap" (.object ⟨"Touch",
    [Field.plain "type" (.scalar .string), Field.plain "x" (.scalar .string)]⟩) with optional := true }
  { name := "Screen"
    discriminator := ⟨"kind", "kind"⟩
    variants := [⟨"Panel", ["panel"], none, ⟨"Panel", [tag, event]⟩⟩, ⟨"Pad", ["pad"], none, ⟨"Pad", [tag, tap]⟩⟩]
    base := ⟨"ScreenBase", [tag, event, tap]⟩ }

/-- A screen of no variant loses an event that its base models, since another member of the base is stored in the place
of the event: its store is the same without the event. -/
theorem Descriptor.loses_event_touchScreen :
    UnionDescriptor.touchScreen.base = none ∧
      (Descriptor.union .touchScreen).synthesize [] = .ok (.union .touchScreen) ∧
      TaggedUnion.touchScreen.variant? "wall" = none ∧
      ∃ s, (Schema.union .touchScreen).flatten (.object [("kind", .string "wall"),
          ("event", .object [("type", .string "tap"), ("x", .string "1")]),
          ("tap", .object [("type", .string "swipe"), ("x", .string "2")])]) false = .ok s ∧
        (Schema.union .touchScreen).flatten (.object [("kind", .string "wall"),
          ("tap", .object [("type", .string "swipe"), ("x", .string "2")])]) false = .ok s :=
  ⟨rfl, by decide +kernel, rfl, _, rfl, rfl⟩

end FlatStore
