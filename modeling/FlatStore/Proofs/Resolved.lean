import FlatStore.Proofs.Fit
import FlatStore.Proofs.Number
import FlatStore.Proofs.Outcome
import FlatStore.Proofs.Rendering
import FlatStore.Proofs.Restored

/-!
Documents that come out of stores. Whatever is resolved fits its schema, so that it can be stored again, and each union
in it is stored as the variant, or the base, as which it was read (`Schema.flatten_resolved`). The store may hold
anything but floats that are not finite.
-/
namespace FlatStore

/-! ### Values without null -/

namespace Json

mutual
/-- No null stands inside the value, and the value is not null itself. -/
def NullFree : Json → Prop
  | .null => False
  | .array items => NullFreeItems items
  | .object members => NullFreeMembers members
  | _ => True
def NullFreeItems : List Json → Prop
  | [] => True
  | item :: rest => item.NullFree ∧ NullFreeItems rest
def NullFreeMembers : List (String × Json) → Prop
  | [] => True
  | (_, value) :: rest => value.NullFree ∧ NullFreeMembers rest
end

theorem nullFree_array_iff {items : List Json} : (array items).NullFree ↔ ∀ item ∈ items, item.NullFree := by
  rw [NullFree]
  induction items with
  | nil => simp [NullFreeItems]
  | cons item rest ih => rw [NullFreeItems, ih, List.forall_mem_cons]

theorem nullFree_object_iff {members : List (String × Json)} :
    (object members).NullFree ↔ ∀ member ∈ members, member.2.NullFree := by
  rw [NullFree]
  induction members with
  | nil => simp [NullFreeMembers]
  | cons member rest ih => rw [NullFreeMembers, ih, List.forall_mem_cons]

theorem nullFree_wrapIn {wrapper : Option String} {item : Json} (free : item.NullFree) :
    (wrapIn wrapper item).NullFree := by
  cases wrapper with
  | none => exact free
  | some name => exact nullFree_object_iff.2 (by simpa [wrapIn] using free)

end Json

/-- The variant that the tag among the members of a document selects. -/
def TaggedUnion.variantOf (choice : TaggedUnion Schema) (members : List (String × Json)) : Option (Variant Schema) :=
  (Schema.tagOf choice.discriminator members).bind choice.variant?

/-- Whether all floats of a store are finite. -/
def Store.FloatsFinite (s : Store) : Prop := ∀ key x, s.get? key = some (.float x) → ∃ y, x = .finite y

namespace Schema

/-! ### Refillable schemas -/

/-- Whether what is resolved by a schema has all that the schema asks for. -/
structure Refillable (schema : Schema) : Prop where
  /-- No union is required, since nothing can stand in its place. -/
  optional : ∀ inner, Inside inner schema → ∀ shape ∈ inner.shapes, ∀ f ∈ shape.fields,
    ∀ choice, f.schema = .union choice → f.optional = true
  /-- Every shape of a union has its tag as an optional field without former names. -/
  tagged : ∀ choice, Inside (.union choice) schema → ∀ shape ∈ choice.shapes, ∃ f ∈ shape.fields,
    f.name = choice.discriminator.name ∧ f.wireName = choice.discriminator.wireName ∧ f.schema = .scalar .string ∧
      f.aliases = [] ∧ f.optional = true

/-- Whether a schema keeps to the rules of refillable schemas, apart from what is inside of it. -/
def refillableHere (schema : Schema) : Bool :=
  (schema.shapes.all fun shape => shape.fields.all fun f => match f.schema with
    | .union _ => f.optional
    | _ => true) &&
    match schema with
    | .union choice => decide (∀ shape ∈ choice.shapes, ∃ f ∈ shape.fields,
      f.name = choice.discriminator.name ∧ f.wireName = choice.discriminator.wireName ∧ f.schema = .scalar .string ∧
        f.aliases = [] ∧ f.optional = true)
    | _ => true

theorem refillable_of_within {schema : Schema} (all : schema.within.all refillableHere = true) : schema.Refillable := by
  have here : ∀ inner, Inside inner schema → inner.refillableHere = true :=
    fun inner inside => List.all_eq_true.1 all inner (mem_within_iff.2 inside)
  refine ⟨fun inner inside shape own f mem choice union => ?_, fun choice inside => ?_⟩
  · have kept := (Bool.and_eq_true_iff.1 (here inner inside)).1
    have each := List.all_eq_true.1 (List.all_eq_true.1 kept shape own) f mem
    rwa [union] at each
  · exact of_decide_eq_true (Bool.and_eq_true_iff.1 (here _ inside)).2

/-- Whether a value is what a source holds at candidates, or what stands in its place, and each union in it has a tag
that selects just the variant that it was read as, or none where it was read as the base. -/
inductive Reshapes (source : Source) : Schema → List Candidate → Bool → Json → Prop
  | zero {schema cs sliced value} : schema.readAt source cs sliced = .ok none → schema.zero? = some value →
    Reshapes source schema cs sliced value
  | scalar {kind cs sliced value} : (scalar kind).readAt source cs sliced = .ok (some value) →
    Reshapes source (.scalar kind) cs sliced value
  | items {schema c cs sliced candidate given} : schema.collection? = some c → candidate ∈ cs →
    schema.resolve source candidate.address sliced = .ok (some (.array given)) →
    (∀ part ∈ given.zipIdx, Reshapes source c.element [⟨candidate.address.index part.2, none⟩] true (c.unwrap part.1)) →
    Reshapes source schema cs sliced (.array given)
  | entries {element cs sliced candidate members} (i : String × Json → Nat) : candidate ∈ cs →
    (map element).resolve source candidate.address sliced = .ok (some (.object members)) →
    (∀ member ∈ members,
      stored source ((candidate.address.index (i member)).member mapKeyField) = .ok (some (.string member.1))) →
    (∀ member ∈ members, Reshapes source element
      [⟨element.entryAddress (candidate.address.index (i member)), none⟩] element.isBlock member.2) →
    Reshapes source (.map element) cs sliced (.object members)
  | object {shape cs sliced candidate members} : candidate ∈ cs →
    (object shape).resolve source candidate.address sliced = .ok (some (.object members)) →
    (∀ held ∈ heldFields members shape.fields,
      Reshapes source held.1.schema (candidatesOf held.1 (candidate.address.block sliced)) false held.2) →
    Reshapes source (.object shape) cs sliced (.object members)
  | union {choice cs sliced base members} :
    resolveChoice source choice sliced cs = .ok (some (.object members)) →
    chosen source choice sliced cs = .ok (some (base, choice.variantOf members)) →
    (∀ held ∈ heldFields members (choice.shapeOf members).fields,
      Reshapes source held.1.schema (candidatesOf held.1 base) false held.2) →
    Reshapes source (.union choice) cs sliced (.object members)

variable {s : Store} {schema part : Schema} {choice : TaggedUnion Schema} {shape : Shape Schema} {value : Json}
  {members : List (String × Json)} {a base : Address} {cs : List Candidate} {sliced : Bool}

theorem Refillable.child (refillable : schema.Refillable) (mem : part ∈ schema.children) : part.Refillable where
  optional := fun inner inside => refillable.optional inner (.child mem inside)
  tagged := fun choice inside => refillable.tagged choice (.child mem inside)

/-- What is shown of a value that is read at candidates: it has no null in it, it fits its schema, and its unions keep
their shapes. -/
structure Refills (source : Source) (schema : Schema) (cs : List Candidate) (sliced : Bool) (value : Json) : Prop where
  nullFree : value.NullFree
  fits : schema.Fits value
  reshapes : Reshapes source schema cs sliced value

/-! ### Blocks -/

/-- The members of a block fit it, if each fits its field and none that is required is missing. -/
theorem block_fits (block : schema.isBlock = true) (valid : schema.Valid)
    (names : (members.map Prod.fst).Sublist ((schema.shapeFor members).fields.map Field.wireName))
    (each : ∀ f ∈ (schema.shapeFor members).fields, ∀ v, members.lookup f.wireName = some v →
      v.NullFree ∧ f.schema.Fits v)
    (required : ∀ f ∈ (schema.shapeFor members).fields, f.optional = false → members.lookup f.wireName ≠ none) :
    (Json.object members).NullFree ∧ schema.Fits (.object members) := by
  have sound := valid.soundShape (shapeFor_mem_shapes block members)
  have nodup := names.nodup sound.wireNames_nodup
  refine ⟨Json.nullFree_object_iff.2 fun member mem => ?_, fits_block block valid (fun f mem needed absent => ?_) ?_⟩
  · obtain ⟨f, declared, name⟩ := List.mem_map.1 (names.subset (List.mem_map_of_mem mem))
    exact (each f declared member.2 ((lookup_eq_some_iff_mem nodup).2 (by rwa [name]))).1
  · obtain ⟨v, found⟩ := Option.ne_none_iff_exists'.1 (required f mem needed)
    rcases Field.value?_eq_none_iff.1 absent with missing | null
    · exact required f mem needed missing
    · exact (each f mem .null null).1
  · intro held mem
    obtain ⟨declared, found⟩ := mem_heldFields_iff.1 mem
    exact (each held.1 declared held.2 (Field.value?_eq_some_iff.1 found).1).2

/-! ### What stands in place of what is missing -/

/-- Only unions have no zero value. -/
theorem zero?_ne_none (other : ∀ choice, schema ≠ .union choice) : schema.zero? ≠ none := by
  cases schema with
  | union choice => exact absurd rfl (other choice)
  | scalar | list | set | map | object => simp [zero?]

theorem zero_fits (valid : schema.Valid) (refillable : schema.Refillable) (zero : schema.zero? = some value) :
    value.NullFree ∧ schema.Fits value := by
  induction schema using formInduction generalizing value with
  | scalar kind =>
    cases zero
    have read : Scalar.ofJsonAs? kind kind.zero.toJson = some kind.zero := by cases kind <;> rfl
    exact ⟨by cases kind <;> trivial, fits_scalar read⟩
  | items schema c form =>
    obtain rfl := Option.some.inj ((zero?_items form).symm.trans zero)
    exact ⟨trivial, fits_items form (by simp) (by simp)⟩
  | map element =>
    cases zero
    exact ⟨trivial, fits_map (by simp)⟩
  | block schema block ih =>
    cases schema with
    | object shape =>
      have sound := valid_object_iff.1 valid
      have names := names_filled_sublist (fun f => f.fill none) shape.fields
      obtain rfl := Option.some.inj ((zero?_object sound).symm.trans zero)
      refine block_fits block valid names (fun f mem v found => ?_) fun f mem needed => ?_
      · rw [lookup_filled sound.wireNames_nodup mem, Field.fill] at found
        split at found
        · cases found
        · have child := refillable.child (field_mem_children List.mem_cons_self mem)
          exact ih shape List.mem_cons_self f mem (sound.field_valid f mem) child found
      · rw [lookup_filled sound.wireNames_nodup mem, Field.fill, if_neg (by simp [needed])]
        have others := refillable.optional _ (.self _) shape List.mem_cons_self f mem
        exact zero?_ne_none fun choice union => by simp [others choice union] at needed
    | union choice => cases zero
    | scalar | list | set | map => cases block

/-! ### What is read -/

/-- A part that is read, or what stands in its place. -/
theorem refills_part (valid : schema.Valid) (refillable : schema.Refillable)
    (ih : ∀ v, schema.readAt s.source cs sliced = .ok (some v) → Refills s.source schema cs sliced v)
    {found : Option Json} (read : schema.readAt s.source cs sliced = .ok found)
    (filled : found.or schema.zero? = some value) : Refills s.source schema cs sliced value := by
  cases found with
  | some v =>
    cases filled
    exact ih _ read
  | none =>
    obtain ⟨nullFree, fits⟩ := zero_fits valid refillable filled
    exact ⟨nullFree, fits, .zero read filled⟩

/-- An element or the value of an entry is found, or has a zero value in its place. A union is sliced out of its
collection, so that its base is always there. -/
theorem element_filled (valid : schema.Valid) (read : (schema.orZero <$> schema.resolve s.source a sliced) = .ok value)
    (whole : ∀ choice, schema = .union choice → sliced = true) :
    ∃ found, schema.readAt s.source [⟨a, none⟩] sliced = .ok found ∧ found.or schema.zero? = some value := by
  obtain ⟨found, there, rfl⟩ := map_eq_ok_iff.1 read
  have filled : found.or schema.zero? ≠ none := by
    intro missing
    obtain ⟨rfl, nothing⟩ := Option.or_eq_none_iff.1 missing
    obtain ⟨choice, rfl⟩ : ∃ choice, schema = .union choice := by
      by_contra other
      exact zero?_ne_none (not_exists.1 other) nothing
    obtain ⟨-, usable, -⟩ := valid_union_iff.1 valid
    rw [resolve_union, whole choice rfl] at there
    rcases resolveChoice_eq_ok_cases there with ⟨-, chose⟩ | ⟨base, variant, members, -, -, some⟩
    · have absent := (chosen_eq_none usable chose ⟨a, none⟩ List.mem_cons_self).2 rfl
      rw [basePresent_of_opened (by simp)] at absent
      cases absent
    · cases some
  obtain ⟨v, filled⟩ := Option.ne_none_iff_exists'.1 filled
  exact ⟨found, readAt_single s.source ▸ there, by rw [orZero, filled, Option.getD_some]⟩

theorem refills_element (valid : schema.Valid) (refillable : schema.Refillable)
    (ih : ∀ v, schema.readAt s.source [⟨a, none⟩] sliced = .ok (some v) → Refills s.source schema [⟨a, none⟩] sliced v)
    (read : (schema.orZero <$> schema.resolve s.source a sliced) = .ok value)
    (whole : ∀ choice, schema = .union choice → sliced = true) :
    Refills s.source schema [⟨a, none⟩] sliced value := by
  obtain ⟨found, there, filled⟩ := element_filled valid read whole
  exact refills_part valid refillable ih there filled

/-- Whether whatever is read by a schema refills it. -/
def AllRefill (s : Store) (schema : Schema) : Prop :=
  ∀ cs sliced value, schema.Valid → schema.Refillable → schema.readAt s.source cs sliced = .ok (some value) →
    Refills s.source schema cs sliced value

private theorem refill_scalar (finite : s.FloatsFinite) (kind : ScalarKind) : AllRefill s (.scalar kind) := by
  intro cs sliced value valid refillable read
  obtain ⟨c, -, there⟩ := exists_candidate (by simp) read
  rw [resolve_scalar, resolveScalar_eq_ok_iff] at there
  obtain ⟨leaf, stands, eq, kinds⟩ := there
  obtain ⟨x, rfl, rfl⟩ := Option.map_eq_some_iff.1 eq.symm
  obtain rfl := kinds x rfl
  have both : x.toJson.NullFree ∧ Scalar.ofJsonAs? x.kind x.toJson = some x := by
    cases x with
    | int n =>
      refine ⟨trivial, ?_⟩
      change (Whole.ofInt64 n).toInt64?.map Scalar.int = some (Scalar.int n)
      rw [Scalar.toInt64?_ofInt64, Option.map_some]
    | float x =>
      obtain ⟨y, rfl⟩ := finite _ x stands
      exact ⟨trivial, rfl⟩
    | bool | string => exact ⟨trivial, rfl⟩
  exact ⟨both.1, fits_scalar both.2, .scalar read⟩

private theorem refill_items {c : Collection Schema} (form : schema.collection? = some c) (ih : AllRefill s c.element) :
    AllRefill s schema := by
  intro cs sliced value valid refillable read
  obtain ⟨candidate, mem, there⟩ := exists_candidate (by rintro choice rfl; cases form) read
  have found := there
  rw [resolve_items form] at found
  rcases resolveItems_eq_ok_iff.1 found with ⟨-, none⟩ | ⟨items, -, within, parts, eq⟩
  · cases none
  cases eq
  have each : ∀ part ∈ items.zipIdx,
      Refills s.source c.element [⟨candidate.address.index part.2, none⟩] true part.1 := by
    intro part held
    have element_valid := (valid.element form).2
    have child := refillable.child (items_mem_children form)
    exact refills_element element_valid child (ih _ true · element_valid child) (parts part held) fun _ _ => rfl
  have whole : ∀ item ∈ items, item.NullFree ∧ c.element.Fits item := by
    intro item held
    obtain ⟨i, indexed⟩ := exists_index held
    exact ⟨(each (item, i) indexed).nullFree, (each (item, i) indexed).fits⟩
  refine ⟨Json.nullFree_array_iff.2 ?_, fits_items form (by simpa using within) ?_, .items form mem there ?_⟩
  · exact List.forall_mem_map.2 fun item held => Json.nullFree_wrapIn (whole item held).1
  · refine List.forall_mem_map.2 fun item held => ⟨Collection.wraps_wrapIn item, ?_⟩
    rw [Collection.unwrap_wrapIn]
    exact (whole item held).2
  · rw [List.zipIdx_map]
    refine List.forall_mem_map.2 fun part held => ?_
    rw [Prod.map_fst, Collection.unwrap_wrapIn]
    exact (each part held).reshapes

private theorem refill_map {element : Schema} (ih : AllRefill s element) : AllRefill s (.map element) := by
  intro cs sliced value valid refillable read
  obtain ⟨candidate, mem, there⟩ := exists_candidate (by simp) read
  have found := there
  rw [resolve_map] at found
  rcases resolveEntries_eq_ok_iff.1 found with ⟨-, none⟩ | ⟨entries, -, parts, eq⟩
  · cases none
  cases eq
  have each : ∀ member ∈ membersOf entries, ∃ i,
      stored s.source ((candidate.address.index i).member mapKeyField) = .ok (some (.string member.1)) ∧
        Refills s.source element [⟨element.entryAddress (candidate.address.index i), none⟩] element.isBlock member.2 := by
    intro member held
    obtain ⟨i, indexed⟩ := exists_index (mem_of_mem_membersOf held)
    obtain ⟨key, value_read⟩ := resolveEntry_eq_ok_iff.1 (parts (member, i) indexed)
    have element_valid := (valid_map_iff.1 valid).2.2
    have child := refillable.child (entry_mem_children element)
    refine ⟨i, congrArg Except.ok key, refills_element element_valid child (ih _ _ · element_valid child) value_read ?_⟩
    rintro choice rfl
    rfl
  choose! i keys refills using each
  exact ⟨Json.nullFree_object_iff.2 fun member held => (refills member held).nullFree,
    fits_map fun member held => (refills member held).fits,
    .entries i mem there keys fun member held => (refills member held).reshapes⟩

/-- The fields of a block that is read. -/
private theorem refill_fields (sound : SoundShape shape) (ih : ∀ f ∈ shape.fields, AllRefill s f.schema)
    (refillable : ∀ f ∈ shape.fields, f.schema.Refillable)
    (optional : ∀ f ∈ shape.fields, ∀ choice, f.schema = .union choice → f.optional = true)
    (read : resolveFields s.source base shape.fields = .ok members) :
    (members.map Prod.fst).Sublist (shape.fields.map Field.wireName) ∧
      (∀ f ∈ shape.fields, f.optional = false → members.lookup f.wireName ≠ none) ∧
      ∀ f ∈ shape.fields, ∀ v, members.lookup f.wireName = some v →
        Refills s.source f.schema (candidatesOf f base) false v := by
  obtain ⟨names, each⟩ := lookup_of_resolveFields sound.wireNames_nodup read
  refine ⟨names, fun f mem needed => ?_, fun f mem v there => ?_⟩
  · obtain ⟨found, -, lookup⟩ := each f mem
    rw [lookup, Field.fill, if_neg (by simp [needed])]
    intro missing
    refine zero?_ne_none (fun choice union => ?_) (Option.or_eq_none_iff.1 missing).2
    simp [optional f mem choice union] at needed
  · obtain ⟨found, field_read, lookup⟩ := each f mem
    rw [resolveField_eq (sound.candidate_usable mem), ← readAt_false] at field_read
    have filled : found.or f.schema.zero? = some v := Field.or_zero_of_fill (lookup ▸ there)
    have field_valid := sound.field_valid f mem
    exact refills_part field_valid (refillable f mem) (ih f mem _ false · field_valid (refillable f mem)) field_read filled

/-- A block that is read. -/
private theorem refills_block (block : schema.isBlock = true) (valid : schema.Valid) (refillable : schema.Refillable)
    (ih : ∀ shape ∈ schema.shapes, ∀ f ∈ shape.fields, AllRefill s f.schema)
    (read : resolveFields s.source base (schema.shapeFor members).fields = .ok members) :
    (Json.object members).NullFree ∧ schema.Fits (.object members) ∧
      ∀ held ∈ heldFields members (schema.shapeFor members).fields,
        Reshapes s.source held.1.schema (candidatesOf held.1 base) false held.2 := by
  have own := shapeFor_mem_shapes block members
  obtain ⟨names, required, each⟩ := refill_fields (valid.soundShape own) (ih _ own)
    (fun f mem => refillable.child (field_mem_children own mem))
    (fun f mem => refillable.optional schema (.self _) _ own f mem) read
  obtain ⟨nullFree, fits⟩ := block_fits block valid names
    (fun f mem v found => ⟨(each f mem v found).nullFree, (each f mem v found).fits⟩) required
  refine ⟨nullFree, fits, fun held mem => ?_⟩
  obtain ⟨declared, found⟩ := mem_heldFields_iff.1 mem
  exact (each held.1 declared held.2 (Field.value?_eq_some_iff.1 found).1).reshapes

private theorem refill_object (shape : Shape Schema) (ih : ∀ f ∈ shape.fields, AllRefill s f.schema) :
    AllRefill s (.object shape) := by
  intro cs sliced value valid refillable read
  obtain ⟨candidate, mem, there⟩ := exists_candidate (by simp) read
  have found := there
  rw [resolve_object, bind_eq_ok_iff] at found
  obtain ⟨opened, -, later⟩ := found
  cases opened with
  | false => cases later
  | true =>
    obtain ⟨members, fields, result⟩ := bind_eq_ok_iff.1 later
    cases result
    rw [membersOf_read (valid_object_iff.1 valid) fields] at there ⊢
    obtain ⟨nullFree, fits, reshapes⟩ := refills_block rfl valid refillable (by simpa [shapes] using ih) fields
    exact ⟨nullFree, fits, .object mem there reshapes⟩

/-- The tag among the members of a union is the one that stands in the block where they were read. -/
theorem tagOf_read (sound : SoundShape shape) {f : Field Schema} (mem : f ∈ shape.fields)
    (name : f.name = choice.discriminator.name) (wireName : f.wireName = choice.discriminator.wireName)
    (kind : f.schema = .scalar .string) (sole : f.aliases = []) (optional : f.optional = true)
    (read : resolveFields s.source base shape.fields = .ok members) :
    (tagOf choice.discriminator members).map .string = s.get? (base.member choice.discriminator.name).text := by
  obtain ⟨-, each⟩ := lookup_of_resolveFields sound.wireNames_nodup read
  obtain ⟨found, field_read, lookup⟩ := each f mem
  rw [Field.fill, if_pos optional] at lookup
  have one : candidatesOf f base = [⟨base.member f.name, none⟩] := by simp [candidatesOf, kind, sole, variantSegments]
  rw [resolveField_eq (sound.candidate_usable mem), ← readAt_false, one, readAt_single, kind, resolve_scalar,
    resolveScalar_eq_ok_iff, name] at field_read
  obtain ⟨leaf, stands, rfl, kinds⟩ := field_read
  rw [stands]
  cases leaf with
  | none =>
    have absent : f.value? members = none := Field.value?_eq_none_iff.2 (.inl lookup)
    rw [tagOf_eq_of_value? none wireName absent]
    rfl
  | some x =>
    cases x with
    | string tag =>
      rw [tagOf_eq_some_iff.2 (wireName ▸ lookup)]
      rfl
    | bool | int | float => cases kinds _ rfl

private theorem refill_union (choice : TaggedUnion Schema)
    (ih : ∀ shape ∈ choice.shapes, ∀ f ∈ shape.fields, AllRefill s f.schema) : AllRefill s (.union choice) := by
  intro cs sliced value valid refillable read
  obtain ⟨-, usable, tags, -, sound⟩ := valid_union_iff.1 valid
  have whole : resolveChoice s.source choice sliced cs = .ok (some value) := read
  rcases resolveChoice_eq_ok_cases whole with ⟨none, -⟩ | ⟨base, variant, members, chose, fields, eq⟩
  · cases none
  cases eq
  obtain ⟨c, -, rfl, cases⟩ := chosen_eq_some usable chose
  have own := chosen_mem_shapes usable tags chose
  rw [membersOf_read (sound _ own) fields] at whole ⊢
  obtain ⟨f, mem, name, wireName, kind, sole, optional⟩ := refillable.tagged choice (.self _) _ own
  have tagged := tagOf_read (sound _ own) mem name wireName kind sole optional fields
  have same : choice.variantOf members = variant := by
    rw [TaggedUnion.variantOf]
    rcases cases with ⟨v, rfl, tag, stands, admitted⟩ | ⟨rfl, whole, passes, -⟩
    · rw [stands] at tagged
      obtain ⟨_, found, ⟨⟩⟩ := Option.map_eq_some_iff.1 tagged
      rw [found, Option.bind_some]
      exact ((admitted_eq_some_iff tags).1 admitted).1
    · cases found : tagOf choice.discriminator members with
      | none => rfl
      | some tag =>
        rw [found] at tagged
        obtain ⟨_, ⟨⟩, unselected⟩ := passes _ tagged.symm
        rwa [whole] at unselected
  subst same
  have block : (Schema.union choice).isBlock = true := rfl
  obtain ⟨nullFree, fits, reshapes⟩ := refills_block block valid refillable ih fields
  exact ⟨nullFree, fits, .union whole chose reshapes⟩

theorem allRefill (finite : s.FloatsFinite) (schema : Schema) : AllRefill s schema := by
  induction schema using formInduction with
  | scalar kind => exact refill_scalar finite kind
  | items schema c form ih => exact refill_items form ih
  | map element ih => exact refill_map ih
  | block schema block ih =>
    cases schema with
    | object shape => exact refill_object shape (ih shape List.mem_cons_self)
    | union choice => exact refill_union choice ih
    | scalar | list | set | map => cases block

/-- Whatever is resolved can be stored again. It has no null in it, and each union in it is stored as the variant, or
the base, as which it was read. -/
theorem flatten_resolved (valid : schema.Valid) (refillable : schema.Refillable) (finite : s.FloatsFinite)
    (read : schema.resolveRoot s.source = .ok (some value)) :
    value.NullFree ∧ (∃ t, schema.flatten value false = .ok t) ∧
      Reshapes s.source schema [⟨.root, none⟩] false value := by
  have whole := allRefill finite schema [⟨.root, none⟩] false value valid refillable (by rwa [readAt_single])
  exact ⟨whole.nullFree, ⟨_, flatten_eq_ok_iff.2 ⟨whole.fits .root false, rfl⟩⟩, whole.reshapes⟩

/-- A rule with a hole among its tags and with an event under a former name. -/
def patchyRule : Store :=
  .ofList [("tags.#", .int 2), ("tags.1", .string "a"), ("trigger.#", .int 1), ("trigger.0.type", .string "tap")]

theorem flatten_resolved_patchyRule : ∃ value, rule.resolveRoot patchyRule.source = .ok (some value) ∧
    value = .object [("tags", .array [.string "", .string "a"]), ("event", .object [("type", .string "tap")])] ∧
      value.NullFree ∧ (∃ t, rule.flatten value false = .ok t) ∧ Reshapes patchyRule.source rule [⟨.root, none⟩] false value := by
  have read : rule.resolveRoot patchyRule.source = .ok (some (.object
      [("tags", .array [.string "", .string "a"]), ("event", .object [("type", .string "tap")])])) := by decide +kernel
  have finite : patchyRule.FloatsFinite := by
    intro key x found
    rw [Store.get?_eq_some_iff, patchyRule, Store.toList_ofList] at found
    simpa using mem_of_mem_membersOf found
  have refillable : rule.Refillable := refillable_of_within (by decide)
  exact ⟨_, read, rfl, flatten_resolved (by decide) refillable finite read⟩

end Schema
end FlatStore
