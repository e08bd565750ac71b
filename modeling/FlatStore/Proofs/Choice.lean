import FlatStore.Proofs.Candidates

/-!
The shape in which a union is read. Reading a union first chooses a block and a variant or the base, by tags and by
what is present, and then reads the fields of its shape in the block (`Schema.resolveChoice_eq_chosen`). A variant is
chosen where its tag is stored, and the base where no tag selects a variant (`Schema.chosen_eq_some`).
-/
namespace FlatStore

/-- The variant that a tag selects at a candidate: any, or just the one that the candidate belongs to. -/
def TaggedUnion.admitted (choice : TaggedUnion Schema) (only : Option Nat) (tag : String) : Option (Variant Schema) :=
  match only with
  | none => choice.variant? tag
  | some i => choice.variants[i]?.filter (·.values.contains tag)

def TaggedUnion.shapeAs (choice : TaggedUnion Schema) (variant : Option (Variant Schema)) : Shape Schema :=
  (variant.map (·.shape)).getD choice.base

namespace Schema

/-! ### Choosing -/

section
variable (source : Source) (choice : TaggedUnion Schema) (sliced : Bool)

/-- The block of the first candidate with a tag that selects a variant there, and the variant. -/
def chosenVariant : List Candidate → Resolved (Option (Address × Variant Schema))
  | [] => return none
  | candidate :: rest => do
    let base := candidate.address.block sliced
    let tagAddress ← (base.append choice.discriminator.name).mapError .address
    match ← stored source tagAddress with
    | none => chosenVariant rest
    | some (.string tag) =>
      match choice.admitted candidate.only tag with
      | some v => return some (base, v)
      | none => chosenVariant rest
    | some found => throw (unexpected tagAddress .string found)

def chosenBase : List Address → Resolved (Option Address)
  | [] => return none
  | a :: rest => do
    if ← basePresent source choice.discriminator.name a sliced then return some a else chosenBase rest

/-- The block that a union is read in, and the variant or the base that it is read as. -/
def chosen (candidates : List Candidate) : Resolved (Option (Address × Option (Variant Schema))) := do
  if let some (base, v) ← chosenVariant source choice sliced candidates then return some (base, some v)
  let shared := (candidates.filter (·.only.isNone)).map Candidate.address
  return (← chosenBase source choice sliced shared).map fun a => (a.block sliced, none)

end

variable {source : Source} {choice : TaggedUnion Schema} {sliced : Bool} {cs : List Candidate}

theorem selected_eq_admitted (only : Option Nat) (tag : String) : selected (variantReaders source choice) only tag =
    (choice.admitted only tag).map fun v => readerOf source v.values v.shape := by
  cases only with
  | none => exact selected_any source tag
  | some i =>
    simp only [selected, variantReaders, TaggedUnion.admitted, List.getElem?_map]
    cases choice.variants[i]? with
    | none => rfl
    | some v => cases has : v.values.contains tag <;> simp [readerOf, Option.filter]

theorem resolveVariant_eq_chosen (candidates : List Candidate) :
    resolveVariant source choice.discriminator.name (variantReaders source choice) sliced candidates = do
      match ← chosenVariant source choice sliced candidates with
      | some (base, v) => some <$> resolveFields source base v.shape.fields
      | none => return none := by
  induction candidates with
  | nil => rfl
  | cons c rest ih =>
    rw [resolveVariant, chosenVariant]
    simp only [bind_assoc]
    refine bind_congr fun tagAddress => bind_congr fun found => ?_
    cases found with
    | none => exact ih
    | some found =>
      cases found with
      | string tag =>
        dsimp only
        rw [selected_eq_admitted]
        cases choice.admitted c.only tag with
        | none => exact ih
        | some v => rfl
      | bool | int | float => rfl

theorem resolveBase_eq_chosen (read : Address → Resolved (List (String × Json))) (addresses : List Address) :
    resolveBase source choice.discriminator.name read sliced addresses = do
      match ← chosenBase source choice sliced addresses with
      | some a => some <$> read (a.block sliced)
      | none => return none := by
  induction addresses with
  | nil => rfl
  | cons a rest ih =>
    rw [resolveBase, chosenBase, bind_assoc]
    refine bind_congr fun found => ?_
    cases found with
    | true => rfl
    | false => exact ih

/-- A union is read by choosing a block and a variant or the base, and reading the fields of its shape in the block. -/
theorem resolveChoice_eq_chosen (candidates : List Candidate) : resolveChoice source choice sliced candidates = do
    match ← chosen source choice sliced candidates with
    | some (base, v) => return some (.object (membersOf (← resolveFields source base (choice.shapeAs v).fields)))
    | none => return none := by
  rw [resolveChoice, resolveUnion, chosen, resolveVariant_eq_chosen]
  simp only [bind_assoc]
  refine bind_congr fun found => ?_
  cases found with
  | some found =>
    obtain ⟨base, v⟩ := found
    simp only [pure_bind, TaggedUnion.shapeAs, Option.map_some, Option.getD_some]
    cases resolveFields source base v.shape.fields <;> rfl
  | none =>
    simp only [resolveBase_eq_chosen, pure_bind, bind_assoc]
    refine bind_congr fun found => ?_
    cases found with
    | none => rfl
    | some a =>
      simp only [readerOf, Option.map_some, TaggedUnion.shapeAs, Option.map_none, Option.getD_none]
      cases resolveFields source (a.block sliced) choice.base.fields <;> rfl

theorem resolveChoice_eq_ok_cases {found : Option Json} (read : resolveChoice source choice sliced cs = .ok found) :
    found = none ∧ chosen source choice sliced cs = .ok none ∨
      ∃ base v members, chosen source choice sliced cs = .ok (some (base, v)) ∧
        resolveFields source base (choice.shapeAs v).fields = .ok members ∧ found = some (.object (membersOf members)) := by
  rw [resolveChoice_eq_chosen, bind_eq_ok_iff] at read
  obtain ⟨outcome, chose, later⟩ := read
  cases outcome with
  | none =>
    cases later
    exact .inl ⟨rfl, chose⟩
  | some outcome =>
    obtain ⟨base, v⟩ := outcome
    obtain ⟨members, fields, result⟩ := bind_eq_ok_iff.1 later
    cases result
    exact .inr ⟨base, v, members, chose, fields, rfl⟩

/-! ### What is chosen in a store -/

variable {s : Store} {base : Address}

/-- Whether no variant is chosen at a candidate: there is no tag, or one that selects none there. -/
def Passes (s : Store) (choice : TaggedUnion Schema) (sliced : Bool) (c : Candidate) : Prop :=
  ∀ found, s.get? ((c.address.block sliced).member choice.discriminator.name).text = some found →
    ∃ tag, found = .string tag ∧ choice.admitted c.only tag = none

/-- Whether the tag at a candidate selects a variant there. -/
def Picks (s : Store) (choice : TaggedUnion Schema) (sliced : Bool) (c : Candidate) (v : Variant Schema) : Prop :=
  ∃ tag, s.get? ((c.address.block sliced).member choice.discriminator.name).text = some (.string tag) ∧
    choice.admitted c.only tag = some v

theorem admitted_eq_some_iff (tags : (choice.variants.flatMap (·.values)).Nodup) {only : Option Nat} {tag : String}
    {v : Variant Schema} : choice.admitted only tag = some v ↔
      choice.variant? tag = some v ∧ ∀ i, only = some i → choice.variants[i]? = some v := by
  cases only with
  | none => simp [TaggedUnion.admitted]
  | some i =>
    simp only [TaggedUnion.admitted, Option.filter_eq_some_iff, variant?_eq_some_iff tags, Option.some.injEq,
      List.contains_iff_mem]
    constructor
    · rintro ⟨here, has⟩
      refine ⟨⟨List.mem_of_getElem? here, has⟩, ?_⟩
      rintro j rfl
      exact here
    · rintro ⟨⟨-, has⟩, here⟩
      exact ⟨here i rfl, has⟩

section
variable (usable : isFieldName choice.discriminator.name = true)
include usable

theorem chosenVariant_cons (c : Candidate) : chosenVariant s.source choice sliced (c :: cs) =
    match s.get? ((c.address.block sliced).member choice.discriminator.name).text with
    | none => chosenVariant s.source choice sliced cs
    | some (.string tag) =>
      match choice.admitted c.only tag with
      | some v => .ok (some (c.address.block sliced, v))
      | none => chosenVariant s.source choice sliced cs
    | some found =>
      .error (unexpected ((c.address.block sliced).member choice.discriminator.name) .string found) := by
  rw [chosenVariant, Address.append_eq usable, mapError_ok, ok_bind, Store.stored_source, ok_bind]
  rfl

theorem chosenVariant_eq_none (none_chosen : chosenVariant s.source choice sliced cs = .ok none) :
    ∀ c ∈ cs, Passes s choice sliced c := by
  induction cs with
  | nil => simp
  | cons c rest ih =>
    rw [chosenVariant_cons usable] at none_chosen
    split at none_chosen
    · next absent =>
      refine List.forall_mem_cons.2 ⟨fun found there => ?_, ih none_chosen⟩
      rw [absent] at there
      cases there
    · next tag tagged =>
      split at none_chosen
      · cases none_chosen
      · next unselected =>
        refine List.forall_mem_cons.2 ⟨fun found there => ?_, ih none_chosen⟩
        rw [tagged] at there
        exact ⟨tag, (Option.some.inj there).symm, unselected⟩
    · cases none_chosen

theorem chosenVariant_eq_some {v : Variant Schema}
    (chosen : chosenVariant s.source choice sliced cs = .ok (some (base, v))) :
    ∃ c ∈ cs, base = c.address.block sliced ∧ Picks s choice sliced c v := by
  induction cs with
  | nil => cases chosen
  | cons c rest ih =>
    have later : chosenVariant s.source choice sliced rest = .ok (some (base, v)) →
        ∃ d ∈ c :: rest, base = d.address.block sliced ∧ Picks s choice sliced d v := by
      intro found
      obtain ⟨d, mem, picked⟩ := ih found
      exact ⟨d, List.mem_cons_of_mem _ mem, picked⟩
    rw [chosenVariant_cons usable] at chosen
    split at chosen
    · exact later chosen
    · next tag tagged =>
      split at chosen
      · next selected =>
        cases chosen
        exact ⟨c, List.mem_cons_self, rfl, tag, tagged, selected⟩
      · exact later chosen
    · cases chosen

end

theorem chosenBase_eq_none {addresses : List Address}
    (none_chosen : chosenBase s.source choice sliced addresses = .ok none) :
    ∀ a ∈ addresses, basePresent s.source choice.discriminator.name a sliced = .ok false := by
  induction addresses with
  | nil => simp
  | cons a rest ih =>
    rw [chosenBase, bind_eq_ok_iff] at none_chosen
    obtain ⟨there, present, later⟩ := none_chosen
    cases there with
    | true => cases later
    | false => exact List.forall_mem_cons.2 ⟨present, ih later⟩

theorem chosenBase_eq_some {addresses : List Address} {a : Address}
    (chosen : chosenBase s.source choice sliced addresses = .ok (some a)) :
    a ∈ addresses ∧ basePresent s.source choice.discriminator.name a sliced = .ok true := by
  induction addresses with
  | nil => cases chosen
  | cons b rest ih =>
    rw [chosenBase, bind_eq_ok_iff] at chosen
    obtain ⟨there, present, later⟩ := chosen
    cases there with
    | true =>
      cases later
      exact ⟨List.mem_cons_self, present⟩
    | false => exact ⟨List.mem_cons_of_mem _ (ih later).1, (ih later).2⟩

theorem chosen_eq_none (usable : isFieldName choice.discriminator.name = true)
    (none_chosen : chosen s.source choice sliced cs = .ok none) : ∀ c ∈ cs, Passes s choice sliced c ∧
      (c.only = none → basePresent s.source choice.discriminator.name c.address sliced = .ok false) := by
  rw [chosen, bind_eq_ok_iff] at none_chosen
  obtain ⟨variant, chose, later⟩ := none_chosen
  cases variant with
  | some found => cases later
  | none =>
    obtain ⟨base, chose_base, mapped⟩ := bind_eq_ok_iff.1 later
    cases base with
    | some a => cases mapped
    | none =>
      refine fun c mem => ⟨chosenVariant_eq_none usable chose c mem, fun whole => ?_⟩
      refine chosenBase_eq_none chose_base c.address (List.mem_map.2 ⟨c, ?_, rfl⟩)
      exact List.mem_filter.2 ⟨mem, by simp [whole]⟩

/-- A variant is chosen by its tag. The base is chosen where it is present and no tag selects a variant. -/
theorem chosen_eq_some (usable : isFieldName choice.discriminator.name = true) {variant : Option (Variant Schema)}
    (chose : chosen s.source choice sliced cs = .ok (some (base, variant))) : ∃ c ∈ cs, base = c.address.block sliced ∧
      ((∃ v, variant = some v ∧ Picks s choice sliced c v) ∨
        variant = none ∧ c.only = none ∧ Passes s choice sliced c ∧
          basePresent s.source choice.discriminator.name c.address sliced = .ok true) := by
  rw [chosen, bind_eq_ok_iff] at chose
  obtain ⟨variant, chose, later⟩ := chose
  cases variant with
  | some found =>
    cases later
    obtain ⟨c, mem, here, picks⟩ := chosenVariant_eq_some usable chose
    exact ⟨c, mem, here, .inl ⟨_, rfl, picks⟩⟩
  | none =>
    obtain ⟨found, chose_base, mapped⟩ := bind_eq_ok_iff.1 later
    cases found with
    | none => cases mapped
    | some a =>
      cases mapped
      obtain ⟨shared, present⟩ := chosenBase_eq_some chose_base
      obtain ⟨c, held, rfl⟩ := List.mem_map.1 shared
      obtain ⟨mem, whole⟩ := List.mem_filter.1 held
      exact ⟨c, mem, rfl, .inr ⟨rfl, by simpa using whole, chosenVariant_eq_none usable chose c mem, present⟩⟩

theorem chosen_mem_shapes (usable : isFieldName choice.discriminator.name = true)
    (tags : (choice.variants.flatMap (·.values)).Nodup) {variant : Option (Variant Schema)}
    (chose : chosen s.source choice sliced cs = .ok (some (base, variant))) : choice.shapeAs variant ∈ choice.shapes := by
  obtain ⟨c, -, -, ⟨v, rfl, tag, -, admitted⟩ | ⟨rfl, -⟩⟩ := chosen_eq_some usable chose
  · have selected := ((admitted_eq_some_iff tags).1 admitted).1
    exact List.mem_cons_of_mem _ (List.mem_map.2 ⟨v, List.mem_of_find?_eq_some selected, rfl⟩)
  · exact List.mem_cons_self

end Schema
end FlatStore
