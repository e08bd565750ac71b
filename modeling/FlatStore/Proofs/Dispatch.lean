import FlatStore.Proofs.Failure
import FlatStore.Proofs.Restored

/-!
Which shape a field of a union is read in. Its candidates are tried in a fixed order: the name, the segments of the
variants, each of which belongs to its own variant, and the former names. The first candidate whose tag selects a
variant that it admits decides, and only if there is none the base shape is read, at the first of the name and the
former names where its block is present. A tag that is no string is an error, unless a variant has been found before it
(`Schema.dispatched_field`).
-/
namespace FlatStore
namespace Schema

variable {s : Store} {choice : TaggedUnion Schema} {cs before after : List Candidate} {c : Candidate}
  {v : Variant Schema} {a b : Address}

/-! ### Tags -/

def tagAt (s : Store) (choice : TaggedUnion Schema) (c : Candidate) : Option Scalar :=
  s.get? ((c.address.block false).member choice.discriminator.name).text

/-- Whether the tag of a candidate is a string, if there is one. -/
def HasTextTag (s : Store) (choice : TaggedUnion Schema) (c : Candidate) : Prop :=
  ∀ found, tagAt s choice c = some found → ∃ tag, found = .string tag

theorem passes_iff : Passes s choice false c ↔ HasTextTag s choice c ∧ ∀ v, ¬ Picks s choice false c v := by
  constructor
  · refine fun passes => ⟨fun found there => ?_, ?_⟩
    · obtain ⟨tag, is_tag, -⟩ := passes found there
      exact ⟨tag, is_tag⟩
    · rintro v ⟨tag, there, admitted⟩
      obtain ⟨other, same, unselected⟩ := passes _ there
      cases same
      rw [unselected] at admitted
      cases admitted
  · rintro ⟨tagged, unpicked⟩ found there
    obtain ⟨tag, rfl⟩ := tagged found there
    refine ⟨tag, rfl, ?_⟩
    cases admitted : choice.admitted c.only tag with
    | none => rfl
    | some v => exact absurd ⟨tag, there, admitted⟩ (unpicked v)

theorem decided_cases (decided : ¬ Passes s choice false c) : (∃ v, Picks s choice false c v) ∨
    ∃ found, tagAt s choice c = some found ∧ ∀ tag, found ≠ .string tag := by
  by_cases picked : ∃ v, Picks s choice false c v
  · exact .inl picked
  · have mistagged : ¬ HasTextTag s choice c := fun tagged => decided (passes_iff.2 ⟨tagged, not_exists.1 picked⟩)
    simp only [HasTextTag, not_forall, not_exists] at mistagged
    obtain ⟨found, there, other⟩ := mistagged
    exact .inr ⟨found, there, other⟩

theorem first_decided (some_decided : ¬ ∀ c ∈ cs, Passes s choice false c) : ∃ before c after,
    cs = before ++ c :: after ∧ (∀ d ∈ before, Passes s choice false d) ∧ ¬ Passes s choice false c := by
  induction cs with
  | nil => simp at some_decided
  | cons c rest ih =>
    by_cases passes : Passes s choice false c
    · obtain ⟨before, d, after, rfl, passed, decided⟩ :=
        ih fun later => some_decided (List.forall_mem_cons.2 ⟨passes, later⟩)
      exact ⟨c :: before, d, after, rfl, List.forall_mem_cons.2 ⟨passes, passed⟩, decided⟩
    · exact ⟨[], c, rest, rfl, by simp, passes⟩

theorem Picks.only_variant (tags : (choice.variants.flatMap (·.values)).Nodup) (picks : Picks s choice false c v) :
    ∃ tag, tagAt s choice c = some (.string tag) ∧ choice.variant? tag = some v ∧
      ∀ w ∈ choice.variants, tag ∈ w.values → w = v := by
  obtain ⟨tag, there, admitted⟩ := picks
  have selected := ((admitted_eq_some_iff tags).1 admitted).1
  obtain ⟨mem, has⟩ := (variant?_eq_some_iff tags).1 selected
  exact ⟨tag, there, selected, fun w held also => eq_of_tag tags held mem also has⟩

/-! ### Variants -/

section
variable (usable : isFieldName choice.discriminator.name = true)
include usable

theorem chosenVariant_of_passes (passed : ∀ d ∈ before, Passes s choice false d) :
    chosenVariant s.source choice false (before ++ cs) = chosenVariant s.source choice false cs := by
  induction before with
  | nil => rfl
  | cons d rest ih =>
    obtain ⟨here, later⟩ := List.forall_mem_cons.1 passed
    rw [List.cons_append, chosenVariant_cons usable, ← ih later]
    cases there : s.get? ((d.address.block false).member choice.discriminator.name).text with
    | none => rfl
    | some found =>
      obtain ⟨tag, rfl, unselected⟩ := here found there
      simp only [unselected]

/-- The first candidate whose tag selects a variant decides. -/
theorem chosen_of_picks (passed : ∀ d ∈ before, Passes s choice false d) (picks : Picks s choice false c v) :
    chosen s.source choice false (before ++ c :: after) = .ok (some (c.address.block false, some v)) := by
  obtain ⟨tag, there, admitted⟩ := picks
  rw [chosen, chosenVariant_of_passes usable passed, chosenVariant_cons usable, there]
  simp only [admitted]
  rfl

theorem chosen_of_mistagged (passed : ∀ d ∈ before, Passes s choice false d) {found : Scalar}
    (there : tagAt s choice c = some found) (mistagged : ∀ tag, found ≠ .string tag) :
    chosen s.source choice false (before ++ c :: after) =
      .error (unexpected ((c.address.block false).member choice.discriminator.name) .string found) := by
  rw [tagAt] at there
  rw [chosen, chosenVariant_of_passes usable passed, chosenVariant_cons usable, there]
  cases found with
  | string tag => exact absurd rfl (mistagged tag)
  | bool | int | float => rfl

theorem chosen_eq_variant_iff : chosen s.source choice false cs = .ok (some (b, some v)) ↔ ∃ before c after,
    cs = before ++ c :: after ∧ (∀ d ∈ before, Passes s choice false d) ∧ Picks s choice false c v ∧
      b = c.address.block false := by
  constructor
  · intro chose
    by_cases passed : ∀ c ∈ cs, Passes s choice false c
    · obtain ⟨c, mem, -, ⟨w, -, picks⟩ | ⟨nothing, -⟩⟩ := chosen_eq_some usable chose
      · exact absurd picks ((passes_iff.1 (passed c mem)).2 w)
      · cases nothing
    · obtain ⟨before, c, after, rfl, passed, decided⟩ := first_decided passed
      refine ⟨before, c, after, rfl, passed, ?_⟩
      rcases decided_cases decided with ⟨w, picks⟩ | ⟨found, there, other⟩
      · rw [chosen_of_picks usable passed picks] at chose
        cases chose
        exact ⟨picks, rfl⟩
      · rw [chosen_of_mistagged usable passed there other] at chose
        cases chose
  · rintro ⟨before, c, after, rfl, passed, picks, rfl⟩
    exact chosen_of_picks usable passed picks

theorem chosen_variant_of_picks (tagged : ∀ c ∈ cs, HasTextTag s choice c) (mem : c ∈ cs)
    (picks : Picks s choice false c v) : ∃ b w, chosen s.source choice false cs = .ok (some (b, some w)) := by
  have decided : ¬ ∀ d ∈ cs, Passes s choice false d := fun passed => (passes_iff.1 (passed c mem)).2 v picks
  obtain ⟨before, d, after, rfl, passed, decided⟩ := first_decided decided
  rcases decided_cases decided with ⟨w, picks⟩ | ⟨found, there, other⟩
  · exact ⟨_, w, chosen_of_picks usable passed picks⟩
  · obtain ⟨tag, is_tag⟩ := tagged d (by simp) found there
    exact absurd is_tag (other tag)

theorem chosen_of_passes (passed : ∀ d ∈ cs, Passes s choice false d) : chosen s.source choice false cs =
    (Option.map fun a => (a.block false, none)) <$>
      chosenBase s.source choice false ((cs.filter (·.only.isNone)).map Candidate.address) := by
  have none_chosen : chosenVariant s.source choice false cs = .ok none := by
    rw [← List.append_nil cs, chosenVariant_of_passes usable passed]
    rfl
  rw [chosen, none_chosen]
  rfl

end

/-! ### The base -/

theorem chosenBase_of_absent {addresses rest : List Address}
    (absent : ∀ a ∈ addresses, basePresent s.source choice.discriminator.name a false = .ok false) :
    chosenBase s.source choice false (addresses ++ rest) = chosenBase s.source choice false rest := by
  induction addresses with
  | nil => rfl
  | cons a addresses ih =>
    obtain ⟨here, later⟩ := List.forall_mem_cons.1 absent
    rw [List.cons_append, chosenBase, here, ← ih later]
    rfl

/-- Whether the block at an address is present: its count is positive, or there is a tag in it. -/
def Standing (s : Store) (choice : TaggedUnion Schema) (a : Address) : Prop :=
  (∃ n : Int64, s.get? a.countKey = some (.int n) ∧ 0 < n.toInt) ∨
    s.get? ((a.block false).member choice.discriminator.name).text ≠ none

/-- Whether what is stored as the count of an address is a number of elements, if there is anything. -/
def Countable (s : Store) (a : Address) : Prop :=
  ∀ found, s.get? a.countKey = some found → ∃ n : Int64, found = .int n ∧ 0 ≤ n.toInt

theorem opened_iff (countable : Countable s a) :
    s.Opened a ↔ ∃ n : Int64, s.get? a.countKey = some (.int n) ∧ 0 < n.toInt := by
  have zero : ∀ n : Int64, n.toInt = 0 ↔ n = 0 := fun n => Int64.toInt_inj (y := 0)
  constructor
  · rintro ⟨n, there, nonzero⟩
    obtain ⟨m, same, sign⟩ := countable _ there
    cases same
    have differ := mt (zero n).1 nonzero
    exact ⟨n, there, by omega⟩
  · rintro ⟨n, there, positive⟩
    refine ⟨n, there, fun empty => ?_⟩
    rw [empty] at positive
    exact absurd positive (by decide)

theorem present_of_countable (below : a.isRoot = false) (countable : Countable s a) :
    ∃ there, present s.source a false = .ok there := by
  rw [present, if_neg (by simp [below])]
  -- of the store only what stands as the count is asked for
  change ∃ there, ((countOf a (s.get? a.countKey)).mapError ResolveError.store >>= _) = .ok there
  cases stored : s.get? a.countKey with
  | none => exact ⟨false, rfl⟩
  | some found =>
    obtain ⟨n, rfl, sign⟩ := countable found stored
    rw [countOf, if_pos sign]
    cases n.toInt.toNat with
    | zero => exact ⟨false, rfl⟩
    | succ m => exact ⟨true, rfl⟩

section
variable (usable : isFieldName choice.discriminator.name = true)
include usable

theorem basePresent_of_countable (below : a.isRoot = false) (countable : Countable s a) :
    ∃ there, basePresent s.source choice.discriminator.name a false = .ok there ∧
      (there = true ↔ Standing s choice a) := by
  obtain ⟨opened, first⟩ := present_of_countable below countable
  have block : a.block false = a.index 0 := by simp [Address.block, below]
  have read : ∃ there, basePresent s.source choice.discriminator.name a false = .ok there := by
    rw [basePresent, first, ok_bind]
    cases opened with
    | true => exact ⟨true, rfl⟩
    | false =>
      rw [if_neg (by decide), Address.append_eq usable, mapError_ok, ok_bind, Store.stored_source]
      exact ⟨_, rfl⟩
  obtain ⟨there, read⟩ := read
  refine ⟨there, read, ?_⟩
  rw [basePresent_eq_ok usable below read, opened_iff countable, Standing, block]

theorem basePresent_of_not_standing (below : a.isRoot = false) (countable : Countable s a)
    (absent : ¬ Standing s choice a) : basePresent s.source choice.discriminator.name a false = .ok false := by
  obtain ⟨there, read, standing⟩ := basePresent_of_countable usable below countable
  rw [read, show there = false by simpa [absent] using standing]

theorem chosenBase_cons_of_standing {rest : List Address} (below : a.isRoot = false) (countable : Countable s a)
    (standing : Standing s choice a) : chosenBase s.source choice false (a :: rest) = .ok (some a) := by
  obtain ⟨there, read, iff⟩ := basePresent_of_countable usable below countable
  rw [chosenBase, read, iff.2 standing]
  rfl

end

/-! ### Fields -/

/-- Whether all that decides between some candidates can be read: each tag is a string, and where the base may stand the
count is one. -/
structure Legible (s : Store) (choice : TaggedUnion Schema) (cs : List Candidate) : Prop where
  tagged : ∀ c ∈ cs, HasTextTag s choice c
  countable : ∀ c ∈ cs, c.only = none → Countable s c.address

/-- How it is decided at some candidates which block of a union is read, and in which shape. -/
structure Dispatched (s : Store) (choice : TaggedUnion Schema) (cs : List Candidate) : Prop where
  variant_iff : Legible s choice cs → ((∃ b v, chosen s.source choice false cs = .ok (some (b, some v))) ↔
    ∃ c ∈ cs, ∃ v, Picks s choice false c v)
  /-- A variant is that of the first candidate whose tag selects one, in the block of that candidate. -/
  first_variant : ∀ {b v}, chosen s.source choice false cs = .ok (some (b, some v)) ↔ ∃ before c after,
    cs = before ++ c :: after ∧ (∀ d ∈ before, Passes s choice false d) ∧ Picks s choice false c v ∧
      b = c.address.block false
  only_variant : ∀ {c v}, Picks s choice false c v → ∃ tag, tagAt s choice c = some (.string tag) ∧
    choice.variant? tag = some v ∧ ∀ w ∈ choice.variants, tag ∈ w.values → w = v
  /-- The base is read at the first candidate that is no variant's own and whose block is present. -/
  first_base : Legible s choice cs → (∀ c ∈ cs, ∀ v, ¬ Picks s choice false c v) → ∀ {before c after},
    cs.filter (·.only.isNone) = before ++ c :: after → (∀ d ∈ before, ¬ Standing s choice d.address) →
      Standing s choice c.address → chosen s.source choice false cs = .ok (some (c.address.block false, none))
  absent : Legible s choice cs → (∀ c ∈ cs, ∀ v, ¬ Picks s choice false c v) →
    (∀ c ∈ cs, c.only = none → ¬ Standing s choice c.address) → chosen s.source choice false cs = .ok none
  /-- The first tag that is no string is an error, unless a candidate before it has decided. -/
  mistagged : ∀ {before c after found}, cs = before ++ c :: after → tagAt s choice c = some found →
    (∀ tag, found ≠ .string tag) → (∀ d ∈ before, HasTextTag s choice d ∧ ∀ v, ¬ Picks s choice false d v) →
      chosen s.source choice false cs =
        .error (unexpected ((c.address.block false).member choice.discriminator.name) .string found)

theorem dispatched (valid : (union choice).Valid) (below : ∀ c ∈ cs, c.address.isRoot = false) :
    Dispatched s choice cs := by
  obtain ⟨-, usable, tags, -, -⟩ := valid_union_iff.1 valid
  -- where nothing is picked the base is looked for, and it can be told where it is present
  have based : Legible s choice cs → (∀ c ∈ cs, ∀ v, ¬ Picks s choice false c v) →
      chosen s.source choice false cs = (Option.map fun a => (a.block false, none)) <$>
        chosenBase s.source choice false ((cs.filter (·.only.isNone)).map Candidate.address) :=
    fun legible unpicked => chosen_of_passes usable fun c mem => passes_iff.2 ⟨legible.tagged c mem, unpicked c mem⟩
  have readable : Legible s choice cs → ∀ c ∈ cs.filter (·.only.isNone),
      c.address.isRoot = false ∧ Countable s c.address := by
    intro legible c held
    obtain ⟨mem, shared⟩ := List.mem_filter.1 held
    exact ⟨below c mem, legible.countable c mem (by simpa using shared)⟩
  constructor
  case variant_iff =>
    intro legible
    constructor
    · rintro ⟨b, v, chose⟩
      obtain ⟨before, c, after, rfl, -, picks, -⟩ := (chosen_eq_variant_iff usable).1 chose
      exact ⟨c, by simp, v, picks⟩
    · rintro ⟨c, mem, v, picks⟩
      exact chosen_variant_of_picks usable legible.tagged mem picks
  case first_variant => exact chosen_eq_variant_iff usable
  case only_variant => exact fun picks => picks.only_variant tags
  case first_base =>
    intro legible unpicked before c after shared absent standing
    have countable := readable legible
    rw [based legible unpicked]
    rw [shared] at countable ⊢
    obtain ⟨here, counted⟩ := countable c (by simp)
    rw [List.map_append, chosenBase_of_absent, List.map_cons, chosenBase_cons_of_standing usable here counted standing]
    · rfl
    · refine List.forall_mem_map.2 fun d mem => ?_
      obtain ⟨under, counts⟩ := countable d (List.mem_append_left _ mem)
      exact basePresent_of_not_standing usable under counts (absent d mem)
  case absent =>
    intro legible unpicked absent
    have missing : ∀ a ∈ (cs.filter (·.only.isNone)).map Candidate.address,
        basePresent s.source choice.discriminator.name a false = .ok false := by
      refine List.forall_mem_map.2 fun c held => ?_
      obtain ⟨under, counts⟩ := readable legible c held
      obtain ⟨mem, shared⟩ := List.mem_filter.1 held
      exact basePresent_of_not_standing usable under counts (absent c mem (by simpa using shared))
    rw [based legible unpicked, ← List.append_nil (List.map _ _), chosenBase_of_absent missing]
    rfl
  case mistagged =>
    rintro before c after found rfl there other decided
    exact chosen_of_mistagged usable (fun d mem => passes_iff.2 (decided d mem)) there other

/-- A field of a union is looked for under its name, the segments of the variants in their order and its former names.
By their tags and counts it is decided where it stands and in which shape it is read. -/
theorem dispatched_field {schema inner : Schema} (valid : schema.Valid) (inside : Inside inner schema)
    {shape : Shape Schema} (mem : shape ∈ inner.shapes) {f : Field Schema} (declared : f ∈ shape.fields)
    (form : f.schema = .union choice) (s : Store) (base : Address) :
    f.schema.candidates f.name f.aliases base = .ok (candidatesOf f base) ∧
      resolveField s.source base f = (do
        match ← chosen s.source choice false (candidatesOf f base) with
        | some (b, v) => return some (.object (membersOf (← resolveFields s.source b (choice.shapeAs v).fields)))
        | none => return none) ∧
      Dispatched s choice (candidatesOf f base) := by
  have sound := (valid.inside inside).soundShape mem
  have usable := sound.candidate_usable declared
  have read : resolveField s.source base f = resolveChoice s.source choice false (candidatesOf f base) := by
    rw [resolveField_eq usable, form, resolveAt_union]
  refine ⟨candidates_eq usable, read.trans (resolveChoice_eq_chosen _), ?_⟩
  refine dispatched (form ▸ sound.field_valid f declared) fun c held => ?_
  obtain ⟨name, candidate, here⟩ := mem_candidatesOf held
  rw [here]
  exact Address.isRoot_member (usable name candidate)

/-- The event of a rule is a tap: under its name there is only a count, the tag under the segment of taps is none of
theirs, and that under the former name is. -/
theorem dispatched_former :
    let s := Store.ofList [("event.#", .int 1), ("tap.#", .int 1), ("tap.0.type", .string "swipe"),
      ("trigger.#", .int 1), ("trigger.0.type", .string "tap")]
    let choice : TaggedUnion Schema := ⟨"Event", ⟨"type", "type"⟩, [⟨"Tap", ["tap"], some "tap", tap⟩], tap⟩
    let event : Field Schema := ⟨"event", "event", .union choice, true, false, ["trigger"], none⟩
    rule.Valid ∧ (∃ shape ∈ rule.shapes, event ∈ shape.fields) ∧
      chosen s.source choice false (candidatesOf event .root) =
        .ok (some ((Address.root.member "trigger").index 0, some ⟨"Tap", ["tap"], some "tap", tap⟩)) := by
  intro s choice event
  have valid : rule.Valid := by decide
  have mem : ∃ shape ∈ rule.shapes, event ∈ shape.fields := ⟨_, List.mem_cons_self, by simp [event, choice]⟩
  obtain ⟨shape, held, declared⟩ := mem
  obtain ⟨-, -, decided⟩ := dispatched_field valid (.self rule) held declared rfl s .root
  have untagged : tagAt s choice ⟨Address.root.member "event", none⟩ = none := by decide +kernel
  have swiped : tagAt s choice ⟨Address.root.member "tap", some 0⟩ = some (.string "swipe") := by decide +kernel
  have tapped : tagAt s choice ⟨Address.root.member "trigger", none⟩ = some (.string "tap") := by decide +kernel
  refine ⟨valid, ⟨shape, held, declared⟩, decided.first_variant.2
    ⟨[⟨Address.root.member "event", none⟩, ⟨Address.root.member "tap", some 0⟩],
      ⟨Address.root.member "trigger", none⟩, [], rfl, ?_, ⟨"tap", tapped, rfl⟩, rfl⟩⟩
  refine List.forall_mem_cons.2 ⟨fun found there => ?_, List.forall_mem_singleton.2 fun found there => ?_⟩
  · cases untagged.symm.trans there
  · cases swiped.symm.trans there
    exact ⟨"swipe", rfl, rfl⟩

end Schema
end FlatStore
