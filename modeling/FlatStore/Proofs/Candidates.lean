import FlatStore.Proofs.Reading

/-!
Candidates. A field of a block is looked for at the members of its candidate names (`Schema.candidates_eq`), and of
these only the one where it stands holds anything. A union is then read in the shape that its tag selects
(`Schema.resolveChoice_leads`), and a field without a value is not found (`Schema.resolveAt_nothing`).
-/
namespace FlatStore
namespace Schema

variable {s : Store} {schema : Schema} {choice : TaggedUnion Schema} {members : List (String × Json)}
  {a base : Address} {sliced : Bool} {cs : List Candidate} {tag : String}

/-! ### Tags and variants -/

theorem eq_of_tag (tags : (choice.variants.flatMap (·.values)).Nodup) {v w : Variant Schema}
    (first : v ∈ choice.variants) (second : w ∈ choice.variants) (here : tag ∈ v.values) (there : tag ∈ w.values) :
    v = w := by
  by_contra differ
  have symmetric : Std.Symm (Function.onFun List.Disjoint fun v : Variant Schema => v.values) :=
    ⟨fun _ _ disjoint _ first second => disjoint second first⟩
  exact (List.nodup_flatMap.1 tags).2.forall first second differ here there

theorem variant?_eq_some_iff (tags : (choice.variants.flatMap (·.values)).Nodup) {v : Variant Schema} :
    choice.variant? tag = some v ↔ v ∈ choice.variants ∧ tag ∈ v.values := by
  have has : ∀ {w : Variant Schema}, choice.variant? tag = some w → w ∈ choice.variants ∧ tag ∈ w.values := by
    intro w found
    have contains := List.find?_some found
    exact ⟨List.mem_of_find?_eq_some found, by simpa using contains⟩
  constructor
  · exact has
  · rintro ⟨mem, here⟩
    cases found : choice.variant? tag with
    | none =>
      have absent := List.find?_eq_none.1 found v mem
      simp [here] at absent
    | some w =>
      obtain ⟨held, there⟩ := has found
      rw [eq_of_tag tags held mem there here]

variable (source : Source)

theorem selected_any (tag : String) : selected (variantReaders source choice) none tag =
    (choice.variant? tag).map fun v => readerOf source v.values v.shape := by
  rw [selected, variantReaders, List.find?_map]
  rfl

theorem selected_only (tags : (choice.variants.flatMap (·.values)).Nodup) {i : Nat} {reader : Reader} :
    selected (variantReaders source choice) (some i) tag = some reader ↔
      ∃ v, choice.variants[i]? = some v ∧ choice.variant? tag = some v ∧ reader = readerOf source v.values v.shape := by
  simp only [selected, variantReaders, List.getElem?_map, Option.filter_eq_some_iff, Option.map_eq_some_iff,
    variant?_eq_some_iff tags]
  constructor
  · rintro ⟨⟨v, here, rfl⟩, has⟩
    exact ⟨v, here, ⟨List.mem_of_getElem? here, by simpa [readerOf] using has⟩, rfl⟩
  · rintro ⟨v, here, ⟨-, has⟩, rfl⟩
    exact ⟨⟨v, here, rfl⟩, by simpa [readerOf] using has⟩

/-- Whatever is read for a tag is the variant that the tag selects. -/
theorem selected_eq_none_or (tags : (choice.variants.flatMap (·.values)).Nodup) (only : Option Nat) (tag : String) :
    selected (variantReaders source choice) only tag = none ∨ ∃ v, choice.variant? tag = some v ∧
      selected (variantReaders source choice) only tag = some (readerOf source v.values v.shape) := by
  cases chosen : selected (variantReaders source choice) only tag with
  | none => exact .inl rfl
  | some reader =>
    cases only with
    | none =>
      rw [selected_any] at chosen
      obtain ⟨v, found, rfl⟩ := Option.map_eq_some_iff.1 chosen
      exact .inr ⟨v, found, rfl⟩
    | some i =>
      obtain ⟨v, -, found, rfl⟩ := (selected_only source tags).1 chosen
      exact .inr ⟨v, found, rfl⟩

/-! ### Unions -/

/-- Whether candidates lead to a union at an address: nothing stands at the others, and one of them is of the variant
that the members select or of none. -/
structure Leads (s : Store) (choice : TaggedUnion Schema) (members : List (String × Json)) (cs : List Candidate)
    (a : Address) (sliced : Bool) : Prop where
  others : ∀ c ∈ cs, c.address = a ∨ sliced = false ∧ c.address.isRoot = false ∧ s.Holds c.address []
  leads : ∃ c ∈ cs, c.address = a ∧ ∀ i, c.only = some i → ∃ tag v, tagOf choice.discriminator members = some tag ∧
    choice.variant? tag = some v ∧ choice.variants[i]? = some v

theorem Leads.skips (leads : Leads s choice members cs a sliced) {c : Candidate} (mem : c ∈ cs) (away : c.address ≠ a) :
    Skips s choice.discriminator.name (variantReaders s.source choice) sliced c :=
  skips_of_nothing ((leads.others c mem).resolve_left away).2.2

theorem resolveVariant_leads (valid : (union choice).Valid) (leads : Leads s choice members cs a sliced)
    (stored : s.get? ((a.block sliced).member choice.discriminator.name).text = some (.string tag))
    (tagged : tagOf choice.discriminator members = some tag) {v : Variant Schema} (found : choice.variant? tag = some v) :
    resolveVariant s.source choice.discriminator.name (variantReaders s.source choice) sliced cs =
      some <$> (readerOf s.source v.values v.shape).read (a.block sliced) := by
  obtain ⟨-, usable, tags, -, -⟩ := valid_union_iff.1 valid
  obtain ⟨lead, lead_mem, lead_here, lead_only⟩ := leads.leads
  have each : ∀ c ∈ cs, Skips s choice.discriminator.name (variantReaders s.source choice) sliced c ∨
      Takes s choice.discriminator.name (variantReaders s.source choice) sliced a
        (readerOf s.source v.values v.shape) c := by
    intro c mem
    by_cases here : c.address = a
    · rcases selected_eq_none_or s.source tags c.only tag with unselected | ⟨w, also, chosen⟩
      · refine .inl fun x there => ⟨tag, ?_, unselected⟩
        rw [here, stored] at there
        exact (Option.some.inj there).symm
      · obtain rfl := Option.some.inj (found.symm.trans also)
        exact .inr ⟨here, tag, stored, chosen⟩
    · exact .inl (leads.skips mem here)
  -- the candidate that leads to the union is no variant's own, or that of the selected variant
  have taken : ¬ Skips s choice.discriminator.name (variantReaders s.source choice) sliced lead := by
    intro skips
    obtain ⟨other, eq, unselected⟩ := skips _ (lead_here ▸ stored)
    cases eq
    cases only : lead.only with
    | none => simp [only, selected_any, found] at unselected
    | some i =>
      obtain ⟨t, w, is_t, selects, here⟩ := lead_only i only
      obtain rfl := Option.some.inj (tagged.symm.trans is_t)
      have chosen := (selected_only s.source tags).2 ⟨w, here, selects, rfl⟩
      rw [only, chosen] at unselected
      cases unselected
  exact resolveVariant_of_takes usable each ⟨lead, lead_mem, taken⟩

section
variable (untagged : (tagOf choice.discriminator members).bind choice.variant? = none)
include untagged

theorem resolveVariant_untagged (valid : (union choice).Valid) (leads : Leads s choice members cs a sliced)
    (tagged : s.get? ((a.block sliced).member choice.discriminator.name).text =
      (tagOf choice.discriminator members).map .string) :
    resolveVariant s.source choice.discriminator.name (variantReaders s.source choice) sliced cs = .ok none := by
  obtain ⟨-, usable, tags, -, -⟩ := valid_union_iff.1 valid
  refine resolveVariant_of_skips usable fun c mem => ?_
  by_cases here : c.address = a
  · intro x there
    rw [here, tagged] at there
    obtain ⟨tag, is_tag, rfl⟩ := Option.map_eq_some_iff.1 there
    rw [is_tag, Option.bind_some] at untagged
    refine ⟨tag, rfl, (selected_eq_none_or s.source tags c.only tag).resolve_right ?_⟩
    rintro ⟨w, also, -⟩
    rw [untagged] at also
    cases also
  · exact leads.skips mem here

theorem resolveBase_untagged (valid : (union choice).Valid) (leads : Leads s choice members cs a sliced)
    (opened : (sliced || a.isRoot) = false → s.get? a.countKey = some (.int 1))
    (read : Address → Resolved (List (String × Json))) :
    resolveBase s.source choice.discriminator.name read sliced ((cs.filter (·.only.isNone)).map Candidate.address) =
      some <$> read (a.block sliced) := by
  obtain ⟨-, usable, -⟩ := valid_union_iff.1 valid
  obtain ⟨lead, lead_mem, lead_here, lead_only⟩ := leads.leads
  have shared : a ∈ (cs.filter (·.only.isNone)).map Candidate.address := by
    have whole : lead.only = none := by
      cases only : lead.only with
      | none => rfl
      | some i =>
        obtain ⟨tag, w, is_tag, also, -⟩ := lead_only i only
        rw [is_tag, Option.bind_some, also] at untagged
        cases untagged
    exact List.mem_map.2 ⟨lead, List.mem_filter.2 ⟨lead_mem, by simp [whole]⟩, lead_here⟩
  have each : ∀ b ∈ (cs.filter (·.only.isNone)).map Candidate.address,
      b = a ∨ basePresent s.source choice.discriminator.name b sliced = .ok false := by
    intro b mem
    obtain ⟨c, held, rfl⟩ := List.mem_map.1 mem
    refine (leads.others c (List.mem_filter.1 held).1).imp_right ?_
    rintro ⟨rfl, below, absent⟩
    exact basePresent_of_nothing usable below absent
  exact resolveBase_of_present (basePresent_of_opened opened) shared each

end

/-- A union is read at the candidate that leads to it, in the shape that its members select. -/
theorem resolveChoice_leads (valid : (union choice).Valid) (leads : Leads s choice members cs a sliced)
    (tagged : s.get? ((a.block sliced).member choice.discriminator.name).text =
      (tagOf choice.discriminator members).map .string)
    (opened : (sliced || a.isRoot) = false → s.get? a.countKey = some (.int 1)) :
    resolveChoice s.source choice sliced cs = (fun found => some (.object (membersOf found))) <$>
      resolveFields s.source (a.block sliced) (choice.shapeOf members).fields := by
  rw [resolveChoice, resolveUnion]
  cases variant : (tagOf choice.discriminator members).bind choice.variant? with
  | some v =>
    obtain ⟨tag, is_tag, found⟩ := Option.bind_eq_some_iff.1 variant
    have stored : s.get? ((a.block sliced).member choice.discriminator.name).text = some (.string tag) := by
      rw [tagged, is_tag, Option.map_some]
    have shape : choice.shapeOf members = v.shape := by
      rw [TaggedUnion.shapeOf, variant]
      rfl
    rw [resolveVariant_leads valid leads stored is_tag found, shape]
    change ((some <$> resolveFields s.source (a.block sliced) v.shape.fields) >>= _) = _
    cases resolveFields s.source (a.block sliced) v.shape.fields <;> rfl
  | none =>
    have shape : choice.shapeOf members = choice.base := by
      rw [TaggedUnion.shapeOf, variant]
      rfl
    rw [resolveVariant_untagged variant valid leads tagged, ok_bind, shape]
    dsimp only
    rw [resolveBase_untagged variant valid leads opened]
    change ((some <$> resolveFields s.source (a.block sliced) choice.base.fields) >>= _) = _
    cases resolveFields s.source (a.block sliced) choice.base.fields <;> rfl

/-! ### Fields -/

/-- Nothing is found of a field where nothing stands at any of its candidates. -/
theorem resolveAt_nothing (valid : schema.Valid)
    (each : ∀ c ∈ cs, c.address.isRoot = false ∧ s.Holds c.address []) : resolveAt s.source schema cs = .ok none := by
  by_cases union : ∃ choice, schema = .union choice
  · obtain ⟨choice, rfl⟩ := union
    obtain ⟨-, usable, -⟩ := valid_union_iff.1 valid
    rw [resolveAt_union, resolveChoice, resolveUnion,
      resolveVariant_of_skips usable fun c mem => skips_of_nothing (each c mem).2, ok_bind]
    dsimp only
    rw [resolveBase_of_absent]
    · rfl
    · intro b mem
      obtain ⟨c, held, rfl⟩ := List.mem_map.1 mem
      obtain ⟨below, absent⟩ := each c (List.mem_filter.1 held).1
      exact basePresent_of_nothing usable below absent
  · have other := not_exists.1 union
    rw [resolveAt_first other]
    exact resolveFirst_nothing fun c mem => resolve_nothing (each c mem).1 (each c mem).2 other

/-- The candidates of a field: under its name, under the segments of its variants and under its former names. -/
def candidatesOf (f : Field Schema) (base : Address) : List Candidate :=
  ⟨base.member f.name, none⟩ :: (f.schema.variantSegments.map fun (i, segment) => ⟨base.member segment, some i⟩) ++
    f.aliases.map fun name => ⟨base.member name, none⟩

theorem mem_candidatesOf {f : Field Schema} {c : Candidate} (mem : c ∈ candidatesOf f base) :
    ∃ name ∈ f.candidateNames, c.address = base.member name := by
  rcases List.mem_append.1 mem with own | former
  · rcases List.mem_cons.1 own with rfl | owned
    · exact ⟨f.name, name_mem_candidateNames f, rfl⟩
    · obtain ⟨⟨i, segment⟩, held, rfl⟩ := List.mem_map.1 owned
      exact ⟨segment, segment_mem_candidateNames held, rfl⟩
  · obtain ⟨name, held, rfl⟩ := List.mem_map.1 former
    exact ⟨name, alias_mem_candidateNames held, rfl⟩

theorem candidates_eq {f : Field Schema} (usable : ∀ name ∈ f.candidateNames, isFieldName name = true) :
    f.schema.candidates f.name f.aliases base = .ok (candidatesOf f base) := by
  have named := usable f.name (name_mem_candidateNames f)
  have owned : (f.schema.variantSegments.mapM fun (i, segment) => do
      return ⟨← (base.member f.name).replaceLast segment, some i⟩) = Except.ok
        (f.schema.variantSegments.map fun (i, segment) => (⟨base.member segment, some i⟩ : Candidate)) := by
    refine mapM_eq_ok fun ⟨i, segment⟩ mem => ?_
    dsimp only
    rw [Address.replaceLast_eq named (usable segment (segment_mem_candidateNames mem))]
    rfl
  have former : (f.aliases.mapM fun name => do return ⟨← (base.member f.name).replaceLast name, none⟩) =
      Except.ok (f.aliases.map fun name => (⟨base.member name, none⟩ : Candidate)) := by
    refine mapM_eq_ok fun name mem => ?_
    rw [Address.replaceLast_eq named (usable name (alias_mem_candidateNames mem))]
    rfl
  rw [candidates, Address.append_eq named, ok_bind, owned, ok_bind, former]
  rfl

end Schema
end FlatStore
