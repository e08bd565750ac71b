import FlatStore.Proofs.Failure
import FlatStore.Proofs.Outcome

/-!
Reads that fail. A reader fails with its own error or with that of the first of its parts that fails, and asks for none
of the parts behind it (`Schema.resolveItems_eq_error_iff` and the others). Reading visits a part if all that comes
before the part is read (`Schema.Visits`), so that whatever fails where it is visited fails as a whole
(`Schema.Visits.fails`).
-/
namespace FlatStore

/-- Whether an error is that of a count which the entries of a store cannot back. -/
def ResolveError.Unbacked (e : ResolveError) : Prop := ∃ path n entries, e = .store (.unbackedCount path n entries)

theorem mapM_eq_error_iff {ε α β : Type} {f : α → Except ε β} {items : List α} {e : ε} :
    items.mapM f = .error e ↔ ∃ before item after, items = before ++ item :: after ∧
      (∀ earlier ∈ before, ∃ result, f earlier = .ok result) ∧ f item = .error e := by
  induction items with
  | nil => simp [pure, Except.pure]
  | cons first rest ih =>
    rw [List.mapM_cons, bind_eq_error_iff]
    constructor
    · rintro (failed | ⟨result, read, failed⟩)
      · exact ⟨[], first, rest, rfl, by simp, failed⟩
      · rcases bind_eq_error_iff.1 failed with failed | ⟨others, -, ⟨⟩⟩
        obtain ⟨before, item, after, rfl, each, here⟩ := ih.1 failed
        exact ⟨first :: before, item, after, rfl, List.forall_mem_cons.2 ⟨⟨result, read⟩, each⟩, here⟩
    · rintro ⟨before, item, after, eq, each, here⟩
      cases before with
      | nil =>
        obtain ⟨rfl, rfl⟩ := List.cons.inj eq
        exact .inl here
      | cons head before =>
        obtain ⟨rfl, rfl⟩ := List.cons.inj eq
        obtain ⟨⟨result, read⟩, each⟩ := List.forall_mem_cons.1 each
        exact .inr ⟨result, read, bind_eq_error_iff.2 (.inl (ih.2 ⟨before, item, after, rfl, each, here⟩))⟩

theorem mapM_range_eq_error_iff {ε β : Type} {f : Nat → Except ε β} {n : Nat} {e : ε} :
    (List.range n).mapM f = .error e ↔
      ∃ i < n, (∀ j < i, ∃ result, f j = .ok result) ∧ f i = .error e := by
  rw [mapM_eq_error_iff]
  simp only [List.range_eq_range', List.range'_eq_append_iff]
  constructor
  · rintro ⟨before, i, after, ⟨k, within, rfl, rest⟩, each, here⟩
    obtain ⟨rfl, some_left, -⟩ := List.range'_eq_cons_iff.1 rest.symm
    rw [Nat.mul_one, Nat.zero_add] at here
    refine ⟨k, by omega, fun j earlier => each j ?_, here⟩
    simpa using earlier
  · rintro ⟨i, bound, each, here⟩
    refine ⟨List.range' 0 i, i, List.range' (i + 1) (n - i - 1), ⟨i, by omega, rfl, ?_⟩, ?_, here⟩
    · exact (List.range'_eq_cons_iff.2 ⟨by omega, by omega, by simp⟩).symm
    · intro j earlier
      exact each j (by simpa using earlier)

namespace Schema

variable {s : Store} {source : Source} {schema inner : Schema} {choice : TaggedUnion Schema} {a b base : Address}
  {cs : List Candidate} {sliced own : Bool} {e : ResolveError}

/-! ### Candidates -/

/-- Whether a candidate gets its turn: nothing is found at any of those before. -/
structure Tried (source : Source) (schema : Schema) (cs : List Candidate) (sliced : Bool) (c : Candidate) : Prop where
  other : ∀ choice, schema ≠ .union choice
  turn : ∃ before after, cs = before ++ c :: after ∧
    ∀ earlier ∈ before, schema.resolve source earlier.address sliced = .ok none

theorem tried_single (other : ∀ choice, schema ≠ .union choice) (c : Candidate) : Tried source schema [c] sliced c :=
  ⟨other, [], [], rfl, by simp⟩

/-- Candidates are read up to the first where something is found or that fails. -/
theorem resolveFirst_eq_iff {read : Address → Resolved (Option Json)} {outcome : Resolved (Option Json)}
    (something : outcome ≠ .ok none) : resolveFirst read cs = outcome ↔ ∃ before c after, cs = before ++ c :: after ∧
      (∀ earlier ∈ before, read earlier.address = .ok none) ∧ read c.address = outcome := by
  induction cs with
  | nil => simpa [resolveFirst, pure, Except.pure, eq_comm] using something
  | cons first rest ih =>
    have turn : read first.address ≠ .ok none → resolveFirst read (first :: rest) = read first.address := by
      rw [resolveFirst]
      intro there
      generalize read first.address = found at there ⊢
      rcases found with error | _ | value
      · rfl
      · exact absurd rfl there
      · rfl
    constructor
    · intro whole
      by_cases nothing : read first.address = .ok none
      · rw [resolveFirst, nothing] at whole
        obtain ⟨before, c, after, rfl, each, here⟩ := ih.1 whole
        exact ⟨first :: before, c, after, rfl, List.forall_mem_cons.2 ⟨nothing, each⟩, here⟩
      · exact ⟨[], first, rest, rfl, by simp, (turn nothing).symm.trans whole⟩
    · rintro ⟨before, c, after, eq, each, here⟩
      cases before with
      | nil =>
        obtain ⟨rfl, rfl⟩ := List.cons.inj eq
        rw [turn (by rwa [here]), here]
      | cons head before =>
        obtain ⟨rfl, rfl⟩ := List.cons.inj eq
        obtain ⟨nothing, each⟩ := List.forall_mem_cons.1 each
        rw [resolveFirst, nothing]
        exact ih.2 ⟨before, c, after, rfl, each, here⟩

theorem readAt_eq_iff_tried (other : ∀ choice, schema ≠ .union choice) {outcome : Resolved (Option Json)}
    (something : outcome ≠ .ok none) : schema.readAt source cs sliced = outcome ↔
      ∃ c, Tried source schema cs sliced c ∧ schema.resolve source c.address sliced = outcome := by
  rw [readAt_first other, resolveFirst_eq_iff something]
  constructor
  · rintro ⟨before, c, after, split, each, here⟩
    exact ⟨c, ⟨other, before, after, split, each⟩, here⟩
  · rintro ⟨c, ⟨-, before, after, split, each⟩, here⟩
    exact ⟨before, c, after, split, each, here⟩

/-! ### Collections -/

variable {element : Address → Resolved Json}

/-- A list or a set fails with its count, with a count that is too large, or with the first element that fails. -/
theorem resolveItems_eq_error_iff {maxItems : Option UInt64} {wrapper : Option String} :
    resolveItems source element maxItems wrapper a = .error e ↔ storedCount source a = .error e ∨
      ∃ n, storedCount source a = .ok (some n) ∧
        ((∃ max ∈ maxItems, max.toNat < n ∧ e = .tooManyItems a.text n max.toNat) ∨
          (∀ max ∈ maxItems, n ≤ max.toNat) ∧
            ∃ i < n, (∀ j < i, ∃ item, element (a.index j) = .ok item) ∧ element (a.index i) = .error e) := by
  cases counted : storedCount source a with
  | error error =>
    rw [resolveItems, counted]
    simp [bind, Except.bind]
  | ok count =>
    cases count with
    | none =>
      rw [resolveItems, counted, ok_bind]
      simp [pure, Except.pure]
    | some n =>
      by_cases within : ∀ max ∈ maxItems, n ≤ max.toNat
      · have few : ¬ ∃ max ∈ maxItems, max.toNat < n ∧ e = .tooManyItems a.text n max.toNat := by
          rintro ⟨max, bound, exceeded, -⟩
          exact absurd (within max bound) (Nat.not_le.2 exceeded)
        rw [resolveItems_of_count counted within, map_eq_error_iff, mapM_range_eq_error_iff]
        simp only [reduceCtorEq, false_or, Except.ok.injEq, Option.some.injEq, exists_eq_left', few]
        exact (and_iff_right within).symm
      · obtain ⟨max, rfl, exceeded⟩ : ∃ max, maxItems = some max ∧ max.toNat < n := by simpa using within
        rw [resolveItems, counted, ok_bind]
        simp only [exceeded, if_true]
        simp [exceeded, throw, throwThe, MonadExceptOf.throw, bind, Except.bind, eq_comm]

theorem resolveEntry_of_key {entry : Address} {key : String}
    (keyed : stored source (entry.member mapKeyField) = .ok (some (.string key))) :
    resolveEntry source element entry = (key, ·) <$> element entry := by
  rw [resolveEntry, Address.field_eq_member, show mapKeyName.text = mapKeyField from rfl, keyed, ok_bind]
  cases element entry <;> rfl

theorem resolveEntry_eq_error_iff {entry : Address} : resolveEntry source element entry = .error e ↔
    stored source (entry.member mapKeyField) = .error e ∨
      ∃ found, stored source (entry.member mapKeyField) = .ok found ∧
        ((∀ key, found ≠ some (.string key)) ∧ e = .missingMapKey entry.text ∨
          ∃ key, found = some (.string key) ∧ element entry = .error e) := by
  rw [resolveEntry, Address.field_eq_member, show mapKeyName.text = mapKeyField from rfl, bind_eq_error_iff]
  refine or_congr_right (exists_congr fun found => and_congr_right fun _ => ?_)
  split
  · next key => simp [bind_eq_error_iff, pure, Except.pure]
  · next other =>
    have missing : ∀ key, found ≠ some (.string key) := fun key there => other key there
    simp [missing, throw, throwThe, MonadExceptOf.throw, eq_comm]

theorem resolveEntries_eq_error_iff : resolveEntries source element a = .error e ↔ storedCount source a = .error e ∨
    ∃ n, storedCount source a = .ok (some n) ∧ ∃ i < n,
      (∀ j < i, ∃ member, resolveEntry source element (a.index j) = .ok member) ∧
        resolveEntry source element (a.index i) = .error e := by
  cases counted : storedCount source a with
  | error error =>
    rw [resolveEntries, counted]
    simp [bind, Except.bind]
  | ok count =>
    cases count with
    | none =>
      rw [resolveEntries, counted, ok_bind]
      simp [pure, Except.pure]
    | some n =>
      rw [resolveEntries_of_count counted, bind_eq_error_iff, mapM_range_eq_error_iff]
      simp [pure, Except.pure]

/-! ### Blocks -/

theorem resolveFields_eq_error_iff {fields : List (Field Schema)} : resolveFields source base fields = .error e ↔
    ∃ before f after, fields = before ++ f :: after ∧
      (∀ earlier ∈ before, ∃ found, resolveField source base earlier = .ok found) ∧
        resolveField source base f = .error e := by
  have steps : resolveFields source base fields = .error e ↔ fields.mapM (resolveField source base) = .error e := by
    induction fields with
    | nil => simp [resolveFields_nil, pure, Except.pure]
    | cons f rest ih => simp [resolveFields_cons, bind_eq_error_iff, ih, pure, Except.pure]
  rw [steps, mapM_eq_error_iff]

/-- A union fails where its shape cannot be chosen, or with the fields of its shape. -/
theorem resolveChoice_eq_error_iff : resolveChoice source choice sliced cs = .error e ↔
    chosen source choice sliced cs = .error e ∨ ∃ base variant,
      chosen source choice sliced cs = .ok (some (base, variant)) ∧
        resolveFields source base (choice.shapeAs variant).fields = .error e := by
  rw [resolveChoice_eq_chosen, bind_eq_error_iff]
  refine or_congr_right ⟨?_, ?_⟩
  · rintro ⟨_ | ⟨base, variant⟩, chose, failed⟩
    · cases failed
    · rcases bind_eq_error_iff.1 failed with failed | ⟨members, -, ⟨⟩⟩
      exact ⟨base, variant, chose, failed⟩
  · rintro ⟨base, variant, chose, failed⟩
    exact ⟨some (base, variant), chose, bind_eq_error_iff.2 (.inl failed)⟩

/-! ### Visits -/

/-- Whether reading a schema at candidates comes to read another at an address. A candidate is read when it gets its
turn. What is read there is made of elements, entries or fields, and one of these is read once all before it are. -/
inductive Visits (source : Source) : Schema → List Candidate → Bool → Schema → Address → Bool → Prop
  | here {schema cs sliced c} : Tried source schema cs sliced c → Visits source schema cs sliced schema c.address sliced
  | item {schema cs sliced c col n i inner b own} : schema.collection? = some col → Tried source schema cs sliced c →
    storedCount source c.address = .ok (some n) → (∀ max ∈ col.maxItems, n ≤ max.toNat) → i < n →
    (∀ j < i, ∃ found, col.element.resolve source (c.address.index j) true = .ok found) →
    Visits source col.element [⟨c.address.index i, none⟩] true inner b own → Visits source schema cs sliced inner b own
  | entry {element cs sliced c n i key inner b own} : Tried source (.map element) cs sliced c →
    storedCount source c.address = .ok (some n) → i < n →
    (∀ j < i, (∃ key, stored source ((c.address.index j).member mapKeyField) = .ok (some (.string key))) ∧
      ∃ found, element.resolve source (element.entryAddress (c.address.index j)) element.isBlock = .ok found) →
    stored source ((c.address.index i).member mapKeyField) = .ok (some (.string key)) →
    Visits source element [⟨element.entryAddress (c.address.index i), none⟩] element.isBlock inner b own →
    Visits source (.map element) cs sliced inner b own
  | field {shape cs sliced c before f after inner b own} : Tried source (.object shape) cs sliced c →
    present source c.address sliced = .ok true → shape.fields = before ++ f :: after →
    (∀ earlier ∈ before, ∃ found, resolveField source (c.address.block sliced) earlier = .ok found) →
    Visits source f.schema (candidatesOf f (c.address.block sliced)) false inner b own →
    Visits source (.object shape) cs sliced inner b own
  | chosen {choice cs sliced base variant before f after inner b own} :
    chosen source choice sliced cs = .ok (some (base, variant)) →
    (choice.shapeAs variant).fields = before ++ f :: after →
    (∀ earlier ∈ before, ∃ found, resolveField source base earlier = .ok found) →
    Visits source f.schema (candidatesOf f base) false inner b own → Visits source (.union choice) cs sliced inner b own

theorem Tried.fails {c : Candidate} (tried : Tried source schema cs sliced c)
    (failed : schema.resolve source c.address sliced = .error e) : schema.readAt source cs sliced = .error e :=
  (readAt_eq_iff_tried tried.other (by simp)).2 ⟨c, tried, failed⟩

theorem resolveFields_fails_iff {shape : Shape Schema} (sound : SoundShape shape) :
    resolveFields source base shape.fields = .error e ↔ ∃ before f after, shape.fields = before ++ f :: after ∧
      (∀ earlier ∈ before, ∃ found, resolveField source base earlier = .ok found) ∧
        f.schema.readAt source (candidatesOf f base) false = .error e := by
  rw [resolveFields_eq_error_iff]
  refine exists_congr fun before => exists_congr fun f => exists_congr fun after => and_congr_right fun split => ?_
  have mem : f ∈ shape.fields := split ▸ List.mem_append_right _ List.mem_cons_self
  rw [readAt_false, resolveField_eq (sound.candidate_usable mem)]

/-- What fails where it is visited makes the whole fail in the same way. -/
theorem Visits.fails (visits : Visits s.source schema cs sliced inner b own) (valid : schema.Valid)
    (failed : inner.resolve s.source b own = .error e) : schema.readAt s.source cs sliced = .error e := by
  -- from the visited address outwards: each whole has read all before the part that fails, and hands its error on
  induction visits with
  | here tried => exact tried.fails failed
  | item form tried counted within bound each _ ih =>
    have part := ih (valid.element form).2 failed
    rw [readAt_single] at part
    refine tried.fails ?_
    rw [resolve_items form, resolveItems_eq_error_iff]
    refine .inr ⟨_, counted, .inr ⟨within, _, bound, fun j earlier => ?_, map_eq_error_iff.2 part⟩⟩
    obtain ⟨found, read⟩ := each j earlier
    exact ⟨_, map_eq_ok_iff.2 ⟨found, read, rfl⟩⟩
  | entry tried counted bound each keyed _ ih =>
    have part := ih (valid_map_iff.1 valid).2.2 failed
    rw [readAt_single] at part
    refine tried.fails ?_
    rw [resolve_map, resolveEntries_eq_error_iff]
    refine .inr ⟨_, counted, _, bound, fun j earlier => ?_, ?_⟩
    · obtain ⟨⟨key, keyed⟩, found, read⟩ := each j earlier
      rw [resolveEntry_of_key keyed]
      exact ⟨_, map_eq_ok_iff.2 ⟨_, map_eq_ok_iff.2 ⟨found, read, rfl⟩, rfl⟩⟩
    · rw [resolveEntry_of_key keyed]
      exact map_eq_error_iff.2 (map_eq_error_iff.2 part)
  | field tried there split each _ ih =>
    have sound := valid_object_iff.1 valid
    have part := ih (sound.field_valid _ (split ▸ List.mem_append_right _ List.mem_cons_self)) failed
    refine tried.fails ?_
    rw [resolve_object, there, ok_bind, if_pos rfl, bind_eq_error_iff]
    exact .inl ((resolveFields_fails_iff sound).2 ⟨_, _, _, split, each, part⟩)
  | chosen chose split each _ ih =>
    obtain ⟨-, usable, tags, -, shapes⟩ := valid_union_iff.1 valid
    have sound := shapes _ (chosen_mem_shapes usable tags chose)
    have part := ih (sound.field_valid _ (split ▸ List.mem_append_right _ List.mem_cons_self)) failed
    have fields := (resolveFields_fails_iff sound).2 ⟨_, _, _, split, each, part⟩
    exact resolveChoice_eq_error_iff.2 (.inr ⟨_, _, chose, fields⟩)

/-! ### Counts that a store cannot back -/

theorem resolveScalar_failsBy_backed {kind : ScalarKind} :
    FailsBy (¬ ·.Unbacked) (resolveScalar s.source kind a) := by
  rw [resolveScalar, Store.stored_source, ok_bind]
  split
  · exact .pure _
  · split
    · exact .pure _
    · exact .error (by simp [ResolveError.Unbacked, unexpected])

theorem count_failsBy : FailsBy (¬ ·.Unbacked) ((s.source.count a).mapError ResolveError.store) := by
  change FailsBy _ ((countOf a (s.get? a.countKey)).mapError ResolveError.store)
  unfold countOf
  split
  · exact .ok _
  · split
    · exact .ok _
    · exact .error (by simp [ResolveError.Unbacked])
  · exact .error (by simp [ResolveError.Unbacked])

/-- Only the counts of collections have to be backed, not those of blocks. -/
theorem present_failsBy_backed : FailsBy (¬ ·.Unbacked) (present s.source a sliced) := by
  unfold present
  split
  · exact .pure _
  · refine count_failsBy.bind fun count _ => ?_
    split <;> exact .pure _

theorem chosenVariant_failsBy (usable : isFieldName choice.discriminator.name = true) :
    FailsBy (¬ ·.Unbacked) (chosenVariant s.source choice sliced cs) := by
  induction cs with
  | nil => exact .pure _
  | cons c rest ih =>
    rw [chosenVariant_cons usable]
    split
    · exact ih
    · split
      · exact .ok _
      · exact ih
    · exact .error (by simp [ResolveError.Unbacked, unexpected])

theorem chosenBase_failsBy (usable : isFieldName choice.discriminator.name = true) (addresses : List Address) :
    FailsBy (¬ ·.Unbacked) (chosenBase s.source choice sliced addresses) := by
  induction addresses with
  | nil => exact .pure _
  | cons a rest ih =>
    have there : FailsBy (¬ ·.Unbacked) (basePresent s.source choice.discriminator.name a sliced) := by
      refine present_failsBy_backed.bind fun found _ => ?_
      split
      · exact .pure _
      · rw [Address.append_eq usable, mapError_ok, ok_bind, Store.stored_source]
        exact .pure _
    refine there.bind fun found _ => ?_
    split
    · exact .pure _
    · exact ih

theorem chosen_failsBy (usable : isFieldName choice.discriminator.name = true) :
    FailsBy (¬ ·.Unbacked) (chosen s.source choice sliced cs) := by
  refine (chosenVariant_failsBy usable).bind fun found _ => ?_
  cases found with
  | some found => exact .pure _
  | none => exact (chosenBase_failsBy usable _).bind fun found _ => .pure _

/-- A collection fails with its count, of which nothing but the count and the number of entries is read. -/
theorem resolve_of_storedCount (collection : schema.isCollection = true) (failed : storedCount source b = .error e) :
    schema.resolve source b own = .error e := by
  cases schema with
  | list items | set items =>
    rw [resolve_items rfl]
    exact resolveItems_eq_error_iff.2 (.inl failed)
  | map element =>
    rw [resolve_map]
    exact resolveEntries_eq_error_iff.2 (.inl failed)
  | scalar | object | union => cases collection

theorem storedCount_of_exceeding {n entries : Nat} (count : source.count b = .ok (some n))
    (size : source.size? = some entries) (exceeding : entries < n) :
    storedCount source b = .error (.store (.unbackedCount b.text n entries)) := by
  rw [storedCount, Source.backedCount, count, ok_bind, size]
  simp only [exceeding, if_true]
  rfl

theorem storedCount_eq_unbacked_iff {path : String} {n entries : Nat} :
    storedCount s.source a = .error (.store (.unbackedCount path n entries)) ↔ path = a.text ∧ entries = s.size ∧
      s.size < n ∧ ∃ c : Int64, s.get? a.countKey = some (.int c) ∧ c.toInt = n := by
  rw [storedCount, Store.backedCount_source]
  constructor
  · intro failed
    split at failed
    · cases failed
    · next c there =>
      split at failed
      · split at failed
        · cases failed
          exact ⟨rfl, rfl, by assumption, c, there, by omega⟩
        · cases failed
      · cases failed
    · cases failed
  · rintro ⟨rfl, rfl, exceeding, c, there, number⟩
    have sign : 0 ≤ c.toInt := by omega
    have same : c.toInt.toNat = n := by omega
    simp only [there, sign, same, exceeding, if_true]
    rfl

/-- Whether a failure of a schema because of a count visits the collection of that count. -/
def AllVisit (s : Store) (e : ResolveError) (schema : Schema) : Prop :=
  ∀ cs sliced, schema.Valid → schema.readAt s.source cs sliced = .error e → ∃ inner b own,
    Visits s.source schema cs sliced inner b own ∧ inner.isCollection = true ∧ storedCount s.source b = .error e

section
variable (unbacked : e.Unbacked)
include unbacked

private theorem visit_items {col : Collection Schema} (form : schema.collection? = some col)
    (ih : AllVisit s e col.element) : AllVisit s e schema := by
  intro cs sliced valid failed
  obtain ⟨c, tried, here⟩ := (readAt_eq_iff_tried (by rintro choice rfl; cases form) (by simp)).1 failed
  rw [resolve_items form, resolveItems_eq_error_iff] at here
  rcases here with counted | ⟨n, counted, ⟨max, -, -, rfl⟩ | ⟨within, i, bound, each, part⟩⟩
  · exact ⟨schema, c.address, sliced, .here tried, isCollection_of_collection? form, counted⟩
  · obtain ⟨_, _, _, ⟨⟩⟩ := unbacked
  · rw [map_eq_error_iff, ← readAt_single] at part
    obtain ⟨inner, b, own, visits, counted_there⟩ := ih _ _ (valid.element form).2 part
    refine ⟨inner, b, own, .item form tried counted within bound (fun j earlier => ?_) visits, counted_there⟩
    obtain ⟨item, read⟩ := each j earlier
    obtain ⟨found, there, -⟩ := map_eq_ok_iff.1 read
    exact ⟨found, there⟩

private theorem visit_map {element : Schema} (ih : AllVisit s e element) : AllVisit s e (.map element) := by
  intro cs sliced valid failed
  obtain ⟨c, tried, here⟩ := (readAt_eq_iff_tried (by simp) (by simp)).1 failed
  rw [resolve_map, resolveEntries_eq_error_iff] at here
  rcases here with counted | ⟨n, counted, i, bound, each, part⟩
  · exact ⟨map element, c.address, sliced, .here tried, rfl, counted⟩
  rcases resolveEntry_eq_error_iff.1 part with unread | ⟨found, keyed, ⟨-, rfl⟩ | ⟨key, rfl, part⟩⟩
  · cases unread
  · obtain ⟨_, _, _, ⟨⟩⟩ := unbacked
  · rw [map_eq_error_iff, ← readAt_single] at part
    obtain ⟨inner, b, own, visits, counted_there⟩ := ih _ _ (valid_map_iff.1 valid).2.2 part
    refine ⟨inner, b, own, .entry tried counted bound (fun j earlier => ?_) keyed visits, counted_there⟩
    obtain ⟨member, read⟩ := each j earlier
    obtain ⟨key_stored, value⟩ := resolveEntry_eq_ok_iff.1 read
    obtain ⟨found, there, -⟩ := map_eq_ok_iff.1 value
    exact ⟨⟨member.1, congrArg Except.ok key_stored⟩, found, there⟩

private theorem visit_object (shape : Shape Schema) (ih : ∀ f ∈ shape.fields, AllVisit s e f.schema) :
    AllVisit s e (.object shape) := by
  intro cs sliced valid failed
  obtain ⟨c, tried, here⟩ := (readAt_eq_iff_tried (by simp) (by simp)).1 failed
  rw [resolve_object, bind_eq_error_iff] at here
  rcases here with absent | ⟨there, opened, here⟩
  · exact absurd unbacked (present_failsBy_backed e absent)
  cases there with
  | false => cases here
  | true =>
    rcases bind_eq_error_iff.1 here with fields | ⟨members, -, done⟩
    · have sound := valid_object_iff.1 valid
      obtain ⟨before, f, after, split, each, part⟩ := (resolveFields_fails_iff sound).1 fields
      have mem : f ∈ shape.fields := split ▸ List.mem_append_right _ List.mem_cons_self
      obtain ⟨inner, b, own, visits, counted⟩ := ih f mem _ _ (sound.field_valid f mem) part
      exact ⟨inner, b, own, .field tried opened split each visits, counted⟩
    · cases done

private theorem visit_union (choice : TaggedUnion Schema)
    (ih : ∀ shape ∈ choice.shapes, ∀ f ∈ shape.fields, AllVisit s e f.schema) : AllVisit s e (.union choice) := by
  intro cs sliced valid failed
  obtain ⟨-, usable, tags, -, sound⟩ := valid_union_iff.1 valid
  rcases resolveChoice_eq_error_iff.1 failed with unchosen | ⟨base, variant, chose, fields⟩
  · exact absurd unbacked (chosen_failsBy usable e unchosen)
  · have own_shape := chosen_mem_shapes usable tags chose
    obtain ⟨before, f, after, split, each, part⟩ := (resolveFields_fails_iff (sound _ own_shape)).1 fields
    have mem : f ∈ (choice.shapeAs variant).fields := split ▸ List.mem_append_right _ List.mem_cons_self
    obtain ⟨inner, b, own, visits, counted⟩ := ih _ own_shape f mem _ _ ((sound _ own_shape).field_valid f mem) part
    exact ⟨inner, b, own, .chosen chose split each visits, counted⟩

theorem allVisit (schema : Schema) : AllVisit s e schema := by
  induction schema using formInduction with
  | scalar kind =>
    intro cs sliced valid failed
    obtain ⟨c, -, here⟩ := (readAt_eq_iff_tried (by simp) (by simp)).1 failed
    exact absurd unbacked (resolveScalar_failsBy_backed e here)
  | items schema col form ih => exact visit_items unbacked form ih
  | map element ih => exact visit_map unbacked ih
  | block schema block ih =>
    cases schema with
    | object shape => exact visit_object unbacked shape (ih shape List.mem_cons_self)
    | union choice => exact visit_union unbacked choice ih
    | scalar | list | set | map => cases block

end

end Schema

end FlatStore
