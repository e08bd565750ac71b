import FlatStore.Proofs.Holding

/-!
Why documents are refused. Every failure in flattening and in resolving has a cause: a value in the wrong form, a
missing one, too many elements, a read of the source that fails, or a name in the schema that is no segment
(`Schema.trace_failsBy`, `Schema.resolve_failsBy`). Of a valid schema no name is at fault, so that neither walk ever
fails to make an address (`Schema.Valid.faultless`).
-/
namespace FlatStore

/-! ### Names in a schema -/

namespace Schema

/-- The names that a schema itself makes segments of: those in the entries of a map, the tag of a union, and the names
under which its fields are written and looked for. -/
def ownNames (schema : Schema) : List String :=
  (match schema with
    | .map _ => [mapKeyField, mapValueField]
    | .union choice => [choice.discriminator.name]
    | _ => []) ++
  schema.shapes.flatMap fun shape => shape.fields.flatMap (·.candidateNames)

variable {schema part inner root : Schema}

theorem candidate_mem_ownNames {shape : Shape Schema} {f : Field Schema} {name : String} (mem : shape ∈ schema.shapes)
    (declared : f ∈ shape.fields) (candidate : name ∈ f.candidateNames) : name ∈ schema.ownNames :=
  List.mem_append_right _ (List.mem_flatMap.2 ⟨shape, mem, List.mem_flatMap.2 ⟨f, declared, candidate⟩⟩)

theorem Inside.step (inside : Inside schema root) (mem : part ∈ schema.children) : Inside part root := by
  induction inside with
  | self => exact .child mem (.self part)
  | child held _ ih => exact .child held ih

theorem Valid.child (valid : schema.Valid) (mem : part ∈ schema.children) : part.Valid := by
  rcases List.mem_append.1 mem with element | mem
  · cases schema with
    | list items =>
      cases Option.mem_toList.1 element
      exact (valid_list_iff.1 valid).2
    | set items =>
      cases Option.mem_toList.1 element
      exact (valid_set_iff.1 valid).2
    | map inner =>
      cases Option.mem_toList.1 element
      exact (valid_map_iff.1 valid).2.2
    | scalar | object | union => cases element
  · obtain ⟨shape, shape_mem, held⟩ := List.mem_flatMap.1 mem
    obtain ⟨f, declared, rfl⟩ := List.mem_map.1 held
    exact (valid.soundShape shape_mem).field_valid f declared

theorem Valid.inside (valid : schema.Valid) (inside : Inside inner schema) : inner.Valid := by
  induction inside with
  | self => exact valid
  | child mem _ ih => exact ih (valid.child mem)

/-- All names in a valid schema are usable. -/
theorem Valid.usable (valid : schema.Valid) (inside : Inside inner schema) :
    ∀ name ∈ inner.ownNames, isFieldName name = true := by
  have own := valid.inside inside
  intro name mem
  rcases List.mem_append.1 mem with reserved | mem
  · cases inner with
    | map element =>
      have each : ∀ name ∈ [mapKeyField, mapValueField], isFieldName name = true := by decide
      exact each name reserved
    | union choice =>
      obtain rfl := List.mem_singleton.1 reserved
      exact (valid_union_iff.1 own).2.1
    | scalar | list | set | object => cases reserved
  · obtain ⟨shape, shape_mem, mem⟩ := List.mem_flatMap.1 mem
    obtain ⟨f, declared, candidate⟩ := List.mem_flatMap.1 mem
    exact (own.soundShape shape_mem).candidate_usable declared name candidate

end Schema

/-! ### Failures of a computation -/

/-- Whether a computation fails only with certain errors. -/
def FailsBy {ε α : Type} (P : ε → Prop) (x : Except ε α) : Prop := ∀ e, x = .error e → P e

namespace FailsBy

variable {ε δ α β : Type} {P Q : ε → Prop} {x : Except ε α}

theorem ok (a : α) : FailsBy P (.ok a : Except ε α) := by
  rintro e ⟨⟩

theorem pure (a : α) : FailsBy P (Pure.pure a : Except ε α) :=
  ok a

theorem error {e : ε} (cause : P e) : FailsBy P (.error e : Except ε α) := by
  rintro e ⟨⟩
  exact cause

theorem imp (fails : FailsBy P x) (weaker : ∀ e, P e → Q e) : FailsBy Q x :=
  fun e failed => weaker e (fails e failed)

theorem mapError {P : δ → Prop} {f : ε → δ} (fails : FailsBy (fun e => P (f e)) x) : FailsBy P (x.mapError f) := by
  cases x with
  | ok a => exact ok a
  | error e => exact error (fails e rfl)

theorem bind {f : α → Except ε β} (first : FailsBy P x) (second : ∀ a, x = .ok a → FailsBy P (f a)) :
    FailsBy P (x >>= f) := by
  cases x with
  | ok a => exact second a rfl
  | error e => exact error (first e rfl)

theorem map {f : α → β} (first : FailsBy P x) : FailsBy P (f <$> x) := by
  rw [map_eq_pure_bind]
  exact first.bind fun a _ => pure _

theorem mapM {f : α → Except ε β} {items : List α} (each : ∀ item ∈ items, FailsBy P (f item)) :
    FailsBy P (items.mapM f) := by
  induction items with
  | nil => exact pure _
  | cons item rest ih =>
    obtain ⟨here, later⟩ := List.forall_mem_cons.1 each
    rw [List.mapM_cons]
    exact here.bind fun first _ => (ih later).bind fun others _ => pure _

end FailsBy

/-! ### Failures to make an address -/

/-- Whether a name is at fault for an address that cannot be made. -/
def AddressFault.Of (name : String) (fault : AddressFault) : Prop :=
  isFieldName name = false ∧ fault = .unusableName name

namespace Address

variable {a base : Address} {name : String}

theorem append_failsBy : FailsBy (AddressFault.Of name) (a.append name) := by
  by_cases usable : isFieldName name = true
  · rw [append_eq usable]
    exact .ok _
  · rw [append, FieldName.of, dif_neg usable]
    exact .error ⟨by simpa using usable, rfl⟩

theorem replaceLast_failsBy (below : a.isRoot = false) : FailsBy (AddressFault.Of name) (a.replaceLast name) := by
  by_cases usable : isFieldName name = true
  · rw [replaceLast, FieldName.of, dif_pos usable, ok_bind, below]
    exact .ok _
  · rw [replaceLast, FieldName.of, dif_neg usable]
    exact .error ⟨by simpa using usable, rfl⟩

end Address

namespace Schema

variable {schema part inner root : Schema} {f : Field Schema} {a base : Address} {sliced : Bool}

/-- A name of a field is at fault where its candidates cannot be made. -/
theorem candidates_failsBy (f : Field Schema) (base : Address) :
    FailsBy (fun fault => ∃ name ∈ f.candidateNames, fault.Of name) (f.schema.candidates f.name f.aliases base) := by
  unfold candidates
  refine (Address.append_failsBy.imp fun _ fault => ⟨_, name_mem_candidateNames f, fault⟩).bind fun primary named => ?_
  obtain ⟨usable, rfl⟩ := Address.append_eq_ok_iff.1 named
  have replaced : ∀ name ∈ f.candidateNames, FailsBy (fun fault => ∃ name ∈ f.candidateNames, fault.Of name)
      ((base.member f.name).replaceLast name) :=
    fun name mem => (Address.replaceLast_failsBy (Address.isRoot_member usable)).imp fun _ fault => ⟨name, mem, fault⟩
  refine (FailsBy.mapM fun owned mem => ?_).bind fun _ _ => (FailsBy.mapM fun former mem => ?_).bind fun _ _ => .pure _
  · exact (replaced owned.2 (segment_mem_candidateNames mem)).bind fun _ _ => .pure _
  · exact (replaced former (alias_mem_candidateNames mem)).bind fun _ _ => .pure _

end Schema

/-! ### Flattening -/

/-- What a failure in flattening comes from: a value in another form than its schema asks for, a required field without
a value, a collection that is too large, or a name. -/
inductive FlattenError.Cause (schema : Schema) : FlattenError → Prop
  | form (a : Address) (expected : String) (found : Json) : Cause schema (.typeMismatch a.text expected found.typeName)
  | missing {inner : Schema} {shape : Shape Schema} {f : Field Schema} (base : Address) :
    Schema.Inside inner schema → shape ∈ inner.shapes → f ∈ shape.fields → f.optional = false →
      Cause schema (.missingRequired (base.member f.name).text)
  | items {inner : Schema} {c : Collection Schema} {max : UInt64} {n : Nat} (a : Address) :
    Schema.Inside inner schema → inner.collection? = some c → c.maxItems = some max → max.toNat < n →
      Cause schema (.tooManyItems a.text n max.toNat)
  | name {inner : Schema} {name : String} {fault : AddressFault} :
    Schema.Inside inner schema → name ∈ inner.ownNames → fault.Of name → Cause schema (.address fault)

/-- Whether a trace fails only with certain errors. -/
def Trace.FailsBy (P : FlattenError → Prop) (trace : Trace) : Prop := ∀ e, trace.failure = some e → P e

namespace Trace.FailsBy

variable {P : FlattenError → Prop} {first second : Trace}

theorem ok (fits : first.failure = none) : first.FailsBy P := by
  intro e failed
  rw [fits] at failed
  cases failed

theorem fail {e : FlattenError} (cause : P e) : (Trace.fail e).FailsBy P := by
  rintro e ⟨⟩
  exact cause

theorem append (here : first.FailsBy P) (later : second.FailsBy P) : (first ++ second).FailsBy P := by
  intro e failed
  cases outcome : first.failure with
  | none =>
    rw [append_of_ok outcome] at failed
    exact later e failed
  | some error =>
    rw [append_def, outcome] at failed
    exact here e failed

theorem indexed {α : Type} {write : Nat → α → Trace} {parts : List α} (each : ∀ i part, (write i part).FailsBy P)
    (i : Nat) : (Trace.indexed write i parts).FailsBy P := by
  induction parts generalizing i with
  | nil => exact ok rfl
  | cons part rest ih => exact (each i part).append (ih (i + 1))

theorem at? {a : Except AddressFault Address} {write : Address → Trace} (made : FlatStore.FailsBy (P ∘ .address) a)
    (written : ∀ b, a = .ok b → (write b).FailsBy P) : (Trace.at? a write).FailsBy P := by
  cases a with
  | ok b => exact written b rfl
  | error fault => exact fail (made fault rfl)

end Trace.FailsBy

namespace Schema

open FlattenError (Cause)

variable {schema inner root : Schema} {f : Field Schema} {a base : Address} {sliced omitComputed : Bool} {value : Json}
  {members : List (String × Json)}

theorem mismatch_failsBy (expected : String) : (mismatch a expected value).FailsBy (Cause root) :=
  .fail (.form a expected value)

private theorem traceItems_failsBy {c : Collection Schema} (inside : Inside schema root)
    (form : schema.collection? = some c) {element : Json → Address → Trace}
    (each : ∀ item b, (element item b).FailsBy (Cause root)) (items : List Json) :
    (traceItems element c.maxItems c.wrapper a items).FailsBy (Cause root) := by
  have written : (traceItems.write element c.wrapper a items).FailsBy (Cause root) := by
    refine .append (.ok rfl) (.indexed (fun i item => ?_) 0)
    unfold traceItems.unwrap
    split
    · exact each _ _
    · exact each _ _
    · exact mismatch_failsBy _
  unfold traceItems
  cases bound : c.maxItems with
  | none => exact written
  | some max =>
    by_cases exceeded : max.toNat < items.length
    · simp only [exceeded, if_true]
      exact .fail (.items a inside form bound exceeded)
    · simp only [exceeded, if_false]
      exact written

/-- The segment of a variant is one of the candidate names of its field. -/
theorem segmentOf_mem_candidateNames {segment : String} (moved : f.schema.segmentOf value = some segment) :
    segment ∈ f.candidateNames := by
  have candidate := place_mem_candidateNames f value
  rwa [Field.place, moved, Option.getD_some] at candidate

private theorem traceField_failsBy {shape : Shape Schema} (inside : Inside schema root) (mem : shape ∈ schema.shapes)
    (declared : f ∈ shape.fields)
    (each : ∀ value b, (f.schema.trace omitComputed value b false).FailsBy (Cause root)) :
    (traceField omitComputed members base f).FailsBy (Cause root) := by
  have named : ∀ name ∈ f.candidateNames, ∀ fault : AddressFault, fault.Of name → Cause root (.address fault) :=
    fun name candidate fault blame => .name inside (candidate_mem_ownNames mem declared candidate) blame
  unfold traceField
  by_cases computed : (f.computed && omitComputed) = true
  · rw [if_pos computed]
    exact .ok rfl
  rw [if_neg computed]
  refine .at? (Address.append_failsBy.imp (named _ (name_mem_candidateNames f))) fun b made => ?_
  obtain ⟨usable, rfl⟩ := Address.append_eq_ok_iff.1 made
  cases f.value? members with
  | none =>
    cases optional : f.optional with
    | true => exact .ok rfl
    | false => exact .fail (.missing base inside mem declared optional)
  | some value =>
    dsimp only
    cases moved : f.schema.segmentOf value with
    | none => exact each value _
    | some segment =>
      have replaced : FailsBy (AddressFault.Of segment) ((base.member f.name).replaceLast segment) :=
        Address.replaceLast_failsBy (Address.isRoot_member usable)
      exact .at? (replaced.imp (named segment (segmentOf_mem_candidateNames moved))) fun b _ => each value b

private theorem traceFields_failsBy {shape : Shape Schema} (inside : Inside schema root) (mem : shape ∈ schema.shapes)
    (each : ∀ f ∈ shape.fields, ∀ value b, (f.schema.trace omitComputed value b false).FailsBy (Cause root))
    {fields : List (Field Schema)} (subset : fields ⊆ shape.fields) :
    (traceFields omitComputed members base fields).FailsBy (Cause root) := by
  induction fields with
  | nil => exact .ok rfl
  | cons f rest ih =>
    have declared := subset List.mem_cons_self
    rw [traceFields_cons]
    exact (traceField_failsBy inside mem declared (each f declared)).append (ih (List.subset_of_cons_subset subset))

/-- Null writes nothing and never fails. -/
private theorem trace_failsBy_of_nonnull {P : FlattenError → Prop}
    (other : value ≠ .null → (schema.trace omitComputed value a sliced).FailsBy P) :
    (schema.trace omitComputed value a sliced).FailsBy P := by
  by_cases null : value = .null
  · rw [null, trace_null]
    exact .ok rfl
  · exact other null

/-- A document fails to be flattened for a cause in it or in its schema. -/
theorem trace_failsBy (inside : Inside schema root) (value : Json) (a : Address) (sliced : Bool) :
    (schema.trace omitComputed value a sliced).FailsBy (Cause root) := by
  induction schema using formInduction generalizing value a sliced with
  | scalar kind =>
    refine trace_failsBy_of_nonnull fun nonnull => ?_
    cases read : Scalar.ofJsonAs? kind value with
    | some leaf =>
      rw [trace_scalar read]
      exact .ok rfl
    | none =>
      rw [trace_not_scalar nonnull read]
      exact mismatch_failsBy _
  | items schema c form ih =>
    refine trace_failsBy_of_nonnull fun nonnull => ?_
    by_cases array : ∃ given, value = .array given
    · obtain ⟨given, rfl⟩ := array
      rw [trace_items form]
      exact traceItems_failsBy inside form (fun item b => ih (inside.step (items_mem_children form)) item b true) _
    · rw [trace_not_array form nonnull (not_exists.1 array)]
      exact mismatch_failsBy _
  | map element ih =>
    refine trace_failsBy_of_nonnull fun nonnull => ?_
    by_cases object : ∃ members, value = .object members
    · obtain ⟨members, rfl⟩ := object
      have below := inside.step (entry_mem_children element)
      rw [trace_map]
      refine .append (.ok rfl) (.indexed (fun i member => .append (.ok rfl) ?_) 0)
      dsimp only
      split
      · exact ih below _ _ _
      · exact ih below _ _ _
    · rw [trace_not_object (.inr ⟨element, rfl⟩) nonnull (not_exists.1 object)]
      exact mismatch_failsBy _
  | block schema block ih =>
    refine trace_failsBy_of_nonnull fun nonnull => ?_
    by_cases object : ∃ members, value = .object members
    · obtain ⟨members, rfl⟩ := object
      have mem := shapeFor_mem_shapes block members
      have opened : (Trace.openBlock a sliced).failure = none := by
        unfold Trace.openBlock
        split <;> rfl
      rw [trace_block block]
      refine .append (.ok opened) (traceFields_failsBy inside mem (fun f declared value b => ?_) (List.Subset.refl _))
      exact ih _ mem f declared (inside.step (field_mem_children mem declared)) value b false
    · rw [trace_not_object (.inl block) nonnull (not_exists.1 object)]
      exact mismatch_failsBy _

end Schema

/-! ### Resolving -/

/-- What a failure in resolving comes from: a read of the source that fails, a scalar of another kind than its schema
asks for, an entry of a map without a key, a collection that is too large, or a name. -/
inductive ResolveError.Cause (source : Source) (schema : Schema) : ResolveError → Prop
  | get {a : Address} {e : StoreError} : source.get a = .error e → Cause source schema (.store e)
  | count {a : Address} {e : StoreError} : source.backedCount a = .error e → Cause source schema (.store e)
  | kind {a : Address} {expected : ScalarKind} {found : Scalar} : source.get a = .ok (some found) →
      found.kind ≠ expected → Cause source schema (Schema.unexpected a expected found)
  | key {a : Address} {found : Option Scalar} : source.get (a.member mapKeyField) = .ok found →
      (∀ text, found ≠ some (.string text)) → Cause source schema (.missingMapKey a.text)
  | items {inner : Schema} {c : Collection Schema} {max : UInt64} {a : Address} {n : Nat} :
    Schema.Inside inner schema → inner.collection? = some c → c.maxItems = some max →
      source.backedCount a = .ok (some n) → max.toNat < n → Cause source schema (.tooManyItems a.text n max.toNat)
  | name {inner : Schema} {name : String} {fault : AddressFault} :
    Schema.Inside inner schema → name ∈ inner.ownNames → fault.Of name → Cause source schema (.address fault)

namespace Schema

open ResolveError (Cause)

variable {source : Source} {schema inner root : Schema} {choice : TaggedUnion Schema} {f : Field Schema}
  {a base : Address} {sliced : Bool} {cs : List Candidate}

/-! #### Reads of the source -/

theorem get_of_stored {found : Option Scalar} (read : stored source a = .ok found) : source.get a = .ok found := by
  unfold stored at read
  cases held : source.get a with
  | ok x =>
    rw [held] at read
    cases read
    rfl
  | error e =>
    rw [held] at read
    cases read

theorem backedCount_of_storedCount {n : Option Nat} (read : storedCount source a = .ok n) :
    source.backedCount a = .ok n := by
  unfold storedCount at read
  cases held : source.backedCount a with
  | ok x =>
    rw [held] at read
    cases read
    rfl
  | error e =>
    rw [held] at read
    cases read

theorem stored_failsBy : FailsBy (Cause source root) (stored source a) :=
  .mapError fun _ failed => .get failed

theorem storedCount_failsBy : FailsBy (Cause source root) (storedCount source a) :=
  .mapError fun _ failed => .count failed

theorem present_failsBy : FailsBy (Cause source root) (present source a sliced) := by
  have counted : FailsBy (Cause source root) ((source.count a).mapError .store) := by
    refine .mapError fun e failed => .count (a := a) ?_
    rw [Source.backedCount, failed]
    rfl
  unfold present
  split
  · exact .pure _
  · refine counted.bind fun count _ => ?_
    split <;> exact .pure _

theorem resolveScalar_failsBy {kind : ScalarKind} : FailsBy (Cause source root) (resolveScalar source kind a) := by
  refine stored_failsBy.bind fun found read => ?_
  split
  · exact .pure _
  · next found =>
    by_cases same : found.kind = kind
    · rw [if_pos same]
      exact .pure _
    · rw [if_neg same]
      exact .error (.kind (get_of_stored read) same)

/-! #### Collections -/

private theorem resolveItems_failsBy {c : Collection Schema} (inside : Inside schema root)
    (form : schema.collection? = some c) {element : Address → Resolved Json}
    (each : ∀ b, FailsBy (Cause source root) (element b)) :
    FailsBy (Cause source root) (resolveItems source element c.maxItems c.wrapper a) := by
  have items : ∀ n (wrap : Json → Json), FailsBy (Cause source root) (do
      let items ← (List.range n).mapM fun i => do
        let item ← element (a.index i)
        return wrap item
      return some (Json.array items)) :=
    fun n wrap => (FailsBy.mapM fun i _ => (each _).bind fun item _ => .pure _).bind fun items _ => .pure _
  refine storedCount_failsBy.bind fun count read => ?_
  cases count with
  | none => exact .pure _
  | some n =>
    cases bound : c.maxItems with
    | none => cases c.wrapper <;> exact items n _
    | some max =>
      by_cases exceeded : max.toNat < n
      · simp only [exceeded, if_true]
        exact .error (.items inside form bound (backedCount_of_storedCount read) exceeded)
      · simp only [exceeded, if_false]
        cases c.wrapper <;> exact items n _

private theorem resolveEntries_failsBy {element : Address → Resolved Json}
    (each : ∀ b, FailsBy (Cause source root) (element b)) :
    FailsBy (Cause source root) (resolveEntries source element a) := by
  refine storedCount_failsBy.bind fun count _ => ?_
  cases count with
  | none => exact .pure _
  | some n =>
    refine (FailsBy.mapM fun i _ => stored_failsBy.bind fun found read => ?_).bind fun members _ => .pure _
    split
    · exact (each _).bind fun value _ => .pure _
    · next other =>
      rw [Address.field_eq_member] at read
      exact .error (.key (get_of_stored read) fun text there => other text there)

/-! #### Candidates and unions -/

private theorem resolveFirst_failsBy {read : Address → Resolved (Option Json)}
    (each : ∀ b, FailsBy (Cause source root) (read b)) (cs : List Candidate) :
    FailsBy (Cause source root) (resolveFirst read cs) := by
  induction cs with
  | nil => exact .pure _
  | cons candidate rest ih =>
    refine (each _).bind fun found _ => ?_
    split
    · exact .pure _
    · exact ih

section
variable (inside : Inside (.union choice) root)
include inside

private theorem tagAddress_failsBy (base : Address) :
    FailsBy (Cause source root) ((base.append choice.discriminator.name).mapError .address) :=
  .mapError (Address.append_failsBy.imp fun _ fault => .name inside List.mem_cons_self fault)

private theorem resolveVariant_failsBy {readers : List Reader}
    (each : ∀ reader ∈ readers, ∀ base, FailsBy (Cause source root) (reader.read base)) (cs : List Candidate) :
    FailsBy (Cause source root) (resolveVariant source choice.discriminator.name readers sliced cs) := by
  induction cs with
  | nil => exact .pure _
  | cons candidate rest ih =>
    refine (tagAddress_failsBy inside _).bind fun tagAddress _ => stored_failsBy.bind fun found read => ?_
    split
    · exact ih
    · split
      · next reader chosen => exact (each reader (mem_of_selected chosen).1 _).map
      · exact ih
    · next found other =>
      refine .error (.kind (get_of_stored read) fun same => ?_)
      cases found with
      | string text => exact other text rfl
      | bool | int | float => cases same

private theorem resolveBase_failsBy {read : Address → Resolved (List (String × Json))}
    (each : ∀ a, FailsBy (Cause source root) (read a)) (addresses : List Address) :
    FailsBy (Cause source root) (resolveBase source choice.discriminator.name read sliced addresses) := by
  induction addresses with
  | nil => exact .pure _
  | cons a rest ih =>
    have there : FailsBy (Cause source root) (basePresent source choice.discriminator.name a sliced) := by
      refine present_failsBy.bind fun found _ => ?_
      split
      · exact .pure _
      · exact (tagAddress_failsBy inside _).bind fun tagAddress _ => stored_failsBy.bind fun found _ => .pure _
    refine there.bind fun found _ => ?_
    split
    · exact (each _).map
    · exact ih

private theorem resolveChoice_failsBy
    (fields : ∀ shape ∈ choice.shapes, ∀ base, FailsBy (Cause source root) (resolveFields source base shape.fields))
    (cs : List Candidate) : FailsBy (Cause source root) (resolveChoice source choice sliced cs) := by
  have readers : ∀ reader ∈ variantReaders source choice, ∀ base, FailsBy (Cause source root) (reader.read base) := by
    intro reader mem base
    obtain ⟨v, held, rfl⟩ := List.mem_map.1 mem
    exact fields _ (List.mem_cons_of_mem _ (List.mem_map.2 ⟨v, held, rfl⟩)) base
  refine (resolveVariant_failsBy inside readers cs).bind fun found _ => ?_
  cases found with
  | some members => exact .pure _
  | none => exact (resolveBase_failsBy inside (fields _ List.mem_cons_self) _).bind fun found _ => .pure _

end

/-! #### All values -/

private theorem resolveFields_failsBy {shape : Shape Schema} (inside : Inside schema root)
    (mem : shape ∈ schema.shapes)
    (each : ∀ f ∈ shape.fields, ∀ cs, FailsBy (Cause source root) (resolveAt source f.schema cs))
    {fields : List (Field Schema)} (subset : fields ⊆ shape.fields) (base : Address) :
    FailsBy (Cause source root) (resolveFields source base fields) := by
  induction fields with
  | nil =>
    rw [resolveFields_nil]
    exact .ok _
  | cons f rest ih =>
    have declared := subset List.mem_cons_self
    have found : FailsBy (Cause source root) (resolveField source base f) := by
      refine (FailsBy.mapError ((candidates_failsBy f base).imp ?_)).bind fun cs _ => each f declared cs
      rintro fault ⟨name, candidate, blame⟩
      exact .name inside (candidate_mem_ownNames mem declared candidate) blame
    rw [resolveFields_cons]
    exact found.bind fun _ _ => (ih (List.subset_of_cons_subset subset)).bind fun _ _ => .pure _

/-- A document fails to be resolved for a cause in the source or in its schema. -/
theorem resolve_failsBy (inside : Inside schema root) :
    (∀ a sliced, FailsBy (Cause source root) (schema.resolve source a sliced)) ∧
      ∀ cs, FailsBy (Cause source root) (resolveAt source schema cs) := by
  -- a field is read at several candidates, all but a union by the reader of a single one
  have first : ∀ {schema : Schema}, (∀ choice, schema ≠ .union choice) →
      (∀ a sliced, FailsBy (Cause source root) (schema.resolve source a sliced)) →
        ∀ cs, FailsBy (Cause source root) (resolveAt source schema cs) := by
    intro schema other single cs
    rw [resolveAt_first other]
    exact resolveFirst_failsBy (fun a => single a false) cs
  induction schema using formInduction with
  | scalar kind =>
    have single : ∀ a sliced, FailsBy (Cause source root) ((scalar kind).resolve source a sliced) := by
      intro a sliced
      rw [resolve_scalar]
      exact resolveScalar_failsBy
    exact ⟨single, first (by simp) single⟩
  | items schema c form ih =>
    have below := ih (inside.step (items_mem_children form))
    have single : ∀ a sliced, FailsBy (Cause source root) (schema.resolve source a sliced) := by
      intro a sliced
      rw [resolve_items form]
      exact resolveItems_failsBy inside form fun b => (below.1 b true).map
    exact ⟨single, first (by rintro choice rfl; cases form) single⟩
  | map element ih =>
    have below := ih (inside.step (entry_mem_children element))
    have single : ∀ a sliced, FailsBy (Cause source root) ((map element).resolve source a sliced) := by
      intro a sliced
      rw [resolve_map]
      exact resolveEntries_failsBy fun b => (below.1 _ _).map
    exact ⟨single, first (by simp) single⟩
  | block schema block ih =>
    have shapes : ∀ shape ∈ schema.shapes, ∀ base,
        FailsBy (Cause source root) (resolveFields source base shape.fields) := by
      intro shape mem
      refine resolveFields_failsBy inside mem (fun f declared => ?_) (List.Subset.refl _)
      exact (ih shape mem f declared (inside.step (field_mem_children mem declared))).2
    cases schema with
    | object shape =>
      have single : ∀ a sliced, FailsBy (Cause source root) ((object shape).resolve source a sliced) := by
        intro a sliced
        rw [resolve_object]
        refine present_failsBy.bind fun found _ => ?_
        split
        · exact (shapes shape List.mem_cons_self _).bind fun members _ => .pure _
        · exact .pure _
      exact ⟨single, first (by simp) single⟩
    | union choice =>
      refine ⟨fun a sliced => ?_, resolveChoice_failsBy inside shapes⟩
      rw [resolve_union]
      exact resolveChoice_failsBy inside shapes _
    | scalar | list | set | map => cases block

/-! ### Valid schemas -/

/-- Every name in a valid schema is usable, and neither flattening nor resolving ever fails to make an address: for no
document and no source, at no address. -/
theorem Valid.faultless (valid : schema.Valid) :
    (∀ inner, Inside inner schema → ∀ name ∈ inner.ownNames, isFieldName name = true) ∧
      (∀ omitComputed value a sliced s fault,
        (schema.flattenInto omitComputed value a sliced s).1 ≠ some (.address fault)) ∧
      ∀ source a sliced fault, schema.resolve source a sliced ≠ .error (.address fault) := by
  refine ⟨fun inner inside => valid.usable inside, ?_, ?_⟩
  · intro omitComputed value a sliced s fault failed
    cases trace_failsBy (.self schema) value a sliced _ failed with
    | name inside mem blame =>
      have usable := valid.usable inside _ mem
      rw [blame.1] at usable
      cases usable
  · intro source a sliced fault failed
    cases (resolve_failsBy (.self schema)).1 a sliced _ failed with
    | name inside mem blame =>
      have usable := valid.usable inside _ mem
      rw [blame.1] at usable
      cases usable

/-- A screen whose list and event stand under one name is flattened and resolved without a fault. -/
theorem faultless_tappedScreen :
    screen.Valid ∧ (∀ name ∈ screen.ownNames, isFieldName name = true) ∧
      (∀ fault, (screen.flattenInto false tappedScreen .root false .empty).1 ≠ some (.address fault)) ∧
      ∀ fault, screen.resolve (Store.ofList (screen.writes tappedScreen .root false).entries).source .root false ≠
        .error (.address fault) := by
  have valid : screen.Valid := by decide
  obtain ⟨names, flattened, resolved⟩ := Valid.faultless valid
  exact ⟨valid, names _ (.self screen), flattened _ _ _ _ _, resolved _ _ _⟩

end Schema
end FlatStore
