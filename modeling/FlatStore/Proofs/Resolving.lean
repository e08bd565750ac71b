import FlatStore.Proofs.Accepted

/-!
Resolving by the form of schemas: one equation for each of the ways in which schemas store documents, and one for the
fields of a block, each of which is found at the first of its candidates or filled in.
-/
namespace FlatStore

/-- What becomes of a field for which something is found or nothing is. -/
def Field.fill (f : Field Schema) (found : Option Json) : Option Json :=
  if f.optional then found else found.or f.schema.zero?

theorem Field.or_zero_of_fill {f : Field Schema} {found : Option Json} {value : Json}
    (filled : f.fill found = some value) : found.or f.schema.zero? = some value := by
  rw [fill] at filled
  split at filled
  · rw [filled, Option.some_or]
  · exact filled

/-! ### Reads of a store -/

namespace Store

variable (s : Store) (a : Address)

theorem stored_source : Schema.stored s.source a = .ok (s.get? a.text) := rfl

/-- The count at an address is what is stored there, if it is a number that the entries of the store can back. -/
theorem backedCount_source : s.source.backedCount a = match s.get? a.countKey with
    | none => .ok none
    | some (.int c) =>
      if 0 ≤ c.toInt then
        if s.size < c.toInt.toNat then .error (.unbackedCount a.text c.toInt.toNat s.size)
        else .ok (some c.toInt.toNat)
      else .error (.badCount a.text (Scalar.int c).text)
    | some found => .error (.badCount a.text found.text) := by
  unfold Source.backedCount source
  dsimp only
  cases s.get? a.countKey with
  | none => rfl
  | some found =>
    cases found with
    | int c =>
      by_cases sign : 0 ≤ c.toInt
      · simp [countOf, sign, bind, Except.bind, pure, Except.pure, throw, throwThe, MonadExceptOf.throw]
      · simp [countOf, sign, bind, Except.bind]
    | _ => rfl

end Store

/-! ### Equations -/

namespace Schema

variable (source : Source)

/-- The reader of a shape that is selected by tags. -/
def readerOf (values : List String) (shape : Shape Schema) : Reader :=
  ⟨values, fun base => resolveFields source base shape.fields⟩

/-- An entry of a map, by a reader of its value. -/
def resolveEntry (element : Address → Resolved Json) (entry : Address) : Resolved (String × Json) := do
  match ← stored source (entry.field mapKeyName) with
  | some (.string key) => return (key, ← element entry)
  | _ => throw (.missingMapKey entry.text)

/-- The readers of the variants of a union. -/
def variantReaders (choice : TaggedUnion Schema) : List Reader :=
  choice.variants.map fun v => readerOf source v.values v.shape

/-- A union at the first of some candidates that holds one. -/
def resolveChoice (choice : TaggedUnion Schema) (sliced : Bool) (candidates : List Candidate) :
    Resolved (Option Json) :=
  resolveUnion source choice.discriminator.name (variantReaders source choice)
    (readerOf source [] choice.base).read sliced candidates

/-- A value at the first of some candidates that holds one. -/
def resolveAt (schema : Schema) (candidates : List Candidate) : Resolved (Option Json) :=
  match schema with
  | .union choice => resolveChoice source choice false candidates
  | schema => resolveFirst (fun a => schema.resolve source a false) candidates

/-- What is found of a field in a block. -/
def resolveField (base : Address) (f : Field Schema) : Resolved (Option Json) := do
  let candidates ← (f.schema.candidates f.name f.aliases base).mapError .address
  resolveAt source f.schema candidates

variable {source} {schema : Schema} {a base : Address} {sliced : Bool}

theorem resolve_scalar (kind : ScalarKind) :
    (scalar kind).resolve source a sliced = resolveScalar source kind a := rfl

theorem resolve_items {c : Collection Schema} (form : schema.collection? = some c) :
    schema.resolve source a sliced =
      resolveItems source (fun b => c.element.orZero <$> c.element.resolve source b true) c.maxItems c.wrapper a := by
  cases schema with
  | list items | set items =>
    cases form
    rfl
  | scalar | map | object | union => simp [collection?] at form

theorem resolve_map (element : Schema) : (map element).resolve source a sliced =
    resolveEntries source
      (fun b => element.orZero <$> element.resolve source (element.entryAddress b) element.isBlock) a := by
  refine congrArg (resolveEntries source · a) (funext fun b => ?_)
  cases block : element.isBlock <;> simp [entryAddress, block, Address.field_eq_member, mapValueName]

/-- A map is read entry by entry. -/
theorem resolveEntries_of_count {element : Address → Resolved Json} {n : Nat}
    (count : storedCount source a = .ok (some n)) : resolveEntries source element a = do
      let members ← (List.range n).mapM fun i => resolveEntry source element (a.index i)
      return some (.object (membersOf members)) := by
  rw [resolveEntries, count]
  rfl

theorem resolve_object (shape : Shape Schema) : (object shape).resolve source a sliced = do
    if ← present source a sliced then
      return some (.object (membersOf (← resolveFields source (a.block sliced) shape.fields)))
    else return none := rfl

theorem resolve_union (choice : TaggedUnion Schema) :
    (union choice).resolve source a sliced = resolveChoice source choice sliced [⟨a, none⟩] := by
  obtain ⟨name, discriminator, variants, ⟨baseName, baseFields⟩⟩ := choice
  change resolveUnion source discriminator.name (readers source variants) _ sliced _ = _
  rw [readers_eq_map]
  rfl

theorem resolveAt_union (choice : TaggedUnion Schema) (candidates : List Candidate) :
    resolveAt source (.union choice) candidates = resolveChoice source choice false candidates := rfl

/-- All but a union are the first value that is found. -/
theorem resolveAt_first (other : ∀ choice, schema ≠ .union choice) (candidates : List Candidate) :
    resolveAt source schema candidates = resolveFirst (fun a => schema.resolve source a false) candidates := by
  cases schema with
  | union choice => exact absurd rfl (other choice)
  | scalar | list | set | map | object => rfl

/-- A tag selects a reader that has it. -/
theorem mem_of_selected {readers : List Reader} {only : Option Nat} {tag : String} {reader : Reader}
    (chosen : selected readers only tag = some reader) : reader ∈ readers ∧ reader.values.contains tag = true := by
  cases only with
  | none =>
    have has := List.find?_some chosen
    exact ⟨List.mem_of_find?_eq_some chosen, has⟩
  | some i =>
    obtain ⟨held, has⟩ := Option.filter_eq_some_iff.1 chosen
    exact ⟨List.mem_of_getElem? held, has⟩

theorem resolveFields_nil : resolveFields source base [] = .ok [] := rfl

/-- A field adds what is found of it to the members, or what stands in its place. -/
theorem fill_members (f : Field Schema) (found : Option Json) (members : List (String × Json)) :
    (match if f.optional then found else found.or f.schema.zero? with
      | some value => (f.wireName, value) :: members
      | none => members) = ((f.fill found).map (f.wireName, ·)).toList ++ members := by
  unfold Field.fill
  cases if f.optional then found else found.or f.schema.zero? <;> rfl

theorem resolveFields_cons (f : Field Schema) (rest : List (Field Schema)) :
    resolveFields source base (f :: rest) = do
      let found ← resolveField source base f
      let members ← resolveFields source base rest
      return ((f.fill found).map (f.wireName, ·)).toList ++ members := by
  obtain ⟨name, wireName, schema, optional, computed, aliases, promotedFrom⟩ := f
  rw [resolveFields, resolveField, bind_assoc]
  dsimp only
  refine congrArg _ (funext fun candidates => ?_)
  have filled := fill_members ⟨name, wireName, schema, optional, computed, aliases, promotedFrom⟩
  cases schema with
  | union choice =>
    obtain ⟨unionName, discriminator, variants, ⟨baseName, baseFields⟩⟩ := choice
    dsimp only
    rw [readers_eq_map]
    exact bind_congr fun found => bind_congr fun members => congrArg pure (filled found members)
  | scalar | list | set | map | object =>
    exact bind_congr fun found => bind_congr fun members => congrArg pure (filled found members)

/-! ### What stands in place of what is missing -/

theorem zeros_eq_filled (fields : List (Field Schema)) : zeros fields = filled (fun f => f.fill none) fields := by
  induction fields with
  | nil => rfl
  | cons f rest ih =>
    obtain ⟨name, wireName, schema, optional, computed, aliases, promotedFrom⟩ := f
    rw [zeros, ih, filled_cons]
    cases optional with
    | true => rfl
    | false => cases found : schema.zero? <;> simp [Field.fill, found]

theorem zero?_items {c : Collection Schema} (form : schema.collection? = some c) : schema.zero? = some (.array []) := by
  cases schema with
  | list | set => rfl
  | scalar | map | object | union => simp [collection?] at form

/-- The zero value of an object has its required fields, each filled with its own zero value. -/
theorem zero?_object {shape : Shape Schema} (sound : SoundShape shape) :
    (object shape).zero? = some (.object (filled (fun f => f.fill none) shape.fields)) := by
  have names := names_filled_sublist (fun f => f.fill none) shape.fields
  rw [← membersOf_eq_of_nodup (names.nodup sound.wireNames_nodup), ← zeros_eq_filled]
  rfl

end Schema
end FlatStore
