import FlatStore.Proofs.Choice
import FlatStore.Proofs.Normal

/-!
Reads that succeed. For each reader there is a statement of when it does not fail and what it has found then: which
counts and scalars stand in the store, and what was read of the parts (`Schema.resolveItems_eq_ok_iff` and the others).
Whatever is shown of resolved documents is shown from these.
-/
namespace FlatStore

/-- Whether a store counts a block at an address, and not an empty one. -/
def Store.Opened (s : Store) (a : Address) : Prop := ∃ n : Int64, s.get? a.countKey = some (.int n) ∧ n ≠ 0

theorem mapM_eq_ok_iff {ε α β : Type} {f : α → Except ε β} {items : List α} {out : List β} :
    items.mapM f = .ok out ↔ List.Forall₂ (fun item result => f item = .ok result) items out := by
  induction items generalizing out with
  | nil =>
    rw [List.forall₂_nil_left_iff]
    constructor
    · intro read
      cases read
      rfl
    · rintro rfl
      rfl
  | cons item rest ih =>
    rw [List.mapM_cons, List.forall₂_cons_left_iff, bind_eq_ok_iff]
    constructor
    · rintro ⟨first, here, read⟩
      obtain ⟨others, later, result⟩ := bind_eq_ok_iff.1 read
      exact ⟨first, others, here, ih.1 later, (Except.ok.inj result).symm⟩
    · rintro ⟨first, others, here, later, rfl⟩
      exact ⟨first, here, bind_eq_ok_iff.2 ⟨others, ih.2 later, rfl⟩⟩

theorem mapM_range_eq_ok_iff {ε β : Type} {f : Nat → Except ε β} {n : Nat} {out : List β} :
    (List.range n).mapM f = .ok out ↔ out.length = n ∧ ∀ part ∈ out.zipIdx, f part.2 = .ok part.1 := by
  constructor
  · intro read
    have each := mapM_eq_ok_iff.1 read
    have length : out.length = n := by rw [← each.length_eq, List.length_range]
    refine ⟨length, fun part mem => ?_⟩
    obtain ⟨result, i⟩ := part
    have here := List.mk_mem_zipIdx_iff_getElem?.1 mem
    obtain ⟨bound, eq⟩ := List.getElem?_eq_some_iff.1 here
    have at_index := each.get (i := i) (by rwa [List.length_range, ← length]) bound
    simpa [eq] using at_index
  · rintro ⟨rfl, each⟩
    have indices : List.range out.length = out.zipIdx.map Prod.snd := by
      rw [List.zipIdx_map_snd, List.range_eq_range']
    have read := mapM_eq_ok (g := Prod.fst) each
    rw [List.zipIdx_map_fst] at read
    rw [indices, List.mapM_map]
    exact read

/-- What is done to each result can be done to all of them behind. -/
theorem mapM_map_result {ε α β γ : Type} (f : α → Except ε β) (g : β → γ) (items : List α) :
    items.mapM (fun item => do return g (← f item)) = List.map g <$> items.mapM f := by
  induction items with
  | nil => rfl
  | cons item rest ih =>
    rw [List.mapM_cons, List.mapM_cons, ih]
    cases f item with
    | error error => rfl
    | ok first => cases rest.mapM f <;> rfl

namespace Schema

variable {s : Store} {source : Source} {schema : Schema} {choice : TaggedUnion Schema} {a base : Address}
  {cs : List Candidate} {sliced : Bool} {found : Option Json}

/-! ### Candidates -/

theorem resolveFirst_eq_none {read : Address → Resolved (Option Json)} (nothing : resolveFirst read cs = .ok none) :
    ∀ c ∈ cs, read c.address = .ok none := by
  induction cs with
  | nil => simp
  | cons c rest ih =>
    rw [resolveFirst, bind_eq_ok_iff] at nothing
    obtain ⟨found, first, later⟩ := nothing
    cases found with
    | some value => cases later
    | none => exact List.forall_mem_cons.2 ⟨first, ih later⟩

theorem resolveFirst_eq_some {read : Address → Resolved (Option Json)} {value : Json}
    (there : resolveFirst read cs = .ok (some value)) : ∃ c ∈ cs, read c.address = .ok (some value) := by
  induction cs with
  | nil => cases there
  | cons c rest ih =>
    rw [resolveFirst, bind_eq_ok_iff] at there
    obtain ⟨found, first, later⟩ := there
    cases found with
    | some other =>
      cases later
      exact ⟨c, List.mem_cons_self, first⟩
    | none =>
      obtain ⟨d, mem, read⟩ := ih later
      exact ⟨d, List.mem_cons_of_mem _ mem, read⟩

/-- The value at the first of some candidates that holds one. -/
def readAt (source : Source) (schema : Schema) (cs : List Candidate) (sliced : Bool) : Resolved (Option Json) :=
  match schema with
  | .union choice => resolveChoice source choice sliced cs
  | schema => resolveFirst (fun a => schema.resolve source a sliced) cs

theorem readAt_false (source : Source) : schema.readAt source cs false = resolveAt source schema cs := by
  cases schema <;> rfl

theorem readAt_first (other : ∀ choice, schema ≠ .union choice) :
    schema.readAt source cs sliced = resolveFirst (fun a => schema.resolve source a sliced) cs := by
  cases schema with
  | union choice => exact absurd rfl (other choice)
  | scalar | list | set | map | object => rfl

theorem readAt_single (source : Source) : schema.readAt source [⟨a, none⟩] sliced = schema.resolve source a sliced := by
  have first : ∀ read : Address → Resolved (Option Json), resolveFirst read [⟨a, none⟩] = read a := by
    intro read
    simp only [resolveFirst]
    cases read a with
    | error error => rfl
    | ok found => cases found <;> rfl
  cases schema with
  | union choice => exact (resolve_union choice).symm
  | scalar | list | set | map | object => exact (readAt_first (by simp)).trans (first _)

theorem exists_candidate (other : ∀ choice, schema ≠ .union choice) {value : Json}
    (read : schema.readAt source cs sliced = .ok (some value)) :
    ∃ c ∈ cs, schema.resolve source c.address sliced = .ok (some value) := by
  rw [readAt_first other] at read
  exact resolveFirst_eq_some read

/-! ### Counts and scalars -/

/-- A count that is read is the number that stands at its key, and the entries of the store can back it. -/
theorem storedCount_eq_some {n : Nat} (read : storedCount s.source a = .ok (some n)) :
    n ≤ s.size ∧ ∃ c : Int64, s.get? a.countKey = some (.int c) ∧ c.toInt = n := by
  rw [storedCount, Store.backedCount_source] at read
  split at read
  · cases read
  · next c there =>
    split at read
    · split at read
      · cases read
      · cases read
        exact ⟨by omega, c, there, by omega⟩
    · cases read
  · cases read

theorem storedCount_eq_none (read : storedCount s.source a = .ok none) : s.get? a.countKey = none := by
  rw [storedCount, Store.backedCount_source] at read
  split at read
  · next absent => exact absent
  · split at read
    · split at read <;> cases read
    · cases read
  · cases read

theorem present_eq_ok {there : Bool} (below : (sliced || a.isRoot) = false)
    (read : present s.source a sliced = .ok there) : there = true ↔ s.Opened a := by
  rw [present, if_neg (by rw [below]; decide)] at read
  change ((countOf a (s.get? a.countKey)).mapError ResolveError.store >>= _) = _ at read
  cases stored : s.get? a.countKey with
  | none =>
    rw [stored] at read
    cases read
    simp [Store.Opened, stored]
  | some x =>
    rw [stored] at read
    cases x with
    | int n =>
      have zero : n.toInt = 0 ↔ n = 0 := Int64.toInt_inj (y := 0)
      by_cases sign : 0 ≤ n.toInt
      · rw [countOf, if_pos sign, mapError_ok, ok_bind] at read
        by_cases none : n.toInt.toNat = 0
        · rw [none] at read
          cases read
          have empty : n = 0 := zero.1 (by omega)
          simp [Store.Opened, stored, empty]
        · obtain ⟨m, more⟩ := Nat.exists_eq_succ_of_ne_zero none
          rw [more] at read
          cases read
          have some : n ≠ 0 := fun empty => none (by rw [zero.2 empty]; rfl)
          simp [Store.Opened, stored, some]
      · rw [countOf, if_neg sign] at read
        cases read
    | _ => cases read

theorem basePresent_eq_ok {tagName : String} {there : Bool} (usable : isFieldName tagName = true)
    (below : a.isRoot = false) (read : basePresent s.source tagName a false = .ok there) :
    there = true ↔ s.Opened a ∨ s.get? ((a.index 0).member tagName).text ≠ none := by
  rw [basePresent, bind_eq_ok_iff] at read
  obtain ⟨opened, first, later⟩ := read
  rw [← present_eq_ok (by simpa using below) first]
  cases opened with
  | true =>
    cases later
    simp
  | false =>
    rw [if_neg (by decide), Address.append_eq usable, mapError_ok, ok_bind, Store.stored_source, ok_bind] at later
    cases later
    simp [Option.isSome_iff_ne_none]

/-- A scalar is the one that stands at its address, and has the kind of its schema. -/
theorem resolveScalar_eq_ok_iff {kind : ScalarKind} : resolveScalar s.source kind a = .ok found ↔
    ∃ leaf, s.get? a.text = leaf ∧ found = leaf.map Scalar.toJson ∧ ∀ x ∈ leaf, x.kind = kind := by
  rw [resolveScalar, Store.stored_source, ok_bind]
  cases s.get? a.text with
  | none => simp [pure, Except.pure, eq_comm]
  | some x =>
    by_cases same : x.kind = kind
    · simp [same, pure, Except.pure, eq_comm]
    · simp [same, throw, throwThe, MonadExceptOf.throw]

/-! ### Collections -/

variable {element : Address → Resolved Json}

/-- A list or a set has an element for each index below its count, if these are no more than it takes. -/
theorem resolveItems_of_count {maxItems : Option UInt64} {wrapper : Option String} {n : Nat}
    (count : storedCount source a = .ok (some n)) (within : ∀ max ∈ maxItems, n ≤ max.toNat) :
    resolveItems source element maxItems wrapper a = (fun items => some (.array (items.map (wrapIn wrapper)))) <$>
      (List.range n).mapM fun i => element (a.index i) := by
  have wrapped := mapM_map_result (fun i => element (a.index i)) (wrapIn wrapper) (List.range n)
  have collected : (do
      let items ← (List.range n).mapM fun i => do return wrapIn wrapper (← element (a.index i))
      return some (Json.array items)) = (fun items => some (.array (items.map (wrapIn wrapper)))) <$>
        (List.range n).mapM fun i => element (a.index i) := by
    rw [wrapped]
    cases (List.range n).mapM fun i => element (a.index i) <;> rfl
  rw [resolveItems, count, ok_bind, ← collected]
  cases maxItems with
  | none => cases wrapper <;> rfl
  | some max =>
    have enough : ¬ max.toNat < n := Nat.not_lt.2 (within max rfl)
    simp only [enough, if_false]
    cases wrapper <;> rfl

theorem resolveItems_eq_ok_iff {maxItems : Option UInt64} {wrapper : Option String} :
    resolveItems source element maxItems wrapper a = .ok found ↔
      storedCount source a = .ok none ∧ found = none ∨ ∃ items : List Json,
        storedCount source a = .ok (some items.length) ∧ (∀ max ∈ maxItems, items.length ≤ max.toNat) ∧
          (∀ part ∈ items.zipIdx, element (a.index part.2) = .ok part.1) ∧
            found = some (.array (items.map (wrapIn wrapper))) := by
  constructor
  · intro read
    cases counted : storedCount source a with
    | error error =>
      rw [resolveItems, counted] at read
      cases read
    | ok count =>
      cases count with
      | none =>
        rw [resolveItems, counted] at read
        cases read
        exact .inl ⟨rfl, rfl⟩
      | some n =>
        have within : ∀ max ∈ maxItems, n ≤ max.toNat := by
          rintro max rfl
          by_contra exceeded
          rw [resolveItems, counted, ok_bind] at read
          simp only [Nat.not_le.1 exceeded, if_true] at read
          cases read
        rw [resolveItems_of_count counted within, map_eq_ok_iff] at read
        obtain ⟨items, elements, rfl⟩ := read
        obtain ⟨rfl, each⟩ := mapM_range_eq_ok_iff.1 elements
        exact .inr ⟨items, rfl, within, each, rfl⟩
  · rintro (⟨count, rfl⟩ | ⟨items, count, within, each, rfl⟩)
    · rw [resolveItems, count]
      rfl
    · rw [resolveItems_of_count count within, mapM_range_eq_ok_iff.2 ⟨rfl, each⟩]
      rfl

theorem resolveEntry_source (s : Store) (entry : Address) : resolveEntry s.source element entry =
    match s.get? (entry.member mapKeyField).text with
    | some (.string key) => (key, ·) <$> element entry
    | _ => .error (.missingMapKey entry.text) := by
  rw [resolveEntry, Address.field_eq_member, Store.stored_source, ok_bind, show mapKeyName.text = mapKeyField from rfl]
  cases s.get? (entry.member mapKeyField).text with
  | none => rfl
  | some x =>
    cases x with
    | string key => cases element entry <;> rfl
    | bool | int | float => rfl

theorem resolveEntry_eq_ok_iff {entry : Address} {member : String × Json} :
    resolveEntry s.source element entry = .ok member ↔
      s.get? (entry.member mapKeyField).text = some (.string member.1) ∧ element entry = .ok member.2 := by
  rw [resolveEntry_source]
  split
  · next key there =>
    rw [there, map_eq_ok_iff]
    constructor
    · rintro ⟨value, read, rfl⟩
      exact ⟨rfl, read⟩
    · rintro ⟨eq, read⟩
      cases eq
      exact ⟨member.2, read, rfl⟩
  · next other => exact iff_of_false (by simp) fun there => other _ there.1

/-- A map is not there without a count, and otherwise has the entries at the indices below the count, of two with
the same key the later one. -/
theorem resolveEntries_eq_ok_iff : resolveEntries source element a = .ok found ↔
    storedCount source a = .ok none ∧ found = none ∨ ∃ entries : List (String × Json),
      storedCount source a = .ok (some entries.length) ∧ (∀ part ∈ entries.zipIdx,
        resolveEntry source element (a.index part.2) = .ok part.1) ∧ found = some (.object (membersOf entries)) := by
  constructor
  · intro read
    cases counted : storedCount source a with
    | error error =>
      rw [resolveEntries, counted] at read
      cases read
    | ok count =>
      cases count with
      | none =>
        rw [resolveEntries, counted] at read
        cases read
        exact .inl ⟨rfl, rfl⟩
      | some n =>
        rw [resolveEntries_of_count counted, bind_eq_ok_iff] at read
        obtain ⟨entries, parts, result⟩ := read
        obtain ⟨rfl, each⟩ := mapM_range_eq_ok_iff.1 parts
        exact .inr ⟨entries, rfl, each, (Except.ok.inj result).symm⟩
  · rintro (⟨count, rfl⟩ | ⟨entries, count, each, rfl⟩)
    · rw [resolveEntries, count]
      rfl
    · rw [resolveEntries_of_count count, mapM_range_eq_ok_iff.2 ⟨rfl, each⟩]
      rfl

/-! ### Blocks -/

theorem resolveField_eq {f : Field Schema} (usable : ∀ name ∈ f.candidateNames, isFieldName name = true) :
    resolveField source base f = resolveAt source f.schema (candidatesOf f base) := by
  rw [resolveField, candidates_eq usable, mapError_ok, ok_bind]

/-- What a field is filled with in a block, where it can be read. -/
def filledAt (source : Source) (base : Address) (f : Field Schema) : Option Json :=
  match resolveField source base f with
  | .ok found => f.fill found
  | .error _ => none

theorem filledAt_eq {f : Field Schema} (read : resolveField source base f = .ok found) :
    filledAt source base f = f.fill found := by
  rw [filledAt, read]

/-- The fields of a block are all read, and each is filled with what is found of it. -/
theorem resolveFields_eq_ok_iff {fields : List (Field Schema)} {members : List (String × Json)} :
    resolveFields source base fields = .ok members ↔
      (∀ f ∈ fields, ∃ found, resolveField source base f = .ok found) ∧ members = filled (filledAt source base) fields := by
  induction fields generalizing members with
  | nil =>
    rw [resolveFields_nil]
    simp [filled, eq_comm]
  | cons f rest ih =>
    rw [resolveFields_cons, filled_cons, List.forall_mem_cons]
    constructor
    · intro read
      obtain ⟨found, here, read⟩ := bind_eq_ok_iff.1 read
      obtain ⟨others, later, result⟩ := bind_eq_ok_iff.1 read
      cases result
      obtain ⟨each, rfl⟩ := ih.1 later
      exact ⟨⟨⟨found, here⟩, each⟩, by rw [filledAt_eq here]⟩
    · rintro ⟨⟨⟨found, here⟩, each⟩, rfl⟩
      rw [here, ih.2 ⟨each, rfl⟩, filledAt_eq here]
      rfl

theorem lookup_of_resolveFields {fields : List (Field Schema)} {members : List (String × Json)}
    (nodup : (fields.map Field.wireName).Nodup) (read : resolveFields source base fields = .ok members) :
    (members.map Prod.fst).Sublist (fields.map Field.wireName) ∧ ∀ f ∈ fields, ∃ found,
      resolveField source base f = .ok found ∧ members.lookup f.wireName = f.fill found := by
  obtain ⟨each, rfl⟩ := resolveFields_eq_ok_iff.1 read
  refine ⟨names_filled_sublist _ _, fun f mem => ?_⟩
  obtain ⟨found, here⟩ := each f mem
  exact ⟨found, here, by rw [lookup_filled nodup mem, filledAt_eq here]⟩

theorem membersOf_read {shape : Shape Schema} (sound : SoundShape shape) {members : List (String × Json)}
    (read : resolveFields source base shape.fields = .ok members) : membersOf members = members := by
  obtain ⟨names, -⟩ := lookup_of_resolveFields sound.wireNames_nodup read
  exact membersOf_eq_of_nodup (names.nodup sound.wireNames_nodup)

theorem resolveRoot_object (source : Source) (shape : Shape Schema) : (object shape).resolveRoot source =
    (fun members => some (.object (membersOf members))) <$> resolveFields source .root shape.fields := by
  rw [resolveRoot, resolve_object]
  change (resolveFields source .root shape.fields >>= _) = _
  cases resolveFields source .root shape.fields <;> rfl

theorem resolveRoot_object_eq_ok_iff {shape : Shape Schema} (sound : SoundShape shape) :
    (object shape).resolveRoot s.source = .ok found ↔
      (∀ f ∈ shape.fields, ∃ value, resolveField s.source .root f = .ok value) ∧
        found = some (.object (filled (filledAt s.source .root) shape.fields)) := by
  rw [resolveRoot_object, map_eq_ok_iff]
  constructor
  · rintro ⟨members, fields, rfl⟩
    rw [membersOf_read sound fields]
    obtain ⟨each, rfl⟩ := resolveFields_eq_ok_iff.1 fields
    exact ⟨each, rfl⟩
  · rintro ⟨each, rfl⟩
    have fields := resolveFields_eq_ok_iff.2 ⟨each, rfl⟩
    exact ⟨_, fields, by rw [membersOf_read sound fields]⟩

end Schema
end FlatStore
