import FlatStore.Proofs.Correspondence
import FlatStore.Proofs.Rendering
import FlatStore.Proofs.Restored

/-!
Documents at an address. Whatever a document writes at an address is what it writes as a document of its own, with the
address before each key (`Schema.trace_behind`), and whatever is read there is what is read at the root of a store
without the address before its keys. That the root has no block, no point before its keys and an empty written form
makes no difference (`Schema.placed_as_document`).
-/
namespace FlatStore

/-! ### Keys behind an address -/

namespace Address

/-- The key with an address before it. Where one of both is empty there is no point between them. -/
def join (p : Address) (key : String) : String :=
  if p.isRoot then key else if key = "" then p.text else p.text ++ "." ++ key

variable {p a b : Address}

theorem text_eq_empty_iff : a.text = "" ↔ a.isRoot = true := by
  constructor
  · intro empty
    have same : Slot.leaf a = Slot.leaf .root := Slot.key_injective empty
    cases same
    rfl
  · intro root
    simp [text, List.isEmpty_iff.1 root]

theorem join_injective (p : Address) : Function.Injective p.join := by
  have longer : ∀ key, p.text ++ "." ++ key ≠ p.text := by
    intro key same
    have length := congrArg String.length same
    simp only [String.length_append, show ".".length = 1 from rfl] at length
    omega
  intro key other same
  unfold join at same
  split at same
  · exact same
  · split at same <;> split at same
    · next first second => rw [first, second]
    · exact absurd same.symm (longer other)
    · exact absurd same (longer key)
    · exact (String.append_right_inj _).1 same

/-- The written form of an address behind another one. -/
theorem text_behind (p a : Address) : (p.below a.segments).text = p.join a.text := by
  cases root : p.isRoot with
  | true => simp [join, root, below, List.isEmpty_iff.1 root]
  | false =>
    rw [text_below root, join, root, if_neg (by simp : ¬ false = true)]
    cases own : a.isRoot with
    | true => simp [List.isEmpty_iff.1 own, text_eq_empty_iff.2 own]
    | false =>
      have nonempty : a.text ≠ "" := fun empty => by simp [text_eq_empty_iff.1 empty] at own
      have some_segment : a.segments ≠ [] := by simpa [isRoot] using own
      rw [if_neg nonempty, if_neg some_segment, String.append_assoc]
      rfl

/-- The key of a count behind an address. -/
theorem countKey_behind (p a : Address) : (p.below a.segments).countKey = p.join a.countKey := by
  cases root : p.isRoot with
  | true => simp [join, root, below, List.isEmpty_iff.1 root]
  | false =>
    rw [countKey, isRoot_below root, text_behind, join, join, root, countKey]
    cases own : a.isRoot with
    | true => simp [text_eq_empty_iff.2 own, countSegment]
    | false =>
      have nonempty : a.text ≠ "" := fun empty => by simp [text_eq_empty_iff.1 empty] at own
      simp [nonempty, String.append_assoc]

theorem index_behind (p a : Address) (i : Nat) : (p.below a.segments).index i = p.below (a.index i).segments :=
  congrArg Address.mk (List.append_assoc ..)

theorem member_behind (p a : Address) (name : String) :
    (p.below a.segments).member name = p.below (a.member name).segments := by
  unfold member
  split
  · exact congrArg Address.mk (List.append_assoc ..)
  · rfl

theorem append_behind (p a : Address) (name : String) :
    (p.below a.segments).append name = (a.append name).map fun b => p.below b.segments := by
  unfold append
  cases FieldName.of name with
  | error fault => rfl
  | ok name => exact congrArg Except.ok (congrArg Address.mk (List.append_assoc ..))

theorem replaceLast_behind (nonroot : a.isRoot = false) (p : Address) (name : String) :
    (p.below a.segments).replaceLast name = (a.replaceLast name).map fun b => p.below b.segments := by
  have some_segment : a.segments ≠ [] := by simpa [isRoot] using nonroot
  have below : (p.below a.segments).isRoot = false := by simp [Address.below, isRoot, some_segment]
  unfold replaceLast
  cases FieldName.of name with
  | error fault => rfl
  | ok name =>
    rw [below, nonroot]
    refine congrArg Except.ok (congrArg Address.mk ?_)
    rw [Address.below, List.dropLast_append_of_ne_nil some_segment, List.append_assoc]

/-- What has a block of its own has one behind an address, and what stands there like an element has none. -/
theorem block_behind {sliced sliced' : Bool} (own : (sliced || a.isRoot) = (sliced' || (p.below a.segments).isRoot)) :
    (p.below a.segments).block sliced' = p.below (a.block sliced).segments := by
  unfold block
  rw [← own]
  split
  · rfl
  · exact index_behind p a 0

end Address

/-- The slot at the same place behind an address. -/
def Slot.behind (p : Address) : Slot → Slot
  | .leaf a => .leaf (p.below a.segments)
  | .count a => .count (p.below a.segments)

theorem Slot.key_behind (p : Address) (slot : Slot) : (slot.behind p).key = p.join slot.key := by
  cases slot with
  | leaf a => exact p.text_behind a
  | count a => exact p.countKey_behind a

/-! ### Traces behind an address -/

/-- The error with its written address changed. -/
def FlattenError.relabel (path : String → String) : FlattenError → FlattenError
  | .typeMismatch place expected found => .typeMismatch (path place) expected found
  | .missingRequired place => .missingRequired (path place)
  | .tooManyItems place count max => .tooManyItems (path place) count max
  | .address fault => .address fault

namespace Trace

/-- The same trace with an address before whatever it writes or complains about. -/
def behind (p : Address) (trace : Trace) : Trace :=
  ⟨trace.writes.map fun entry => (entry.1.behind p, entry.2), trace.failure.map (·.relabel p.join)⟩

variable {p a : Address}

theorem behind_append (first second : Trace) : (first ++ second).behind p = first.behind p ++ second.behind p := by
  cases failed : first.failure with
  | none =>
    have passed : (first.behind p).failure = none := by simp [behind, failed]
    rw [append_of_ok failed, append_of_ok passed]
    simp [behind]
  | some error =>
    simp [append_def, behind, failed]

theorem behind_indexed {α : Type} {write later : Nat → α → Trace} {i : Nat} {parts : List α}
    (each : ∀ i part, later i part = (write i part).behind p) :
    indexed later i parts = (indexed write i parts).behind p := by
  induction parts generalizing i with
  | nil => rfl
  | cons part rest ih => rw [indexed, indexed, behind_append, each, ih]

theorem behind_at? {b : Except AddressFault Address} {write later : Address → Trace}
    (each : ∀ c, b = .ok c → later (p.below c.segments) = (write c).behind p) :
    at? (b.map fun c => p.below c.segments) later = (at? b write).behind p := by
  cases b with
  | error fault => rfl
  | ok c => exact each c rfl

theorem behind_openBlock {sliced sliced' : Bool}
    (own : (sliced || a.isRoot) = (sliced' || (p.below a.segments).isRoot)) :
    openBlock (p.below a.segments) sliced' = (openBlock a sliced).behind p := by
  unfold openBlock
  rw [← own]
  split <;> rfl

/-- The entries of a trace behind an address have the same scalars, in the same order. -/
theorem entries_behind (p : Address) (trace : Trace) :
    (trace.behind p).entries = trace.entries.map fun e => (p.join e.1, e.2) := by
  simp [entries, behind, Slot.key_behind, Function.comp_def]

end Trace

namespace Schema

variable {omitComputed : Bool} {schema : Schema} {value : Json} {members : List (String × Json)}
  {p a base : Address} {sliced sliced' : Bool}

theorem mismatch_behind (p a : Address) (expected : String) (found : Json) :
    mismatch (p.below a.segments) expected found = (mismatch a expected found).behind p := by
  rw [mismatch, p.text_behind]
  rfl

private theorem traceItems_behind {element : Json → Address → Trace} (maxItems : Option UInt64)
    (wrapper : Option String) (items : List Json)
    (each : ∀ item b, element item (p.below b.segments) = (element item b).behind p) :
    traceItems element maxItems wrapper (p.below a.segments) items =
      (traceItems element maxItems wrapper a items).behind p := by
  have unwrapped : ∀ i item, traceItems.unwrap element wrapper (p.below a.segments) i item =
      (traceItems.unwrap element wrapper a i item).behind p := by
    intro i item
    unfold traceItems.unwrap
    rw [p.index_behind]
    split
    · exact each _ _
    · exact each _ _
    · exact mismatch_behind ..
  have written : traceItems.write element wrapper (p.below a.segments) items =
      (traceItems.write element wrapper a items).behind p := by
    unfold traceItems.write
    rw [Trace.behind_append, Trace.behind_indexed unwrapped]
    rfl
  unfold traceItems
  split
  · split
    · rw [p.text_behind]
      rfl
    · exact written
  · exact written

private theorem traceEntries_behind {element : Json → Address → Trace} (members : List (String × Json))
    (each : ∀ value b, element value (p.below b.segments) = (element value b).behind p) :
    traceEntries element (p.below a.segments) members = (traceEntries element a members).behind p := by
  unfold traceEntries
  rw [Trace.behind_append]
  refine congrArg (Trace.count (p.below a.segments) _ ++ ·) (Trace.behind_indexed fun i member => ?_)
  obtain ⟨key, value⟩ := member
  dsimp only
  rw [Trace.behind_append, p.index_behind, each, Address.field_eq_member, p.member_behind, ← Address.field_eq_member]
  rfl

private theorem traceField_behind {f : Field Schema} (members : List (String × Json))
    (each : ∀ value name, isFieldName name = true → f.schema.trace omitComputed value (p.below (base.member name).segments)
      false = (f.schema.trace omitComputed value (base.member name) false).behind p) :
    traceField omitComputed members (p.below base.segments) f = (traceField omitComputed members base f).behind p := by
  unfold traceField
  split
  · rfl
  · rw [p.append_behind]
    refine Trace.behind_at? fun a named => ?_
    obtain ⟨usable, rfl⟩ := Address.append_eq_ok_iff.1 named
    cases f.value? members with
    | none =>
      cases f.optional with
      | true => rfl
      | false =>
        dsimp only
        rw [p.text_behind]
        rfl
    | some value =>
      cases moved : f.schema.segmentOf value with
      | none => simpa only [moved] using each value f.name usable
      | some segment =>
        simp only [moved]
        rw [Address.replaceLast_behind (Address.isRoot_member usable)]
        refine Trace.behind_at? fun b replaced => ?_
        by_cases other_usable : isFieldName segment = true
        · rw [Address.replaceLast_eq usable other_usable] at replaced
          cases replaced
          exact each value segment other_usable
        · simp [Address.replaceLast, FieldName.of, other_usable, bind, Except.bind] at replaced

private theorem traceFields_behind {fields : List (Field Schema)}
    (each : ∀ f ∈ fields, traceField omitComputed members (p.below base.segments) f =
      (traceField omitComputed members base f).behind p) :
    traceFields omitComputed members (p.below base.segments) fields =
      (traceFields omitComputed members base fields).behind p := by
  induction fields with
  | nil => rfl
  | cons f rest ih =>
    obtain ⟨here, later⟩ := List.forall_mem_cons.1 each
    rw [traceFields_cons, traceFields_cons, Trace.behind_append, here, ih later]

private theorem trace_nothing_behind : schema.trace omitComputed .null (p.below a.segments) sliced' =
    (schema.trace omitComputed .null a sliced).behind p := by
  rw [trace_null, trace_null]
  rfl

/-- A document writes behind an address what it writes elsewhere, if it has a block of its own in both places or in
none. -/
theorem trace_behind (schema : Schema) (value : Json) (p a : Address)
    (own : (sliced || a.isRoot) = (sliced' || (p.below a.segments).isRoot)) :
    schema.trace omitComputed value (p.below a.segments) sliced' =
      (schema.trace omitComputed value a sliced).behind p := by
  induction schema using formInduction generalizing value a sliced sliced' with
  | scalar kind =>
    by_cases null : value = .null
    · exact null ▸ trace_nothing_behind
    cases read : Scalar.ofJsonAs? kind value with
    | some leaf =>
      rw [trace_scalar read, trace_scalar read]
      rfl
    | none =>
      rw [trace_not_scalar null read, trace_not_scalar null read]
      exact mismatch_behind ..
  | items schema c form ih =>
    by_cases null : value = .null
    · exact null ▸ trace_nothing_behind
    by_cases array : ∃ given, value = .array given
    · obtain ⟨given, rfl⟩ := array
      rw [trace_items form, trace_items form]
      exact traceItems_behind _ _ _ fun item b => ih item b rfl
    · rw [trace_not_array form null (not_exists.1 array), trace_not_array form null (not_exists.1 array)]
      exact mismatch_behind ..
  | map element ih =>
    by_cases null : value = .null
    · exact null ▸ trace_nothing_behind
    by_cases object : ∃ members, value = .object members
    · obtain ⟨members, rfl⟩ := object
      rw [trace_map, trace_map]
      refine traceEntries_behind _ fun value b => ?_
      split
      · exact ih value b rfl
      · rw [p.member_behind]
        refine ih value _ ?_
        rw [← p.member_behind, Address.isRoot_member (by decide), Address.isRoot_member (by decide)]
    · have other := not_exists.1 object
      rw [trace_not_object (.inr ⟨_, rfl⟩) null other, trace_not_object (.inr ⟨_, rfl⟩) null other]
      exact mismatch_behind ..
  | block schema block ih =>
    by_cases null : value = .null
    · exact null ▸ trace_nothing_behind
    by_cases object : ∃ members, value = .object members
    · obtain ⟨members, rfl⟩ := object
      rw [trace_block block, trace_block block, Trace.behind_append, Trace.behind_openBlock own, Address.block_behind own]
      refine congrArg _ (traceFields_behind fun f mem => traceField_behind members fun value name usable => ?_)
      refine ih _ (shapeFor_mem_shapes block members) f mem value _ ?_
      rw [← p.member_behind, Address.isRoot_member usable, Address.isRoot_member usable]
    · have other := not_exists.1 object
      rw [trace_not_object (.inl block) null other, trace_not_object (.inl block) null other]
      exact mismatch_behind ..

/-! ### In a block of its own -/

/-- Outside a block it makes no difference whether a value is an element. -/
theorem trace_sliced (other : schema.isBlock = false ∨ ¬ ∃ members, value = .object members) :
    schema.trace omitComputed value a sliced = schema.trace omitComputed value a sliced' := by
  by_cases block : schema.isBlock = true
  · have object := other.resolve_left (by simp [block])
    by_cases null : value = .null
    · rw [null, trace_null, trace_null]
    · rw [trace_not_object (.inl block) null (not_exists.1 object),
        trace_not_object (.inl block) null (not_exists.1 object)]
  · cases schema with
    | object | union => exact absurd rfl block
    | scalar | list | set | map => cases value <;> rfl

/-- A block below the root is written like an element at its only index, after its count. -/
theorem trace_own_block (block : schema.isBlock = true) (nonroot : p.isRoot = false) (members : List (String × Json)) :
    schema.trace omitComputed (.object members) p false =
      .count p 1 ++ schema.trace omitComputed (.object members) (p.index 0) true := by
  have opened : Trace.openBlock p false = .count p 1 := by simp [Trace.openBlock, nonroot]
  have own : p.block false = p.index 0 := by simp [Address.block, nonroot]
  rw [trace_block block, trace_block block, opened, own]
  rfl

end Schema

/-! ### Stores behind an address -/

namespace Store

/-- The store with an address before all its keys. -/
def behind (s : Store) (p : Address) : Store := .ofList (s.toList.map fun e => (p.join e.1, e.2))

variable (s : Store) (p : Address)

theorem toList_behind : (s.behind p).toList = s.toList.map fun e => (p.join e.1, e.2) := by
  rw [behind, toList_ofList, membersOf_rename p.join_injective, membersOf_eq_of_nodup s.keys_nodup]

theorem get?_behind (key : String) : (s.behind p).get? (p.join key) = s.get? key := by
  rw [get?_eq_lookup, toList_behind, lookup_rename p.join_injective, get?_eq_lookup]

theorem size_behind : (s.behind p).size = s.size := by
  rw [size_eq_length, size_eq_length, toList_behind, List.length_map]

/-- The store answers behind the address as the other one does at its root. -/
theorem mirrors_behind : s.source.Mirrors (s.behind p).source ⟨p.join, fun _ => False⟩ .root p := by
  have text : ∀ rest, p.join (Address.root.below rest).text = (p.below rest).text :=
    fun rest => (p.text_behind ⟨rest⟩).symm
  have countKey : ∀ rest, p.join (Address.root.below rest).countKey = (p.below rest).countKey :=
    fun rest => (p.countKey_behind ⟨rest⟩).symm
  refine .of_stores (fun rest _ _ => text rest) (fun rest => ?_) (fun rest => ?_) (.inl (congrArg some (s.size_behind p)))
  · rw [← text, get?_behind]
  · rw [← countKey, get?_behind]

/-- A store of entries behind an address is the store of the entries, behind the address. -/
theorem toList_ofList_behind (given : List (String × Scalar)) :
    (ofList (given.map fun e => (p.join e.1, e.2))).toList = (ofList given).toList.map fun e => (p.join e.1, e.2) := by
  rw [toList_ofList, toList_ofList, membersOf_rename p.join_injective]

end Store

namespace Schema

variable {schema : Schema} {p : Address}

/-- What an element writes into an empty store is what the document writes, behind its address. -/
theorem flattenInto_element (schema : Schema) (omitComputed : Bool) (value : Json) (p : Address) :
    let own := schema.flattenInto omitComputed value .root false .empty
    let placed := schema.flattenInto omitComputed value p true .empty
    placed.1 = own.1.map (·.relabel p.join) ∧ placed.2.toList = own.2.toList.map fun e => (p.join e.1, e.2) := by
  have trace : schema.trace omitComputed value p true = (schema.trace omitComputed value .root false).behind p := by
    have here : p.below Address.root.segments = p := congrArg Address.mk (List.append_nil _)
    have own : (false || Address.root.isRoot) = (true || (p.below Address.root.segments).isRoot) := rfl
    rw [← trace_behind schema value p .root own, here]
  refine ⟨congrArg Trace.failure trace, ?_⟩
  change (Store.ofList (schema.trace omitComputed value p true).entries).toList = _
  rw [trace, Trace.entries_behind, Store.toList_ofList_behind]
  rfl

/-- A block below the root is the document at the only index, behind its count. -/
theorem flattenInto_own_block (omitComputed : Bool) (block : schema.isBlock = true) (nonroot : p.isRoot = false)
    (members : List (String × Json)) :
    let element := schema.flattenInto omitComputed (.object members) (p.index 0) true .empty
    let placed := schema.flattenInto omitComputed (.object members) p false .empty
    placed.1 = element.1 ∧ placed.2.toList = (p.countKey, .int 1) :: element.2.toList := by
  have trace : schema.trace omitComputed (.object members) p false = _ := trace_own_block block nonroot members
  rw [Trace.append_of_ok rfl] at trace
  have failure : (schema.trace omitComputed (.object members) p false).failure =
      (schema.trace omitComputed (.object members) (p.index 0) true).failure := by rw [trace]
  refine ⟨failure, ?_⟩
  -- nothing is written at the count again, since all else stands below the index
  have apart : p.countKey ∉ (membersOf
      (schema.trace omitComputed (.object members) (p.index 0) true).entries).map Prod.fst := by
    rw [mem_names_membersOf_iff]
    intro mem
    obtain ⟨e, held, key⟩ := List.mem_map.1 mem
    obtain ⟨⟨slot, leaf⟩, written, rfl⟩ := List.mem_map.1 held
    have same : slot = .count p := Slot.key_injective key
    have below : slot.Under (p.child (.index 0)) := trace_under schema _ (p.index 0) true _ written
    exact Slot.not_under_child (by rw [same]; rfl) below
  change (Store.ofList (schema.trace omitComputed (.object members) p false).entries).toList =
    _ :: (Store.ofList (schema.trace omitComputed (.object members) (p.index 0) true).entries).toList
  rw [Store.toList_ofList, Store.toList_ofList, trace]
  exact membersOf_cons apart

/-- Whatever is written or read at an address is what is written or read at the root, with the address before each key
and before the address in an error. An element stands directly there, and so does what is no block; a block that is no
element stands at the only index, behind its count. -/
theorem placed_as_document (valid : schema.Valid) (p : Address) :
    (∀ omitComputed value,
      let own := schema.flattenInto omitComputed value .root false .empty
      let placed := schema.flattenInto omitComputed value p true .empty
      placed.1 = own.1.map (·.relabel p.join) ∧ placed.2.toList = own.2.toList.map fun e => (p.join e.1, e.2)) ∧
    (p.isRoot = false → ∀ omitComputed value,
      let own := schema.flattenInto omitComputed value .root false .empty
      let placed := schema.flattenInto omitComputed value p false .empty
      ((schema.isBlock = false ∨ ¬ ∃ members, value = .object members) →
        placed = schema.flattenInto omitComputed value p true .empty) ∧
      ((schema.isBlock = true ∧ ∃ members, value = .object members) →
        placed.1 = own.1.map (·.relabel (p.index 0).join) ∧
        placed.2.toList = (p.countKey, .int 1) :: own.2.toList.map fun e => ((p.index 0).join e.1, e.2))) ∧
    ∀ s : Store, schema.resolve (s.behind p).source p true =
      (schema.resolveRoot s.source).mapError (·.relabel p.join) := by
  refine ⟨fun omitComputed value => flattenInto_element schema omitComputed value p, ?_, fun s => ?_⟩
  · refine fun nonroot omitComputed value => ⟨fun other => ?_, ?_⟩
    · rw [flattenInto, trace_sliced other]
      rfl
    · rintro ⟨block, members, rfl⟩
      obtain ⟨failure, entries⟩ := flattenInto_own_block omitComputed block nonroot members
      obtain ⟨own, inner⟩ := flattenInto_element schema omitComputed (.object members) (p.index 0)
      exact ⟨failure.trans own, entries.trans (congrArg _ inner)⟩
  · have own : (false || Address.root.isRoot) = (true || p.isRoot) := rfl
    exact (Transfers.resolve (transfers _ _ _ schema) valid (s.mirrors_behind p) own).eq_mapError
      fun _ _ excused => excused

/-- The same rule stands alone, third among the rules, and in a block of its own below them. One of its tags may be a
number wherever it stands, and the error says where. -/
theorem placed_as_document_tapRule :
    let p := (Address.root.member "rules").index 2
    let s := Store.ofList [("tags.#", .int 1), ("tags.0", .int 3)]
    rule.Valid ∧ p.isRoot = false ∧
    (rule.flattenInto false tapRule p true .empty).2.toList =
      [("rules.2.tags.#", .int 2), ("rules.2.tags.0", .string "a"), ("rules.2.tags.1", .string "b"),
        ("rules.2.tap.#", .int 1), ("rules.2.tap.0.type", .string "tap")] ∧
    (rule.flattenInto false tapRule p false .empty).2.toList =
      [("rules.2.#", .int 1), ("rules.2.0.tags.#", .int 2), ("rules.2.0.tags.0", .string "a"),
        ("rules.2.0.tags.1", .string "b"), ("rules.2.0.tap.#", .int 1), ("rules.2.0.tap.0.type", .string "tap")] ∧
    rule.resolve (s.behind p).source p true = .error (.typeMismatch "rules.2.tags.0" .string .int "3") := by
  intro p s
  have own : (rule.flattenInto false tapRule .root false .empty).2.toList =
      [("tags.#", .int 2), ("tags.0", .string "a"), ("tags.1", .string "b"), ("tap.#", .int 1),
        ("tap.0.type", .string "tap")] := by
    change (Store.ofList (rule.trace false tapRule .root false).entries).toList = _
    rw [trace_tapRule]
    decide +kernel
  have read : rule.resolveRoot s.source = .error (.typeMismatch "tags.0" .string .int "3") := by decide +kernel
  have nonroot : p.isRoot = false := by decide
  have valid : rule.Valid := by decide
  obtain ⟨element, block, resolved⟩ := placed_as_document valid p
  refine ⟨valid, nonroot, ?_, ?_, ?_⟩
  · rw [(element false tapRule).2, own]
    decide +kernel
  · rw [((block nonroot false tapRule).2 ⟨rfl, _, rfl⟩).2, own]
    decide +kernel
  · rw [resolved s, read]
    decide +kernel

end Schema
end FlatStore
