import FlatStore.Proofs.Relocated
import FlatStore.Proofs.Stable
import Mathlib.Data.List.Perm.Basic
import Mathlib.Logic.Equiv.Basic

/-!
Stores with their elements moved. The elements of a set and the entries of a map may stand at other indices, each moved
as a whole: what is read is then the same but for the order of that set or map, and it is stored as the same entries in
the same order, or is refused with the same error (`Schema.flatten_rearranged`).
-/
namespace FlatStore

/-! ### Addresses with their indices permuted -/

/-- The address that takes the place of another when the indices below `a` are permuted. -/
def Address.rearrange (a : Address) (π : Equiv.Perm Nat) (b : Address) : Address :=
  match b.segments.dropPrefix? a.segments with
  | some (.index i :: rest) => (a.index (π i)).below rest
  | _ => b

namespace Address

variable {a b : Address} {π : Equiv.Perm Nat}

theorem rearrange_below (a : Address) (π : Equiv.Perm Nat) (i : Nat) (rest : List Segment) :
    a.rearrange π ((a.index i).below rest) = (a.index (π i)).below rest := by
  have behind : ((a.index i).below rest).segments.dropPrefix? a.segments = some (.index i :: rest) :=
    List.dropPrefix?_eq_some_iff.2 ⟨a.segments, by simp [below, index], by simp⟩
  rw [rearrange, behind]

theorem rearrange_of_not_below (other : ∀ i rest, b ≠ (a.index i).below rest) : a.rearrange π b = b := by
  unfold rearrange
  split
  · next i rest behind =>
    obtain ⟨front, segments, same⟩ := List.dropPrefix?_eq_some_iff.1 behind
    have front_eq : front = a.segments := by simpa using same
    refine absurd (congrArg Address.mk segments) ?_
    rw [front_eq, List.append_cons]
    exact other i rest
  · rfl

theorem rearrange_of_not_prefix (apart : ¬ a.segments <+: b.segments) : a.rearrange π b = b := by
  refine rearrange_of_not_below fun i rest here => apart ?_
  rw [here]
  exact ⟨.index i :: rest, by simp [below, index]⟩

theorem rearrange_self (a : Address) (π : Equiv.Perm Nat) : a.rearrange π a = a := by
  refine rearrange_of_not_below fun i rest here => ?_
  have length := congrArg Address.length here
  simp only [below, index, Address.length, List.length_append, List.length_singleton] at length
  omega

theorem rearrange_of_fixed (fixed : ∀ i, π i = i) (b : Address) : a.rearrange π b = b := by
  by_cases below : ∃ i rest, b = (a.index i).below rest
  · obtain ⟨i, rest, rfl⟩ := below
    rw [rearrange_below, fixed]
  · exact rearrange_of_not_below fun i rest here => below ⟨i, rest, here⟩

theorem rearrange_injective (a : Address) (π : Equiv.Perm Nat) : Function.Injective (a.rearrange π) := by
  refine Function.LeftInverse.injective (g := a.rearrange π.symm) fun b => ?_
  by_cases below : ∃ i rest, b = (a.index i).below rest
  · obtain ⟨i, rest, rfl⟩ := below
    rw [rearrange_below, rearrange_below, Equiv.symm_apply_apply]
  · have other : ∀ i rest, b ≠ (a.index i).below rest := fun i rest here => below ⟨i, rest, here⟩
    rw [rearrange_of_not_below other, rearrange_of_not_below other]

end Address

/-! ### Stores with their elements moved -/

/-- Whether a store holds what another holds, but with the blocks at the indices of an address moved as wholes. -/
structure Store.Rearranged (s t : Store) (a : Address) (π : Equiv.Perm Nat) : Prop where
  size : t.size = s.size
  leaf : ∀ b, t.get? (a.rearrange π b).text = s.get? b.text
  count : ∀ b, t.get? (a.rearrange π b).countKey = s.get? b.countKey

/-- Whether an index is below the count that stands for an address. -/
def Store.Counts (s : Store) (a : Address) (i : Nat) : Prop :=
  ∃ n : Int64, s.get? a.countKey = some (.int n) ∧ (i : Int) < n.toInt

/-- Whether no two entries of a map have the same key. -/
def Store.Keyed (s : Store) (a : Address) : Prop :=
  ∀ i j key, s.Counts a i → s.Counts a j → s.get? ((a.index i).member mapKeyField).text = some (.string key) →
    s.get? ((a.index j).member mapKeyField).text = some (.string key) → i = j

namespace Store.Rearranged

variable {s t : Store} {a b : Address} {π : Equiv.Perm Nat}

theorem element (rearranged : s.Rearranged t a π) (i : Nat) : s.Mirrors t (a.index i) (a.index (π i)) where
  size := rearranged.size
  isRoot := (Address.isRoot_child (.index (π i))).trans (Address.isRoot_child (.index i)).symm
  leaf := fun rest => by rw [← Address.rearrange_below, rearranged.leaf]
  count := fun rest => by rw [← Address.rearrange_below, rearranged.count]

theorem get?_countKey (rearranged : s.Rearranged t a π) : t.get? a.countKey = s.get? a.countKey := by
  rw [← rearranged.count, Address.rearrange_self]

theorem kept (rearranged : s.Rearranged t a π) (stays : ∀ rest, a.rearrange π (b.below rest) = b.below rest) :
    s.Mirrors t b b where
  size := rearranged.size
  isRoot := rfl
  leaf := fun rest => by rw [← rearranged.leaf, stays]
  count := fun rest => by rw [← rearranged.count, stays]

end Store.Rearranged

def Slot.rearrange (a : Address) (π : Equiv.Perm Nat) : Slot → Slot
  | .leaf b => .leaf (a.rearrange π b)
  | .count b => .count (a.rearrange π b)

theorem Slot.rearrange_injective (a : Address) (π : Equiv.Perm Nat) : Function.Injective (Slot.rearrange a π) := by
  intro x y same
  cases x with
  | leaf b =>
    cases y with
    | leaf c => rw [Address.rearrange_injective a π (Slot.leaf.inj same)]
    | count c => cases same
  | count b =>
    cases y with
    | leaf c => cases same
    | count c => rw [Address.rearrange_injective a π (Slot.count.inj same)]

def Writes.rearrange (a : Address) (π : Equiv.Perm Nat) (writes : Writes) : Writes :=
  writes.map fun (slot, value) => (slot.rearrange a π, value)

theorem Store.rearranged_ofList {writes : Writes} (nodup : writes.slots.Nodup) (a : Address) (π : Equiv.Perm Nat) :
    (Store.ofList writes.entries).Rearranged (.ofList (writes.rearrange a π).entries) a π := by
  have slots : (writes.rearrange a π).slots = writes.slots.map (Slot.rearrange a π) := by
    simp [Writes.rearrange, Writes.slots]
  have nodup' : (writes.rearrange a π).slots.Nodup := slots ▸ nodup.map (Slot.rearrange_injective a π)
  have first : (Store.ofList writes.entries).toList = writes.entries := by
    rw [Store.toList_ofList, membersOf_eq_of_nodup (Writes.nodup_names_entries_iff.2 nodup)]
  have second : (Store.ofList (writes.rearrange a π).entries).toList = (writes.rearrange a π).entries := by
    rw [Store.toList_ofList, membersOf_eq_of_nodup (Writes.nodup_names_entries_iff.2 nodup')]
  have moved : ∀ slot : Slot, (Store.ofList (writes.rearrange a π).entries).get? (slot.rearrange a π).key =
      (Store.ofList writes.entries).get? slot.key := by
    intro slot
    refine Option.ext fun value => ?_
    rw [Store.get?_eq_some_iff, Store.get?_eq_some_iff, first, second, Writes.mem_entries_iff, Writes.mem_entries_iff,
      Writes.rearrange, List.mem_map]
    constructor
    · rintro ⟨⟨other, x⟩, mem, same⟩
      obtain ⟨place, rfl⟩ := Prod.mk.inj same
      rwa [← Slot.rearrange_injective a π place]
    · exact fun mem => ⟨_, mem, rfl⟩
  refine ⟨?_, fun b => moved (.leaf b), fun b => moved (.count b)⟩
  rw [Store.size_eq_length, Store.size_eq_length, first, second]
  simp [Writes.entries, Writes.rearrange]

/-! ### Lists of parts that are moved -/

/-- A permutation that fixes whatever is not below a number permutes the numbers below it. -/
theorem range_map_perm {π : Equiv.Perm Nat} {n : Nat} (fixed : ∀ i, n ≤ i → π i = i) :
    ((List.range n).map π).Perm (List.range n) := by
  have nodup : ((List.range n).map π).Nodup := List.nodup_range.map π.injective
  have subset : (List.range n).map π ⊆ List.range n := by
    intro j mem
    obtain ⟨i, bound, rfl⟩ := List.mem_map.1 mem
    by_contra beyond
    have still := π.injective (fixed (π i) (by simpa using beyond))
    rw [still] at beyond
    exact beyond bound
  exact (nodup.subperm subset).perm_of_length_le (by simp)

/-- Parts that are read at other indices are the same parts in another order. -/
theorem exists_permuted {ε α : Type} {π : Equiv.Perm Nat} {f g : Nat → Except ε α} {xs : List α}
    (fixed : ∀ i, xs.length ≤ i → π i = i) (moved : ∀ i x, f i = .ok x → g (π i) = .ok x)
    (each : ∀ part ∈ xs.zipIdx, f part.2 = .ok part.1) :
    ∃ ys : List α, ys.Perm xs ∧ ∀ part ∈ ys.zipIdx, g part.2 = .ok part.1 := by
  have given : List.Forall₂ (fun i x => f i = .ok x) (List.range xs.length) xs :=
    mapM_eq_ok_iff.1 (mapM_range_eq_ok_iff.2 ⟨rfl, each⟩)
  have there : List.Forall₂ (fun i x => g i = .ok x) ((List.range xs.length).map π) xs :=
    List.forall₂_map_left_iff.2 (given.imp moved)
  obtain ⟨ys, here, perm⟩ := List.perm_comp_forall₂ (range_map_perm fixed).symm there
  exact ⟨ys, perm, (mapM_range_eq_ok_iff.1 (mapM_eq_ok_iff.2 here)).2⟩

namespace Schema

variable {s t : Store} {schema : Schema} {shape : Shape Schema} {f g : Field Schema} {v w : Json} {a : Address}
  {π : Equiv.Perm Nat} {sliced : Bool} {found : Option Json}

/-! ### Values in another order -/

/-- Whether two values are the same but for the order of the elements of a set or the entries of a map. -/
inductive Regrouped : Schema → Json → Json → Prop
  | same (schema : Schema) (v : Json) : Regrouped schema v v
  | set {c : Collection Schema} {xs ys : List Json} : ys.Perm xs → Regrouped (.set c) (.array xs) (.array ys)
  | map {element : Schema} {ms ns : List (String × Json)} : (ms.map Prod.fst).Nodup → ns.Perm ms →
    Regrouped (.map element) (.object ms) (.object ns)

theorem regrouped_self (found : Option Json) : Option.Rel (Regrouped schema) found found := by
  cases found with
  | none => exact .none
  | some v => exact .some (.same schema v)

theorem Regrouped.trace_eq (regrouped : Regrouped schema v w) (a : Address) (sliced : Bool) :
    schema.trace false v a sliced = schema.trace false w a sliced := by
  cases regrouped with
  | same => rfl
  | @set c xs ys perm =>
    have form : (Schema.set c).collection? = some c := rfl
    rw [trace_items form, trace_items form, arranged, arranged, setOrder_eq_of_perm perm]
  | map nodup perm =>
    rw [trace_map, trace_map, traceEntries, traceEntries, mapOrder_eq_of_perm perm.symm nodup, perm.length_eq]

theorem Regrouped.isNull_eq (regrouped : Regrouped schema v w) : v.isNull = w.isNull := by
  cases regrouped <;> rfl

theorem Regrouped.segmentOf_eq (regrouped : Regrouped schema v w) : schema.segmentOf v = schema.segmentOf w := by
  cases regrouped <;> rfl

/-- A field is written the same, if its values are the same but for their order. -/
theorem traceField_regrouped (sound : SoundShape shape) (mem : f ∈ shape.fields) {members others : List (String × Json)}
    (regrouped : Option.Rel (Regrouped f.schema) (members.lookup f.wireName) (others.lookup f.wireName))
    (base : Address) : traceField false members base f = traceField false others base f := by
  refine traceField_congr sound mem ?_
  rw [Field.value?, Field.value?]
  generalize members.lookup f.wireName = first, others.lookup f.wireName = second at regrouped
  cases regrouped with
  | none => exact .none
  | @some v w regrouped =>
    rw [Option.filter_some, Option.filter_some, regrouped.isNull_eq]
    cases w.isNull with
    | true => exact .none
    | false => exact .some ⟨by rw [Field.place, Field.place, regrouped.segmentOf_eq], regrouped.trace_eq _ false⟩

theorem trace_object_regrouped (sound : SoundShape shape) {members others : List (String × Json)}
    (each : ∀ f ∈ shape.fields,
      Option.Rel (Regrouped f.schema) (members.lookup f.wireName) (others.lookup f.wireName)) (a : Address) (sliced : Bool) :
    (object shape).trace false (.object members) a sliced = (object shape).trace false (.object others) a sliced := by
  rw [trace_block rfl, trace_block rfl, shapeFor, shapeFor]
  exact congrArg (Trace.openBlock a sliced ++ ·)
    (traceFields_congr fun f mem => traceField_regrouped sound mem (each f mem) _)

/-! ### Sets and maps that are read -/

theorem fixed_of_storedCount (within : ∀ i, π i ≠ i → s.Counts a i) {n : Nat}
    (count : storedCount s.source a = .ok (some n)) : ∀ i, n ≤ i → π i = i := by
  intro i beyond
  by_contra moves
  obtain ⟨c, there, below⟩ := within i moves
  obtain ⟨-, d, also, eq⟩ := storedCount_eq_some count
  rw [there] at also
  cases also
  omega

theorem resolve_set_rearranged {c : Collection Schema} (valid : (set c).Valid) (rearranged : s.Rearranged t a π)
    (within : ∀ i, π i ≠ i → s.Counts a i) (read : (set c).resolve s.source a sliced = .ok (some v)) :
    ∃ w, (set c).resolve t.source a sliced = .ok (some w) ∧ Regrouped (.set c) v w := by
  have form : (set c).collection? = some c := rfl
  rw [resolve_items form, resolveItems_eq_ok_iff] at read
  rcases read with ⟨-, none⟩ | ⟨items, count, bounded, each, result⟩
  · cases none
  · cases result
    obtain ⟨others, perm, later⟩ := exists_permuted
      (f := fun i => c.element.orZero <$> c.element.resolve s.source (a.index i) true)
      (g := fun i => c.element.orZero <$> c.element.resolve t.source (a.index i) true)
      (fixed_of_storedCount within count)
      (fun i x => Relocates.element (relocates s t c.element) (valid.element form).2 (rearranged.element i)) each
    refine ⟨.array (others.map (wrapIn c.wrapper)), ?_, .set (perm.map _)⟩
    have count_later := storedCount_of_get? rearranged.size rearranged.get?_countKey count
    rw [← perm.length_eq] at bounded count_later
    rw [resolve_items form, resolveItems_eq_ok_iff]
    exact .inr ⟨others, count_later, bounded, later, rfl⟩

/-- The keys of a map that are read differ from each other, if those that are stored do. -/
theorem nodup_keys_of_keyed {entries : List (String × Json)} {element : Address → Resolved Json} (keyed : s.Keyed a)
    (counted : ∀ i < entries.length, s.Counts a i)
    (each : ∀ part ∈ entries.zipIdx, resolveEntry s.source element (a.index part.2) = .ok part.1) :
    (entries.map Prod.fst).Nodup := by
  rw [← List.zipIdx_map_fst 0 entries, List.map_map]
  refine (nodup_indices entries).of_map.map_on fun x first y second same => ?_
  obtain ⟨⟨key, v⟩, i⟩ := x
  obtain ⟨⟨other, w⟩, j⟩ := y
  obtain rfl : key = other := same
  have here := List.mk_mem_zipIdx_iff_getElem?.1 first
  have there := List.mk_mem_zipIdx_iff_getElem?.1 second
  obtain ⟨below, -⟩ := List.getElem?_eq_some_iff.1 here
  obtain ⟨below', -⟩ := List.getElem?_eq_some_iff.1 there
  obtain rfl := keyed i j key (counted i below) (counted j below') (resolveEntry_eq_ok_iff.1 (each _ first)).1
    (resolveEntry_eq_ok_iff.1 (each _ second)).1
  rw [here] at there
  cases there
  rfl

theorem resolve_map_rearranged {element : Schema} (valid : (map element).Valid) (rearranged : s.Rearranged t a π)
    (within : ∀ i, π i ≠ i → s.Counts a i) (keyed : s.Keyed a)
    (read : (map element).resolve s.source a sliced = .ok (some v)) :
    ∃ w, (map element).resolve t.source a sliced = .ok (some w) ∧ Regrouped (.map element) v w := by
  rw [resolve_map, resolveEntries_eq_ok_iff] at read
  rcases read with ⟨-, none⟩ | ⟨entries, count, each, result⟩
  · cases none
  · cases result
    obtain ⟨others, perm, later⟩ := exists_permuted
      (f := fun i => resolveEntry s.source (fun b => element.orZero <$> element.resolve s.source
        (element.entryAddress b) element.isBlock) (a.index i))
      (g := fun i => resolveEntry t.source (fun b => element.orZero <$> element.resolve t.source
        (element.entryAddress b) element.isBlock) (a.index i))
      (fixed_of_storedCount within count)
      (fun i x => Relocates.entry (relocates s t element) (valid_map_iff.1 valid).2.2 (rearranged.element i)) each
    have counted : ∀ i < entries.length, s.Counts a i := by
      intro i below
      obtain ⟨-, c, there, eq⟩ := storedCount_eq_some count
      exact ⟨c, there, by omega⟩
    have nodup := nodup_keys_of_keyed keyed counted each
    rw [membersOf_eq_of_nodup nodup]
    refine ⟨.object others, ?_, .map nodup perm⟩
    have count_later := storedCount_of_get? rearranged.size rearranged.get?_countKey count
    rw [← perm.length_eq] at count_later
    rw [resolve_map, resolveEntries_eq_ok_iff]
    refine .inr ⟨others, count_later, later, ?_⟩
    rw [membersOf_eq_of_nodup ((perm.map Prod.fst).nodup_iff.2 nodup)]

theorem resolve_rearranged (unordered : (∃ c, schema = .set c) ∨ ∃ element, schema = .map element)
    (valid : schema.Valid) (rearranged : s.Rearranged t a π) (within : ∀ i, π i ≠ i → s.Counts a i)
    (keyed : ∀ element, schema = .map element → s.Keyed a)
    (read : schema.resolve s.source a sliced = .ok (some v)) :
    ∃ w, schema.resolve t.source a sliced = .ok (some w) ∧ Regrouped schema v w := by
  rcases unordered with ⟨c, rfl⟩ | ⟨element, rfl⟩
  · exact resolve_set_rearranged valid rearranged within read
  · exact resolve_map_rearranged valid rearranged within (keyed element rfl) read

theorem fixed_of_resolve_none (unordered : (∃ c, schema = .set c) ∨ ∃ element, schema = .map element)
    (within : ∀ i, π i ≠ i → s.Counts a i) (read : schema.resolve s.source a sliced = .ok none) : ∀ i, π i = i := by
  have uncounted : storedCount s.source a = .ok none := by
    rcases unordered with ⟨c, rfl⟩ | ⟨element, rfl⟩
    · rw [resolve_items rfl] at read
      rcases resolveItems_eq_ok_iff.1 read with ⟨count, -⟩ | ⟨_, -, -, -, some⟩
      · exact count
      · cases some
    · rw [resolve_map] at read
      rcases resolveEntries_eq_ok_iff.1 read with ⟨count, -⟩ | ⟨_, -, -, some⟩
      · exact count
      · cases some
  intro i
  by_contra moves
  obtain ⟨c, there, -⟩ := within i moves
  rw [storedCount_eq_none uncounted] at there
  cases there

/-! ### Fields of the root -/

theorem resolveField_rearranged (sound : SoundShape shape) (mem : f ∈ shape.fields)
    (unordered : (∃ c, f.schema = .set c) ∨ ∃ element, f.schema = .map element)
    (rearranged : s.Rearranged t (.member .root f.name) π) (within : ∀ i, π i ≠ i → s.Counts (.member .root f.name) i)
    (keyed : ∀ element, f.schema = .map element → s.Keyed (.member .root f.name))
    (read : resolveField s.source .root f = .ok found) :
    ∃ later, resolveField t.source .root f = .ok later ∧ Option.Rel (Regrouped f.schema) found later := by
  have usable := sound.candidate_usable mem
  have valid := sound.field_valid f mem
  have other : ∀ choice, f.schema ≠ .union choice := by
    rintro choice union
    simp [union] at unordered
  have first : ∀ source, resolveField source .root f = resolveFirst (fun b => f.schema.resolve source b false)
      (candidatesOf f .root) := by
    intro source
    rw [resolveField_eq usable, resolveAt_first other]
  have whole := read
  rw [first] at whole
  obtain ⟨value, here, behind⟩ := bind_eq_ok_iff.1 whole
  cases value with
  | some v =>
    obtain ⟨w, later, regrouped⟩ := resolve_rearranged unordered valid rearranged within keyed here
    cases behind
    refine ⟨some w, ?_, .some regrouped⟩
    rw [first]
    exact bind_eq_ok_iff.2 ⟨some w, later, rfl⟩
  | none =>
    have stays := fixed_of_resolve_none unordered within here
    have mirrors : ∀ name ∈ f.candidateNames, s.Mirrors t (.member .root name) (.member .root name) :=
      fun name _ => rearranged.kept fun rest => Address.rearrange_of_fixed stays _
    have later := Relocates.field (relocates s t f.schema) valid usable mirrors read
    exact ⟨found, later, regrouped_self found⟩

/-- A field without the name of the moved one is read where it was. -/
theorem resolveField_beside {name : String} (sound : SoundShape shape) (mem : g ∈ shape.fields)
    (name_usable : isFieldName name = true) (other : name ∉ g.candidateNames)
    (rearranged : s.Rearranged t (.member .root name) π) (read : resolveField s.source .root g = .ok found) :
    resolveField t.source .root g = .ok found := by
  have usable := sound.candidate_usable mem
  have mirrors : ∀ own ∈ g.candidateNames, s.Mirrors t (.member .root own) (.member .root own) := by
    intro own candidate
    refine rearranged.kept fun rest => Address.rearrange_of_not_prefix fun moved => other ?_
    let slot := Slot.leaf ((Address.member .root own).below rest)
    have here : slot.Under (.member .root own) := List.prefix_append _ _
    have there : slot.Under (.member .root name) := moved
    rwa [there.member_eq name_usable (usable own candidate) here]
  exact Relocates.field (relocates s t g.schema) (sound.field_valid g mem) usable mirrors read

theorem fill_regrouped {later : Option Json} (regrouped : Option.Rel (Regrouped g.schema) found later) :
    Option.Rel (Regrouped g.schema) (g.fill found) (g.fill later) := by
  cases regrouped with
  | none => exact regrouped_self _
  | some inner =>
    rw [Field.fill, Field.fill]
    split
    · exact .some inner
    · exact .some inner

/-- The elements of a set, and the entries of a map with keys of their own, may stand in any order in a store. Below the
name of their field they are moved as wholes, among the indices that its count counts. What is read then is stored as
the same entries in the same order, or refused with the same error. -/
theorem flatten_rearranged (valid : (object shape).Valid) (separate : shape.Separate) (mem : f ∈ shape.fields)
    (unordered : (∃ c, f.schema = .set c) ∨ ∃ element, f.schema = .map element)
    (rearranged : s.Rearranged t (.member .root f.name) π) (within : ∀ i, π i ≠ i → s.Counts (.member .root f.name) i)
    (keyed : ∀ element, f.schema = .map element → s.Keyed (.member .root f.name))
    (read : (object shape).resolveRoot s.source = .ok (some v)) :
    ∃ w, (object shape).resolveRoot t.source = .ok (some w) ∧
      (object shape).flatten v false = (object shape).flatten w false := by
  have sound := valid_object_iff.1 valid
  obtain ⟨each, result⟩ := (resolveRoot_object_eq_ok_iff sound).1 read
  have moved : ∀ g ∈ shape.fields, ∃ found later, resolveField s.source .root g = .ok found ∧
      resolveField t.source .root g = .ok later ∧ Option.Rel (Regrouped g.schema) found later := by
    intro g held
    obtain ⟨found, here⟩ := each g held
    by_cases shared : f.name ∈ g.candidateNames
    · obtain rfl := separate.eq_of_candidate mem held (name_mem_candidateNames f) shared
      obtain ⟨later, there, regrouped⟩ := resolveField_rearranged sound mem unordered rearranged within keyed here
      exact ⟨found, later, here, there, regrouped⟩
    · have there := resolveField_beside sound held (sound.name_usable f mem) shared rearranged here
      exact ⟨found, found, here, there, regrouped_self found⟩
  cases result
  refine ⟨.object (filled (filledAt t.source .root) shape.fields), ?_, ?_⟩
  · refine (resolveRoot_object_eq_ok_iff sound).2 ⟨fun g held => ?_, rfl⟩
    obtain ⟨-, later, -, there, -⟩ := moved g held
    exact ⟨later, there⟩
  · have same : (object shape).trace false (.object (filled (filledAt s.source .root) shape.fields)) .root false =
        (object shape).trace false (.object (filled (filledAt t.source .root) shape.fields)) .root false := by
      refine trace_object_regrouped sound (fun g held => ?_) .root false
      obtain ⟨found, later, here, there, regrouped⟩ := moved g held
      rw [lookup_filled sound.wireNames_nodup held, lookup_filled sound.wireNames_nodup held, filledAt_eq here,
        filledAt_eq there]
      exact fill_regrouped regrouped
    rw [flatten, flattenInto, same, flatten, flattenInto]

def roster : Shape Schema :=
  let team : Shape Schema := ⟨"Team", [.plain "senior" (.scalar .bool), .plain "city" (.scalar .string)]⟩
  ⟨"Roster", [.plain "title" (.scalar .string), .plain "teams" (.map (.object team))]⟩

/-- Two teams, of each of which something is missing. -/
def teamWrites : Writes :=
  let a := Address.root.member "teams"
  [(.count a, .int 2),
    (.leaf ((a.index 0).member mapKeyField), .string "red"), (.leaf ((a.index 0).member "senior"), .bool true),
    (.leaf ((a.index 1).member mapKeyField), .string "blue"), (.leaf ((a.index 1).member "city"), .string "York")]

def teams : Json :=
  .object [("title", .string ""), ("teams", .object
    [("red", .object [("senior", .bool true), ("city", .string "")]),
      ("blue", .object [("senior", .bool false), ("city", .string "York")])])]

theorem flatten_rearranged_teams :
    (object roster).resolveRoot (Store.ofList teamWrites.entries).source = .ok (some teams) ∧ ∃ w,
      (object roster).resolveRoot
        (Store.ofList (teamWrites.rearrange (.member .root "teams") (Equiv.swap 0 1)).entries).source = .ok (some w) ∧
        (object roster).flatten teams false = (object roster).flatten w false := by
  let a := Address.root.member "teams"
  let s := Store.ofList teamWrites.entries
  have read : (object roster).resolveRoot s.source = .ok (some teams) := by decide +kernel
  have count : s.get? a.countKey = some (.int 2) := by decide +kernel
  have counts : ∀ i, s.Counts a i ↔ i = 0 ∨ i = 1 := by
    intro i
    have two : (2 : Int64).toInt = 2 := by decide
    simp only [Store.Counts, count, Option.some.injEq, Scalar.int.injEq, exists_eq_left', two]
    omega
  have keys : s.get? ((a.index 0).member mapKeyField).text = some (.string "red") ∧
      s.get? ((a.index 1).member mapKeyField).text = some (.string "blue") := by decide +kernel
  have keyed : s.Keyed a := by
    intro i j key first second here there
    rcases (counts i).1 first with rfl | rfl <;> rcases (counts j).1 second with rfl | rfl
    · rfl
    · rw [keys.1] at here
      rw [keys.2, ← here] at there
      simp at there
    · rw [keys.2] at here
      rw [keys.1, ← here] at there
      simp at there
    · rfl
  have within : ∀ i, Equiv.swap 0 1 i ≠ i → s.Counts a i := by
    intro i moves
    by_contra beyond
    obtain ⟨zero, one⟩ := not_or.1 (mt (counts i).2 beyond)
    exact moves (Equiv.swap_apply_of_ne_of_ne zero one)
  have nodup : teamWrites.slots.Nodup := by decide
  have valid : (object roster).Valid := by decide
  have separate : roster.Separate := by decide
  have mem : roster.fields[1] ∈ roster.fields := List.getElem_mem _
  exact ⟨read, flatten_rearranged valid separate mem (.inr ⟨_, rfl⟩) (Store.rearranged_ofList nodup a (Equiv.swap 0 1))
    within (fun _ _ => keyed) read⟩

end Schema
end FlatStore
