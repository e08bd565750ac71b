import FlatStore.Proofs.Fit
import FlatStore.Proofs.Parsing
import FlatStore.Proofs.Restorable

/-!
Stores of documents as trees. What a document writes branches out from its address: a node is a scalar, or it is empty,
or it has branches under different segments, with a count beside them that is above all indices (`Tree`). Whoever reads
a store without its schema may rely on three things that follow for all of its keys: they can be read as addresses, no
index stands without a count above it, and nothing stands below a scalar (`Schema.treeShaped_of_flatten`).

Two fields that are stored in one place, or a field in the place of a map's key, would break this, so that the schema
has to keep them apart (`Schema.StoresApart`).
-/
namespace FlatStore

/-! ### Trees -/

def countWrites (a : Address) (count : Option Nat) : Writes :=
  (count.map fun n => (.count a, .int (.ofNat n))).toList

/-- Whether writes form a tree at an address. A node with branches may have a count, which is above the indices among
them. -/
inductive Tree : Address → Writes → Prop
  | nothing {a : Address} : Tree a []
  | leaf {a : Address} {value : Scalar} : Tree a [(.leaf a, value)]
  | branch {a : Address} {count : Option Nat} {branches : List (Address × Writes)}
    (small : ∀ n ∈ count, n < 2 ^ 63)
    (nodup : (branches.map Prod.fst).Nodup)
    (child : ∀ branch ∈ branches, ∃ segment, branch.1 = a.child segment)
    (bound : ∀ branch ∈ branches, ∀ i, branch.1 = a.index i → ∃ n ∈ count, i < n)
    (each : ∀ branch ∈ branches, Tree branch.1 branch.2) : Tree a (countWrites a count ++ branches.flatMap Prod.snd)

theorem mem_countWrites_iff {a : Address} {count : Option Nat} {entry : Slot × Scalar} :
    entry ∈ countWrites a count ↔ ∃ n ∈ count, entry = (.count a, .int (.ofNat n)) := by
  cases count <;> simp [countWrites]

namespace Tree

variable {a : Address} {writes : Writes}

private theorem parts {β : Type} {count : Option Nat} {given : List β} {address : β → Address} {write : β → Writes}
    (small : ∀ n ∈ count, n < 2 ^ 63) (nodup : (given.map address).Nodup)
    (child : ∀ part ∈ given, ∃ segment, address part = a.child segment)
    (bound : ∀ part ∈ given, ∀ i, address part = a.index i → ∃ n ∈ count, i < n)
    (each : ∀ part ∈ given, Tree (address part) (write part)) : Tree a (countWrites a count ++ given.flatMap write) := by
  let branches := given.map fun part => (address part, write part)
  have written : given.flatMap write = branches.flatMap Prod.snd := by rw [List.flatMap_map]
  have addresses : branches.map Prod.fst = given.map address := by
    rw [List.map_map]
    rfl
  rw [written]
  refine branch small (addresses ▸ nodup) ?_ ?_ ?_
  · exact List.forall_mem_map.2 child
  · exact List.forall_mem_map.2 bound
  · exact List.forall_mem_map.2 each

theorem items {β : Type} {given : List β} {write : β × Nat → Writes} (small : given.length < 2 ^ 63)
    (each : ∀ part ∈ given.zipIdx, Tree (a.index part.2) (write part)) :
    Tree a ((.count a, .int (.ofNat given.length)) :: given.zipIdx.flatMap write) := by
  have index_injective : Function.Injective a.index := by
    intro i j same
    simpa [Address.index] using same
  have counted : (.count a, .int (.ofNat given.length)) :: given.zipIdx.flatMap write =
      countWrites a (some given.length) ++ given.zipIdx.flatMap write := rfl
  have nodup : (given.zipIdx.map fun part => a.index part.2).Nodup := by
    have indices := (Schema.nodup_indices given).map index_injective
    rwa [List.map_map] at indices
  rw [counted]
  refine parts (by simpa using small) nodup ?_ ?_ each
  · intro part _
    exact ⟨.index part.2, rfl⟩
  · intro part mem i same
    rw [← index_injective same]
    exact ⟨given.length, rfl, List.snd_lt_of_mem_zipIdx mem⟩

theorem members {named : List (String × Writes)} (nodup : (named.map Prod.fst).Nodup)
    (each : ∀ part ∈ named, isFieldName part.1 = true ∧ Tree (a.member part.1) part.2) :
    Tree a (named.flatMap Prod.snd) := by
  have uncounted : named.flatMap Prod.snd = countWrites a none ++ named.flatMap Prod.snd := rfl
  have addresses : (named.map fun part => a.member part.1).Nodup := by
    refine nodup.of_map.map_on fun part mem other also same => ?_
    have under := Slot.under_self (.leaf (a.member part.1))
    have name := under.member_eq (each part mem).1 (each other also).1 (same ▸ under)
    exact List.inj_on_of_nodup_map nodup mem also name
  rw [uncounted]
  refine parts (by simp) addresses ?_ ?_ fun part mem => (each part mem).2
  · intro part mem
    exact ⟨_, Address.member_eq (each part mem).1⟩
  · intro part mem i same
    rw [Address.member_eq (each part mem).1] at same
    simp [Address.child, Address.index] at same

/-! ### What holds of trees -/

theorem under (tree : Tree a writes) : ∀ entry ∈ writes, entry.1.Under a := by
  induction tree with
  | nothing => simp
  | @leaf a value =>
    intro entry mem
    rw [List.mem_singleton.1 mem]
    exact Slot.under_self (.leaf a)
  | @branch a count branches small nodup child bound each ih =>
    intro entry mem
    rcases List.mem_append.1 mem with own | mem
    · obtain ⟨n, -, rfl⟩ := mem_countWrites_iff.1 own
      exact Slot.under_self (.count a)
    · obtain ⟨branch, held, mem⟩ := List.mem_flatMap.1 mem
      obtain ⟨segment, here⟩ := child branch held
      have below := ih branch held entry mem
      rw [here] at below
      exact below.of_child

/-- Branches of one node that meet are the same. -/
private theorem branch_eq {branches : List (Address × Writes)} (nodup : (branches.map Prod.fst).Nodup)
    (child : ∀ branch ∈ branches, ∃ segment, branch.1 = a.child segment) {first second : Address × Writes}
    (mem : first ∈ branches) (also : second ∈ branches) {slot : Slot} (under : slot.Under first.1)
    (meets : slot.Under second.1) : first = second := by
  obtain ⟨segment, here⟩ := child first mem
  obtain ⟨other, there⟩ := child second also
  rw [here] at under
  rw [there] at meets
  refine List.inj_on_of_nodup_map nodup mem also ?_
  rw [here, there, under.child_eq meets]

/-- Above every index in a tree there is a count, and it is larger than the index. -/
theorem counted (tree : Tree a writes) {entry : Slot × Scalar} (mem : entry ∈ writes) {p : Address} {i : Nat}
    (above : a.segments <+: p.segments) (under : entry.1.Under (p.index i)) :
    ∃ n, i < n ∧ n < 2 ^ 63 ∧ (.count p, .int (.ofNat n)) ∈ writes := by
  induction tree with
  | nothing => cases mem
  | @leaf a value =>
    rw [List.mem_singleton.1 mem] at under
    exact absurd under (Slot.not_under_child_of_prefix above)
  | @branch a count branches small nodup child bound each ih =>
    rcases List.mem_append.1 mem with own | held
    · obtain ⟨n, -, rfl⟩ := mem_countWrites_iff.1 own
      exact absurd under (Slot.not_under_child_of_prefix above)
    · obtain ⟨branch, branch_mem, held⟩ := List.mem_flatMap.1 held
      obtain ⟨segment, here⟩ := child branch branch_mem
      have below := (each branch branch_mem).under entry held
      by_cases same : p = a
      · subst same
        rw [here] at below
        obtain rfl := below.child_eq under
        obtain ⟨n, counts, less⟩ := bound branch branch_mem i here
        exact ⟨n, less, small n counts, List.mem_append_left _ (mem_countWrites_iff.2 ⟨n, counts, rfl⟩)⟩
      · rw [here] at below
        have inside : branch.1.segments <+: p.segments := by
          rw [here]
          exact below.child_prefix (Slot.Under.of_child under) above same
        obtain ⟨n, less, bounded, written⟩ := ih branch branch_mem held inside
        exact ⟨n, less, bounded, List.mem_append_right _ (List.mem_flatMap.2 ⟨branch, branch_mem, written⟩)⟩

theorem index_lt (tree : Tree .root writes) {entry : Slot × Scalar} (mem : entry ∈ writes) {i : Nat}
    (inside : .index i ∈ entry.1.address.segments) : i < 2 ^ 64 := by
  obtain ⟨before, behind, split⟩ := List.append_of_mem inside
  let p : Address := ⟨before⟩
  have under : entry.1.Under (p.index i) := ⟨behind, by simp [split, p, Address.index]⟩
  obtain ⟨n, less, small, -⟩ := tree.counted mem (p := p) List.nil_prefix under
  omega

/-- Nothing else in a tree stands at a scalar or below it. -/
theorem alone (tree : Tree a writes) {b : Address} {value : Scalar} (leaf : (.leaf b, value) ∈ writes)
    {entry : Slot × Scalar} (mem : entry ∈ writes) (under : entry.1.Under b) : entry.1 = .leaf b := by
  induction tree with
  | nothing => cases mem
  | @leaf a v =>
    cases List.mem_singleton.1 leaf
    rw [List.mem_singleton.1 mem]
  | @branch a count branches small nodup child bound each ih =>
    have inner : (.leaf b, value) ∈ branches.flatMap Prod.snd := by
      refine (List.mem_append.1 leaf).resolve_left fun own => ?_
      obtain ⟨n, -, eq⟩ := mem_countWrites_iff.1 own
      cases eq
    obtain ⟨branch, branch_mem, held⟩ := List.mem_flatMap.1 inner
    have below : b.segments <+: entry.1.address.segments := under
    have inside : entry.1.Under branch.1 := ((each branch branch_mem).under _ held).trans below
    rcases List.mem_append.1 mem with own | also
    · obtain ⟨n, -, rfl⟩ := mem_countWrites_iff.1 own
      obtain ⟨segment, here⟩ := child branch branch_mem
      exact absurd (here ▸ inside) (Slot.not_under_child rfl)
    · obtain ⟨other, other_mem, also⟩ := List.mem_flatMap.1 also
      obtain rfl := branch_eq nodup child branch_mem other_mem inside ((each other other_mem).under _ also)
      exact ih branch branch_mem held also

end Tree

/-! ### Documents that can be counted -/

namespace Json

mutual
/-- Whether no array and no object inside of a value has more parts than a count of 64 bits with a sign can tell. None
that fits into memory has. -/
def Countable : Json → Prop
  | .array items => items.length < 2 ^ 63 ∧ CountableItems items
  | .object members => members.length < 2 ^ 63 ∧ CountableMembers members
  | _ => True
def CountableItems : List Json → Prop
  | [] => True
  | item :: rest => item.Countable ∧ CountableItems rest
def CountableMembers : List (String × Json) → Prop
  | [] => True
  | (_, value) :: rest => value.Countable ∧ CountableMembers rest
end

theorem countable_hereditary : Hereditary Countable where
  null := trivial
  item := by
    have each : ∀ items, CountableItems items → ∀ item ∈ items, item.Countable := by
      intro items
      induction items with
      | nil => simp
      | cons head tail ih => exact fun both => List.forall_mem_cons.2 ⟨both.1, ih both.2⟩
    intro items countable item mem
    exact each items countable.2 item mem
  member := by
    have each : ∀ members, CountableMembers members → ∀ member ∈ members, member.2.Countable := by
      intro members
      induction members with
      | nil => simp
      | cons head tail ih => exact fun both => List.forall_mem_cons.2 ⟨both.1, ih both.2⟩
    intro members countable member mem
    exact each members countable.2 member mem

end Json

namespace Schema

variable {schema part : Schema} {value : Json} {a : Address} {sliced : Bool}

/-- Whether a schema stores the fields of a block apart from each other, and those of a block in a map apart from the
key. -/
structure StoresApart (schema : Schema) : Prop where
  places : ∀ inner, Inside inner schema → ∀ shape ∈ inner.shapes, shape.PlacesApart
  keys : ∀ element, Inside (.map element) schema → ∀ shape ∈ element.shapes, ∀ f ∈ shape.fields,
    mapKeyField ∉ f.schema.variantSegments.map Prod.snd

theorem Restorable.storesApart (restorable : schema.Restorable) : schema.StoresApart where
  places := fun inner inside shape mem => (restorable.separate inner inside shape mem).placesApart
  keys := by
    intro element inside shape mem f declared segment
    apply restorable.keys element inside shape mem f declared
    exact List.mem_append_left _ (List.mem_cons_of_mem _ segment)

theorem StoresApart.child (apart : schema.StoresApart) (mem : part ∈ schema.children) : part.StoresApart where
  places := fun inner inside => apart.places inner (.child mem inside)
  keys := fun element inside => apart.keys element (.child mem inside)

/-! ### Documents as trees -/

/-- Whether all documents of a schema are trees, also where they stand in a map beside a key. -/
structure Branches (schema : Schema) : Prop where
  tree : ∀ {value a sliced}, value.Countable → schema.Accepts value a sliced →
    Tree a (schema.writes value a sliced)
  entry : ∀ {member : String × Json} {a}, (∀ shape ∈ schema.shapes, ∀ f ∈ shape.fields, mapKeyField ∉ f.places) →
    member.2.Countable → schema.Accepts member.2 (schema.entryAddress a) schema.isBlock →
      Tree a (schema.entryWrites a member)

/-- The key of an entry stands beside what is stored under other names. -/
private theorem entry_tree {named : List (String × Writes)} (key : String) (nodup : (named.map Prod.fst).Nodup)
    (each : ∀ part ∈ named, isFieldName part.1 = true ∧ Tree (a.member part.1) part.2)
    (fresh : ∀ part ∈ named, part.1 ≠ mapKeyField) :
    Tree a ((.leaf (a.member mapKeyField), .string key) :: named.flatMap Prod.snd) := by
  have written : (.leaf (a.member mapKeyField), .string key) :: named.flatMap Prod.snd =
      ((mapKeyField, [(.leaf (a.member mapKeyField), .string key)]) :: named).flatMap Prod.snd := rfl
  rw [written]
  refine .members ?_ ?_
  · refine List.nodup_cons.2 ⟨fun also => ?_, nodup⟩
    obtain ⟨part, mem, same⟩ := List.mem_map.1 also
    exact fresh part mem same
  · exact List.forall_mem_cons.2 ⟨⟨mapKeyName.usable, .leaf⟩, each⟩

private theorem Branches.of_unblocked (unblocked : schema.isBlock = false)
    (tree : ∀ {value a sliced}, value ≠ .null → value.Countable → schema.Accepts value a sliced →
      Tree a (schema.writes value a sliced)) : schema.Branches := by
  have every : ∀ {value a sliced}, value.Countable → schema.Accepts value a sliced →
      Tree a (schema.writes value a sliced) := by
    intro value a sliced countable ok
    by_cases null : value = .null
    · rw [null, writes_null]
      exact .nothing
    · exact tree null countable ok
  refine ⟨every, ?_⟩
  intro member a _ countable ok
  have below : schema.entryAddress a = a.member mapValueField := by simp [entryAddress, unblocked]
  have value := every countable ok
  rw [below] at value
  have differ : mapValueField ≠ mapKeyField := by decide
  let named := [(mapValueField, schema.writes member.2 (a.member mapValueField) schema.isBlock)]
  have entry : Tree a ((.leaf (a.member mapKeyField), .string member.1) :: named.flatMap Prod.snd) := by
    refine entry_tree member.1 (List.nodup_singleton _) ?_ ?_
    · exact List.forall_mem_singleton.2 ⟨mapValueName.usable, value⟩
    · exact List.forall_mem_singleton.2 differ
  rw [entryWrites, below]
  simpa [named] using entry

private theorem branches_scalar (kind : ScalarKind) : (scalar kind).Branches := by
  refine .of_unblocked rfl fun {value a sliced} nonnull _ ok => ?_
  obtain ⟨leaf, -, written⟩ := ok.scalar nonnull
  rw [written]
  exact .leaf

private theorem branches_items {c : Collection Schema} (form : schema.collection? = some c)
    (element : c.element.Branches) : schema.Branches := by
  refine .of_unblocked (isBlock_of_collection? form) fun {value a sliced} nonnull countable ok => ?_
  obtain ⟨given, rfl, -, -, accepted, written⟩ := ok.items form nonnull
  have arranged := schema.arranged_perm given
  rw [written, ← arranged.length_eq]
  refine .items ?_ fun part mem => ?_
  · rw [arranged.length_eq]
    exact countable.1
  · have held := arranged.mem_iff.1 (List.fst_mem_of_mem_zipIdx mem)
    have inner := Json.countable_hereditary.part countable (item_mem_parts form held)
    exact element.tree inner (accepted part mem)

private theorem branches_map {element : Schema} (inner : element.Branches)
    (free : ∀ shape ∈ element.shapes, ∀ f ∈ shape.fields, mapKeyField ∉ f.places) : (map element).Branches := by
  refine .of_unblocked rfl fun {value a sliced} nonnull countable ok => ?_
  obtain ⟨members, rfl, accepted, written⟩ := ok.map nonnull
  have arranged := mapOrder_perm members
  rw [written, ← arranged.length_eq]
  refine .items ?_ fun part mem => ?_
  · rw [arranged.length_eq]
    exact countable.1
  · have held := arranged.mem_iff.1 (List.fst_mem_of_mem_zipIdx mem)
    have entry := Json.countable_hereditary.part countable (entry_mem_parts element held)
    exact inner.entry free entry (accepted part mem)

private theorem exists_named (block : schema.isBlock = true) (valid : schema.Valid) (apart : schema.StoresApart)
    (ih : ∀ shape ∈ schema.shapes, ∀ f ∈ shape.fields, f.schema.Branches) (nonnull : value ≠ .null)
    (countable : value.Countable) (ok : schema.Accepts value a sliced) : ∃ named : List (String × Writes),
      schema.writes value a sliced = (Trace.openBlock a sliced).writes ++ named.flatMap Prod.snd ∧
      (named.map Prod.fst).Nodup ∧
      (∀ part ∈ named, isFieldName part.1 = true ∧ Tree ((a.block sliced).member part.1) part.2) ∧
      ∀ part ∈ named, ∃ shape ∈ schema.shapes, ∃ f ∈ shape.fields, part.1 ∈ f.places := by
  obtain ⟨members, rfl, -, accepted, written⟩ := ok.block block valid nonnull
  have own := shapeFor_mem_shapes block members
  have sound := valid.soundShape own
  refine ⟨(heldFields members (schema.shapeFor members).fields).map fun held =>
    (held.1.place held.2, heldWrites (a.block sliced) held), ?_, ?_, ?_, ?_⟩
  · rw [written, List.flatMap_map]
  · rw [List.map_map]
    exact nodup_places (apart.places _ (.self _) _ own) members
  · refine List.forall_mem_map.2 fun held mem => ?_
    have declared := (mem_heldFields_iff.1 mem).1
    have inner := Json.countable_hereditary.part countable (held_mem_parts block mem)
    exact ⟨sound.place_usable declared held.2, (ih _ own held.1 declared).tree inner (accepted held mem)⟩
  · refine List.forall_mem_map.2 fun held mem => ?_
    exact ⟨_, own, held.1, (mem_heldFields_iff.1 mem).1, place_mem_places held.1 held.2⟩

private theorem branches_block (block : schema.isBlock = true) (valid : schema.Valid) (apart : schema.StoresApart)
    (ih : ∀ shape ∈ schema.shapes, ∀ f ∈ shape.fields, f.schema.Branches) : schema.Branches where
  tree := by
    intro value a sliced countable ok
    by_cases null : value = .null
    · rw [null, writes_null]
      exact .nothing
    obtain ⟨named, written, nodup, each, -⟩ := exists_named block valid apart ih null countable ok
    have inner : Tree (a.block sliced) (named.flatMap Prod.snd) := .members nodup each
    rw [written]
    by_cases own : (sliced || a.isRoot) = true
    · simpa [Address.block, Trace.openBlock, Trace.empty, own] using inner
    · -- the block is the only element of a collection
      have block_eq : a.block sliced = a.index 0 := if_neg own
      have opened : (Trace.openBlock a sliced).writes = [(.count a, .int (.ofNat 1))] := by
        rw [Trace.openBlock, if_neg own]
        rfl
      have single : Tree a ((.count a, .int (.ofNat [()].length)) ::
          [()].zipIdx.flatMap fun _ => named.flatMap Prod.snd) := by
        refine .items (by decide) fun part mem => ?_
        rw [List.mem_singleton.1 mem]
        exact block_eq ▸ inner
      rw [opened]
      simpa using single
  entry := by
    intro member a free countable ok
    have below : schema.entryAddress a = a := by simp [entryAddress, block]
    rw [below, block] at ok
    rw [entryWrites, below, block]
    by_cases null : member.2 = .null
    · have key : Tree a ((.leaf (a.member mapKeyField), .string member.1) ::
          ([] : List (String × Writes)).flatMap Prod.snd) :=
        entry_tree member.1 List.nodup_nil (by simp) (by simp)
      rw [null, writes_null]
      exact key
    · obtain ⟨named, written, nodup, each, places⟩ := exists_named block valid apart ih null countable ok
      rw [written]
      refine entry_tree member.1 nodup each fun part mem same => ?_
      obtain ⟨shape, own, f, declared, place⟩ := places part mem
      exact free shape own f declared (same ▸ place)

theorem branches (valid : schema.Valid) (apart : schema.StoresApart) : schema.Branches := by
  induction schema using formInduction with
  | scalar kind => exact branches_scalar kind
  | items schema c form ih =>
    exact branches_items form (ih (valid.element form).2 (apart.child (items_mem_children form)))
  | map element ih =>
    obtain ⟨-, open_key, element_valid⟩ := valid_map_iff.1 valid
    refine branches_map (ih element_valid (apart.child (entry_mem_children element))) ?_
    intro shape own f declared mem
    rcases List.mem_cons.1 mem with name | segment
    · exact hidesMapKey_eq_false_iff.1 open_key shape own f declared name.symm
    · exact apart.keys element (.self _) shape own f declared segment
  | block schema block ih =>
    refine branches_block block valid apart fun shape own f declared => ?_
    have below := apart.child (field_mem_children own declared)
    exact ih shape own f declared ((valid.soundShape own).field_valid f declared) below

end Schema

/-! ### Stores -/

structure Store.TreeShaped (s : Store) : Prop where
  /-- Every key is an address that can be read from its text, or the count of one. -/
  readable : ∀ key ∈ s.keys, ∃ a : Address, Address.parse? a.text = some a ∧ (key = a.text ∨ key = a.countKey)
  /-- Where a key goes on from an address with an index, the count of the address is stored and larger. -/
  counted : ∀ key ∈ s.keys, ∀ (p : Address) (i : Nat), (p.index i).Covers key →
    ∃ n : Int64, s.get? p.countKey = some (.int n) ∧ (i : Int) < n.toInt
  /-- Where a scalar stands at an address no other key goes on from it, nor does the address have a count. -/
  alone : ∀ a : Address, a.text ∈ s.keys → ∀ key ∈ s.keys, a.Covers key → key = a.text

theorem Tree.treeShaped {s : Store} {writes : Writes} (tree : Tree .root writes)
    (entries : s.toList = writes.entries) : s.TreeShaped := by
  have written : ∀ {key}, key ∈ s.keys → ∃ entry ∈ writes, key = entry.1.key := by
    intro key mem
    rw [Store.keys, entries, Writes.names_entries, Writes.slots, List.map_map] at mem
    obtain ⟨entry, held, same⟩ := List.mem_map.1 mem
    exact ⟨entry, held, same.symm⟩
  refine ⟨fun key mem => ?_, fun key mem p i covers => ?_, fun a leaf key mem covers => ?_⟩
  · obtain ⟨entry, held, rfl⟩ := written mem
    refine ⟨entry.1.address, Address.parse?_text fun i inside => tree.index_lt held inside, ?_⟩
    cases entry.1 with
    | leaf a => exact .inl rfl
    | count a => exact .inr rfl
  · obtain ⟨entry, held, rfl⟩ := written mem
    obtain ⟨n, less, small, count⟩ := tree.counted held List.nil_prefix (Slot.covers_key_iff.1 covers)
    refine ⟨.ofNat n, ?_, ?_⟩
    · rw [show p.countKey = (Slot.count p).key from rfl, Store.get?_eq_some_iff, entries, Writes.mem_entries_iff]
      exact count
    · rw [Int64.toInt_ofNat_of_lt small]
      omega
  · obtain ⟨entry, held, rfl⟩ := written mem
    obtain ⟨⟨slot, value⟩, scalar, same⟩ := written leaf
    have here : slot = .leaf a := Slot.key_injective same.symm
    subst here
    rw [tree.alone scalar held (Slot.covers_key_iff.1 covers)]
    rfl

namespace Schema

/-- The store of a document has the shape of a tree, if its schema stores all fields apart. -/
theorem treeShaped_of_flatten {schema : Schema} {value : Json} {s : Store} (valid : schema.Valid)
    (apart : schema.StoresApart) (countable : value.Countable) (stored : schema.flatten value false = .ok s) :
    s.TreeShaped := by
  have accepted := (flatten_eq_ok_iff.1 stored).1
  have once := (nodup_slots_iff valid accepted).2 (apart_of_places apart.places value)
  exact ((branches valid apart).tree countable accepted).treeShaped (toList_of_nodup stored once)

def team : Shape Schema :=
  let tap : Shape Schema := ⟨"Tap", [⟨"type", "type", .scalar .string, true, false, [], none⟩]⟩
  ⟨"Team", [.plain "city" (.scalar .string), .plain "players" (.list (.of (.scalar .string))),
    ⟨"event", "event", .union ⟨"Event", ⟨"type", "type"⟩, [⟨"Tap", ["tap"], some "tap", tap⟩], tap⟩, true, false, [],
      none⟩]⟩

/-- Two teams by their names, one of them with a tap. -/
def twoTeams : List (String × Json) :=
  [("red", .object [("city", .string "York"), ("players", .array [.string "Ann", .string "Bob"]),
    ("event", .object [("type", .string "tap")])]), ("blue", .object [("city", .string ""), ("players", .array [])])]

theorem treeShaped_of_flatten_twoTeams : (map (.object team)).Valid ∧ (map (.object team)).StoresApart ∧
    (Json.object twoTeams).Countable ∧
      ∃ s, (map (.object team)).flatten (.object twoTeams) false = .ok s ∧ s.TreeShaped := by
  have valid : (map (.object team)).Valid := by decide
  have restorable : (map (.object team)).Restorable := by decide
  have apart := restorable.storesApart
  have countable : (Json.object twoTeams).Countable := by
    simp [twoTeams, Json.Countable, Json.CountableItems, Json.CountableMembers]
  have accepted : ∀ member ∈ twoTeams, (object team).Accepts member.2 .root true := by
    simp only [Accepts]
    decide
  have fits : (map (.object team)).Fits (.object twoTeams) :=
    fits_map fun member mem => (accepted member mem).fits (valid_map_iff.1 valid).2.2
  have stored := flatten_eq_ok_iff.2 ⟨fits .root false, rfl⟩
  exact ⟨valid, apart, countable, _, stored, treeShaped_of_flatten valid apart countable stored⟩

end Schema
end FlatStore
