import FlatStore.Proofs.Rendering
import FlatStore.Proofs.Scope
import FlatStore.Proofs.Tree

/-!
Backings. Not only stores answer reads by address: a single scalar, a list or a set of scalars and a JSON tree do so
without a key being written anywhere. Each of these has an image, the store of its leaves and its lengths, and answers
as the image does (`Backing.answers_as_image`).

Only the root is special. A store has no scalar at the root of a collection, while a list or set of one element answers
that element there, and a collection of more is refused. No schema but a scalar reads the root, so that documents are
resolved alike, unless the image is the smaller one by so much that it refuses a count.
-/
namespace FlatStore

/-! ### The leaves and lengths of a tree -/

namespace Json

mutual
/-- Whether all members inside of a value can be named in an address. -/
def Usable : Json → Prop
  | .array items => UsableItems items
  | .object members => UsableMembers members
  | _ => True
def UsableItems : List Json → Prop
  | [] => True
  | item :: rest => item.Usable ∧ UsableItems rest
def UsableMembers : List (String × Json) → Prop
  | [] => True
  | (name, value) :: rest => (isFieldName name = true ∧ value.Usable) ∧ UsableMembers rest
end

theorem usableItems_iff {items : List Json} : UsableItems items ↔ ∀ item ∈ items, item.Usable := by
  induction items with
  | nil => simp [UsableItems]
  | cons item rest ih => rw [UsableItems, ih, List.forall_mem_cons]

theorem usableMembers_iff {members : List (String × Json)} :
    UsableMembers members ↔ ∀ member ∈ members, isFieldName member.1 = true ∧ member.2.Usable := by
  induction members with
  | nil => simp [UsableMembers]
  | cons member rest ih => rw [UsableMembers, ih, List.forall_mem_cons]

/-- The length of an array. -/
def length? : Json → Option Nat
  | .array items => some items.length
  | _ => none

mutual
/-- The leaves in a value under their addresses, and the lengths of the arrays in it. -/
def writesAt : Json → Address → Writes
  | .array items, a => (.count a, .int (.ofNat items.length)) :: itemWrites items a 0
  | .object members, a => memberWrites members a
  | leaf, a => ((Scalar.ofJson? leaf).map (.leaf a, ·)).toList
def itemWrites : List Json → Address → Nat → Writes
  | [], _, _ => []
  | item :: rest, a, i => item.writesAt (a.index i) ++ itemWrites rest a (i + 1)
def memberWrites : List (String × Json) → Address → Writes
  | [], _ => []
  | (name, value) :: rest, a => value.writesAt (a.member name) ++ memberWrites rest a
end

/-- What a value itself stores at its address, besides what is in it. -/
def nodeAt (value : Json) : Slot → Option Scalar
  | .leaf _ => Scalar.ofJson? value
  | .count _ => value.length?.map fun n => .int (.ofNat n)

variable {v : Json} {items : List Json} {members : List (String × Json)} {a : Address} {entry : Slot × Scalar}

theorem mem_itemWrites_iff {i : Nat} :
    entry ∈ itemWrites items a i ↔
      ∃ (j : Nat) (item : Json), items[j]? = some item ∧ entry ∈ item.writesAt (a.index (i + j)) := by
  induction items generalizing i with
  | nil => simp [itemWrites]
  | cons item rest ih =>
    rw [itemWrites, List.mem_append, ih]
    constructor
    · rintro (here | ⟨j, part, found, mem⟩)
      · exact ⟨0, item, rfl, here⟩
      · exact ⟨j + 1, part, found, by rwa [show i + (j + 1) = i + 1 + j by omega]⟩
    · rintro ⟨j, part, found, mem⟩
      cases j with
      | zero =>
        cases found
        exact .inl mem
      | succ j => exact .inr ⟨j, part, found, by rwa [show i + 1 + j = i + (j + 1) by omega]⟩

theorem mem_memberWrites_iff :
    entry ∈ memberWrites members a ↔ ∃ member ∈ members, entry ∈ member.2.writesAt (a.member member.1) := by
  induction members with
  | nil => simp [memberWrites]
  | cons member rest ih => rw [memberWrites, List.mem_append, ih, List.exists_mem_cons_iff]

/-- Whether what is written for a value are the leaves and lengths that segments lead to in it. -/
def Spread (v : Json) : Prop :=
  ∀ (a : Address) (slot : Slot) (x : Scalar), (slot, x) ∈ v.writesAt a ↔
    ∃ path part, slot.address = a.below path ∧ Source.lookup path v = some part ∧ part.nodeAt slot = some x

private theorem spread_leaf (noArray : ∀ items, v ≠ .array items) (noObject : ∀ members, v ≠ .object members) :
    v.Spread := by
  intro a slot x
  have inside : ∀ path part, Source.lookup path v = some part ↔ path = [] ∧ v = part := by
    intro path part
    cases path with
    | nil => simp [Source.lookup]
    | cons segment rest => cases v <;> cases segment <;> simp [Source.lookup] at noArray noObject ⊢
  have writes : v.writesAt a = ((Scalar.ofJson? v).map (Slot.leaf a, ·)).toList := by
    cases v <;> simp [writesAt] at noArray noObject ⊢
  have length : v.length? = none := by
    cases v <;> simp [length?] at noArray ⊢
  rw [writes]
  constructor
  · intro mem
    obtain ⟨y, leaf, same⟩ := Option.map_eq_some_iff.1 (Option.mem_toList.1 mem)
    cases same
    exact ⟨[], v, a.below_nil.symm, rfl, leaf⟩
  · rintro ⟨path, part, here, found, node⟩
    obtain ⟨rfl, rfl⟩ := (inside _ _).1 found
    cases slot with
    | leaf b =>
      have same : b = a := here.trans a.below_nil
      rw [same, show Scalar.ofJson? v = some x from node]
      simp
    | count b => simp [nodeAt, length] at node

private theorem spread_array (ih : ∀ item ∈ items, item.Spread) : (array items).Spread := by
  intro a slot x
  rw [writesAt, List.mem_cons, mem_itemWrites_iff]
  constructor
  · rintro (own | ⟨i, item, found, mem⟩)
    · cases own
      exact ⟨[], .array items, a.below_nil.symm, rfl, rfl⟩
    · rw [Nat.zero_add, ih item (List.mem_of_getElem? found)] at mem
      obtain ⟨path, part, here, below, node⟩ := mem
      refine ⟨.index i :: path, part, here.trans (a.below_cons _ path), ?_, node⟩
      rw [Source.lookup, found]
      exact below
  · rintro ⟨path, part, here, found, node⟩
    cases path with
    | nil =>
      cases found
      cases slot with
      | leaf b => cases node
      | count b =>
        cases node
        have same : b = a := here.trans a.below_nil
        exact .inl (by rw [same])
    | cons segment path =>
      cases segment with
      | field name => cases found
      | index i =>
        obtain ⟨item, held, below⟩ := Option.bind_eq_some_iff.1 found
        refine .inr ⟨i, item, held, ?_⟩
        rw [Nat.zero_add, ih item (List.mem_of_getElem? held)]
        exact ⟨path, part, here.trans (a.below_cons _ path).symm, below, node⟩

private theorem spread_object (nodup : (members.map Prod.fst).Nodup)
    (usable : ∀ member ∈ members, isFieldName member.1 = true) (ih : ∀ member ∈ members, member.2.Spread) :
    (object members).Spread := by
  intro a slot x
  rw [writesAt, mem_memberWrites_iff]
  constructor
  · rintro ⟨⟨name, value⟩, held, mem⟩
    rw [ih _ held] at mem
    obtain ⟨path, part, here, below, node⟩ := mem
    refine ⟨.field ⟨name, usable _ held⟩ :: path, part, ?_, ?_, node⟩
    · rw [here, Address.member_eq (usable _ held), Address.below_cons]
    · rw [Source.lookup, (lookup_eq_some_iff_mem nodup).2 held]
      exact below
  · rintro ⟨path, part, here, found, node⟩
    cases path with
    | nil =>
      cases found
      cases slot <;> cases node
    | cons segment path =>
      cases segment with
      | index i => cases found
      | field name =>
        obtain ⟨value, held, below⟩ := Option.bind_eq_some_iff.1 found
        have mem := (lookup_eq_some_iff_mem nodup).1 held
        refine ⟨_, mem, ?_⟩
        rw [ih _ mem, Address.member_eq (usable _ mem)]
        exact ⟨path, part, here.trans (a.below_cons _ path).symm, below, node⟩

/-- What is written for a tree are the leaves and lengths that segments lead to in it. -/
theorem spread (distinct : v.Distinct) (usable : v.Usable) : v.Spread := by
  induction v using partInduction with
  | null | bool | whole | float | string => exact spread_leaf nofun nofun
  | array items ih =>
    refine spread_array fun item mem => ih item mem ?_ (usableItems_iff.1 usable item mem)
    exact distinct_hereditary.item distinct mem
  | object members ih =>
    have each := usableMembers_iff.1 usable
    refine spread_object distinct.1 (fun member mem => (each member mem).1) fun member mem => ?_
    exact ih member mem (distinct_hereditary.member distinct mem) (each member mem).2

/-- What passes on to the values inside of a value passes on to those that segments lead to. -/
theorem Hereditary.reached {P : Json → Prop} (passes : Hereditary P) {path : List Segment} {part : Json} (holds : P v)
    (found : Source.lookup path v = some part) : P part := by
  induction path generalizing v with
  | nil =>
    cases found
    exact holds
  | cons segment path ih =>
    cases segment with
    | field name =>
      cases v with
      | object members =>
        obtain ⟨value, held, below⟩ := Option.bind_eq_some_iff.1 found
        exact ih (passes.lookup holds held) below
      | null | bool | whole | float | string | array => cases found
    | index i =>
      cases v with
      | array items =>
        obtain ⟨item, held, below⟩ := Option.bind_eq_some_iff.1 found
        exact ih (passes.item holds (List.mem_of_getElem? held)) below
      | null | bool | whole | float | string | object => cases found

end Json

/-! ### Backings -/

/-- What a source can be made of, other than a store. -/
inductive Backing where
  | single (value : Option Scalar)
  | list (items : List Scalar)
  | set (items : List Scalar)
  | tree (value : Json)

namespace Backing

/-- The source that a backing is. -/
def source : Backing → Source
  | .single value => .single value
  | .list items => .ofList items
  | .set items => .ofSet items
  | .tree value => .ofTree value

/-- The elements of a list or a set, in the order of their indices. -/
def elements : Backing → List Scalar
  | .list items => items
  | .set items => Scalar.sort (Source.distinct items)
  | .single _ | .tree _ => []

/-- Whether the lengths in a backing have 64 bits with a sign, as they do in memory, no object names a member twice, and
all members can be named in an address. -/
def Fits : Backing → Prop
  | .tree value => value.Distinct ∧ value.Countable ∧ value.Usable
  | b => b.elements.length < 2 ^ 63

/-- Elements under their indices, and their number. -/
def elementWrites (elements : List Scalar) : Writes :=
  (.count .root, .int (.ofNat elements.length)) ::
    elements.zipIdx.map fun part => (.leaf (Address.root.index part.2), part.1)

/-- The leaves of a backing and the lengths of its collections. -/
def writes : Backing → Writes
  | .single value => (value.map (.leaf .root, ·)).toList
  | .tree value => value.writesAt .root
  | b => elementWrites b.elements

/-- The store that holds the leaves of a backing and the lengths of its collections. -/
def image (b : Backing) : Store := .ofList b.writes.entries

/-- What elements have at a slot. -/
def elementAt (elements : List Scalar) : Slot → Option Scalar
  | .count a => if a.isRoot then some (.int (.ofNat elements.length)) else none
  | .leaf ⟨[.index i]⟩ => elements[i]?
  | .leaf _ => none

/-- What a backing has at a slot. -/
def held : Backing → Slot → Option Scalar
  | .single value, slot => if slot = .leaf .root then value else none
  | .tree value, slot => (Source.lookup slot.address.segments value).bind (·.nodeAt slot)
  | b, slot => elementAt b.elements slot

variable {b : Backing} {slot : Slot} {x : Scalar} {a : Address}

theorem mem_elementWrites_iff {elements : List Scalar} :
    (slot, x) ∈ elementWrites elements ↔ elementAt elements slot = some x := by
  rw [elementWrites, List.mem_cons, List.mem_map]
  constructor
  · rintro (own | ⟨⟨y, i⟩, mem, same⟩)
    · cases own
      rfl
    · cases same
      exact List.mk_mem_zipIdx_iff_getElem?.1 mem
  · intro found
    unfold elementAt at found
    split at found
    · next a =>
      obtain ⟨root, same⟩ := Option.ite_none_right_eq_some.1 found
      cases same
      exact .inl (by rw [show a = .root from congrArg Address.mk (List.isEmpty_iff.1 root)])
    · next i => exact .inr ⟨(x, i), List.mk_mem_zipIdx_iff_getElem?.2 found, rfl⟩
    · cases found

theorem mem_writes_iff (fits : b.Fits) : (slot, x) ∈ b.writes ↔ b.held slot = some x := by
  cases b with
  | single value =>
    cases value with
    | none => simp [writes, held]
    | some y => simp [writes, held, eq_comm]
  | list items | set items => exact mem_elementWrites_iff
  | tree value =>
    obtain ⟨distinct, -, usable⟩ := fits
    rw [writes, Json.spread distinct usable, held, Option.bind_eq_some_iff]
    constructor
    · rintro ⟨path, part, here, found, node⟩
      exact ⟨part, by rw [here]; exact found, node⟩
    · rintro ⟨part, found, node⟩
      exact ⟨_, part, rfl, found, node⟩

/-- The image holds just what the backing has. -/
theorem get?_image (fits : b.Fits) (slot : Slot) : b.image.get? slot.key = b.held slot := by
  refine Option.ext fun x => ?_
  rw [Store.get?_eq_some_iff, image, Store.toList_ofList, ← mem_writes_iff fits]
  constructor
  · exact fun mem => Writes.mem_entries_iff.1 (mem_of_mem_membersOf mem)
  · intro mem
    have written : slot.key ∈ b.writes.entries.map Prod.fst := List.mem_map.2 ⟨_, Writes.mem_entries_iff.2 mem, rfl⟩
    obtain ⟨⟨key, y⟩, stored, rfl⟩ := List.mem_map.1 (mem_names_membersOf_iff.2 written)
    have also := Writes.mem_entries_iff.1 (mem_of_mem_membersOf stored)
    rw [mem_writes_iff fits] at mem also
    rw [mem] at also
    cases also
    exact stored

/-! ### Answers -/

theorem countOf_length {n : Nat} (small : n < 2 ^ 63) : countOf a (some (.int (.ofNat n))) = .ok (some n) := by
  rw [countOf, Int64.toInt_ofNat_of_lt small, if_pos (by omega)]
  rfl

theorem count_eq (fits : b.Fits) (a : Address) : b.source.count a = countOf a (b.held (.count a)) := by
  have elements : ∀ {items : List Scalar}, items.length < 2 ^ 63 →
      (Source.ofList items).count a = countOf a (elementAt items (.count a)) := by
    intro items small
    rw [Source.ofList, elementAt]
    dsimp only
    split
    · rw [countOf_length small]
    · rfl
  cases b with
  | single value => rfl
  | list items => exact elements fits
  | set items => exact elements fits
  | tree value =>
    simp only [source, Source.ofTree, held, Slot.address]
    cases found : Source.lookup a.segments value with
    | none => rfl
    | some part =>
      cases part with
      | array items => exact (countOf_length (Json.countable_hereditary.reached fits.2.1 found).1).symm
      | null | bool | whole | float | string | object => rfl

/-- Below the root a backing answers the scalars that it has. -/
theorem get_eq (below : a.isRoot = false) : b.source.get a = .ok (b.held (.leaf a)) := by
  have elements : ∀ {items : List Scalar}, (Source.ofList items).get a = .ok (elementAt items (.leaf a)) := by
    intro items
    obtain ⟨segments⟩ := a
    match segments, below with
    | [.index i], _ => rfl
    | .index i :: _ :: _, _ => rfl
    | .field name :: _, _ => rfl
  cases b with
  | single value =>
    have other : Slot.leaf a ≠ .leaf .root := by
      rintro same
      cases same
      cases below
    simp only [held, if_neg other, source, Source.single, below]
    rfl
  | list items | set items => exact elements
  | tree value =>
    simp only [source, Source.ofTree, held, Slot.address, below]
    cases Source.lookup a.segments value with
    | none => rfl
    | some part =>
      cases part with
      | array items => rfl
      | null | bool | whole | float | string | object => rfl

/-- How a source with some elements at the root answers there: more than one collide, one stands for itself, and
otherwise there is the scalar that is given. -/
structure AnswersRoot (source : Source) (elements : List Scalar) (given : Option Scalar) : Prop where
  ambiguous : ∀ n, source.count .root = .ok (some n) → 1 < n → source.get .root = .error (.ambiguousRoot "" n)
  single : ∀ x, elements = [x] → source.get .root = .ok (some x)
  other : elements.length ≠ 1 → (∀ n, source.count .root = .ok (some n) → n ≤ 1) → source.get .root = .ok given

/-- Without elements and without a collection at the root there is just a scalar, or nothing. -/
theorem answersRoot_of_uncounted {source : Source} {given : Option Scalar} (uncounted : source.count .root = .ok none)
    (get : source.get .root = .ok given) : AnswersRoot source [] given where
  ambiguous := by
    intro n counted
    rw [uncounted] at counted
    cases counted
  single := by
    rintro x ⟨⟩
  other := fun _ _ => get

theorem answersRoot_ofList (items : List Scalar) : AnswersRoot (.ofList items) items none where
  ambiguous := by
    rintro n ⟨⟩ more
    match items with
    | [] | [_] => simp at more
    | _ :: _ :: _ => rfl
  single := by
    rintro x rfl
    rfl
  other := by
    intro many few
    have less := few _ rfl
    have none : items = [] := List.length_eq_zero_iff.1 (by omega)
    rw [none]
    rfl

theorem answersRoot_ofTree (value : Json) : AnswersRoot (.ofTree value) [] (Scalar.ofJson? value) := by
  cases value with
  | array items =>
    have get : (Source.ofTree (.array items)).get .root =
        if 1 < items.length then .error (.ambiguousRoot "" items.length) else .ok none := by
      simp [Source.ofTree, Source.lookup, Address.root, Address.isRoot, Address.text]
    refine ⟨?_, ?_, fun _ few => ?_⟩
    · rintro n ⟨⟩ more
      rw [get, if_pos more]
    · rintro x ⟨⟩
    · rw [get, if_neg (Nat.not_lt.2 (few _ rfl))]
      rfl
  | null | bool | whole | float | string | object => exact answersRoot_of_uncounted rfl rfl

theorem answersRoot (b : Backing) : AnswersRoot b.source b.elements (b.held (.leaf .root)) := by
  cases b with
  | single value => exact answersRoot_of_uncounted rfl rfl
  | list items | set items => exact answersRoot_ofList _
  | tree value => exact answersRoot_ofTree value

/-! ### Images -/

theorem count_image (fits : b.Fits) (a : Address) : b.image.source.count a = b.source.count a :=
  (congrArg (countOf a) (get?_image fits (.count a))).trans (count_eq fits a).symm

theorem get_image (fits : b.Fits) (a : Address) : b.image.source.get a = .ok (b.held (.leaf a)) :=
  congrArg Except.ok (get?_image fits (.leaf a))

theorem size?_source : b.source.size? = none := by
  cases b <;> rfl

/-- A backing answers as its image does, but for the scalar at the root. -/
theorem mirrors_image (fits : b.Fits) : b.image.source.MirrorsBelow b.source sparing .root .root := by
  have backs : b.image.source.Backs b.source sparing :=
    .inr ⟨fun place n entries => ⟨place, n, entries, rfl⟩, fun m known => by cases size?_source.symm.trans known⟩
  have size : ∀ a, Corresponds sparing Eq ((b.image.source.count a).mapError .store)
      ((b.source.count a).mapError .store) := by
    intro a
    rw [count_image fits]
    exact .self _
  have child : ∀ segment,
      b.image.source.Mirrors b.source sparing (Address.root.child segment) (Address.root.child segment) := by
    intro segment
    refine ⟨fun _ _ _ => rfl, fun rest => ?_, fun rest => size _, backs⟩
    have below := Address.isRoot_below (Address.isRoot_child (a := .root) segment) rest
    rw [Schema.stored, Schema.stored, get_image fits, get_eq below]
    exact .self _
  exact ⟨fun _ _ => rfl, size .root, child, backs⟩

/-- All backings answer as the flat store that is their image does. The sizes are the same at all addresses, and the
scalars below the root. At the root a list or set of one answers its element, and more than one element is an error.
Documents are resolved alike by every valid schema but that of a scalar, if no count is refused in the image. -/
theorem answers_as_image (fits : b.Fits) :
    (∀ a, b.source.count a = b.image.source.count a) ∧
    (∀ a, a.isRoot = false → b.source.get a = b.image.source.get a) ∧
    (∀ n, b.source.count .root = .ok (some n) → 1 < n → b.source.get .root = .error (.ambiguousRoot "" n)) ∧
    (∀ x, b.elements = [x] → b.source.get .root = .ok (some x)) ∧
    (b.elements.length ≠ 1 → (∀ n, b.source.count .root = .ok (some n) → n ≤ 1) →
      b.source.get .root = b.image.source.get .root) ∧
    ∀ schema : Schema, schema.Valid → (∀ kind, schema ≠ .scalar kind) →
      Unrefused (schema.resolveRoot b.image.source) →
        schema.resolveRoot b.source = schema.resolveRoot b.image.source := by
  obtain ⟨ambiguous, single, other⟩ := b.answersRoot
  refine ⟨fun a => (count_image fits a).symm, fun a below => ?_, ambiguous, single, fun many few => ?_, ?_⟩
  · rw [get_eq below, get_image fits]
  · rw [other many few, get_image fits]
  · intro schema valid inner
    exact (Schema.resolve_corresponds_of_below inner valid (mirrors_image fits) rfl).follows

/-- The words of a line. -/
def words : List Json := [.string "flat", .string "store"]

/-- A tree of two words cannot be read as one at its root, and is resolved as a list as its image is. -/
theorem answers_as_image_words :
    let b := Backing.tree (.array words)
    let schema := Schema.list (.of (.scalar .string))
    b.Fits ∧ schema.Valid ∧ (∀ kind, schema ≠ .scalar kind) ∧ Unrefused (schema.resolveRoot b.image.source) ∧
      b.source.get .root = .error (.ambiguousRoot "" 2) ∧
      schema.resolveRoot b.source = schema.resolveRoot b.image.source := by
  intro b schema
  have fits : b.Fits := by
    simp [b, words, Fits, Json.Distinct, Json.DistinctItems, Json.Countable, Json.CountableItems, Json.Usable,
      Json.UsableItems]
  have valid : schema.Valid := by decide
  have inner : ∀ kind, schema ≠ .scalar kind := by simp [schema]
  have read : schema.resolveRoot b.image.source = .ok (some (.array words)) := by decide +kernel
  have unrefused : Unrefused (schema.resolveRoot b.image.source) := by
    intro place n entries refused
    rw [read] at refused
    cases refused
  obtain ⟨-, -, ambiguous, -, -, resolved⟩ := answers_as_image fits
  exact ⟨fits, valid, inner, unrefused, ambiguous 2 rfl (by decide), resolved schema valid inner unrefused⟩

end Backing
end FlatStore
