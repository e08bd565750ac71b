import FlatStore.Proofs.Comparison
import FlatStore.Source
import Mathlib.Data.Finset.Card
import Mathlib.Data.List.Perm.Basic

/-!
Sets of scalars as sources. A set answers what its elements are, and neither in which order nor how often they were
given (`Source.elements_determine`): of the scalars that are the same the first is kept, and those that are kept stand in
the one order in which each is less than the next.
-/
namespace FlatStore

/-! ### Scalars in their order -/

namespace Scalar

variable {first second : List Scalar}

/-- The scalars of a list as a set: without their order and number, and without the signs of zeros. -/
def elements (scalars : List Scalar) : Finset Scalar := (scalars.map plain).toFinset

theorem plain_plain (a : Scalar) : a.plain.plain = a.plain := by
  cases a with
  | float x =>
    cases x with
    | finite x =>
      simp only [plain, Binary64.plain, Finite64.plain]
      split <;> rfl
    | infinite | nan => rfl
  | bool | int | string => rfl

theorem orderKey_plain (a : Scalar) : a.plain.orderKey = a.orderKey :=
  plain_eq_iff.1 a.plain_plain

theorem sort_perm (scalars : List Scalar) : (sort scalars).Perm scalars :=
  List.mergeSort_perm scalars le

theorem ascending_sort {scalars : List Scalar} (nodup : (scalars.map plain).Nodup) : (sort scalars).Pairwise Less := by
  have sorted : (sort scalars).Pairwise fun a b => a.orderKey ≤ b.orderKey :=
    pairwise_mergeSort_of_key @le_iff scalars
  have apart : (sort scalars).Pairwise fun a b => a.plain ≠ b.plain :=
    List.pairwise_map.1 (((sort_perm scalars).map plain).nodup_iff.2 nodup)
  refine (sorted.and apart).imp ?_
  rintro a b ⟨most, other⟩
  rw [less_iff]
  exact lt_of_le_of_ne most fun keys => other (plain_eq_iff.2 keys)

theorem map_sort (scalars : List Scalar) : (sort scalars).map plain = sort (scalars.map plain) := by
  refine List.map_mergeSort fun a _ b _ => ?_
  rw [Bool.eq_iff_iff, le_iff, le_iff, orderKey_plain, orderKey_plain]

theorem map_sort_eq_of_perm (perm : (first.map plain).Perm (second.map plain)) :
    (sort first).map plain = (sort second).map plain := by
  rw [map_sort, map_sort]
  refine mergeSort_eq_of_perm @le_iff perm fun a mem b mem' keys => ?_
  obtain ⟨x, -, rfl⟩ := List.mem_map.1 mem
  obtain ⟨y, -, rfl⟩ := List.mem_map.1 mem'
  rw [orderKey_plain, orderKey_plain] at keys
  exact plain_eq_iff.2 keys

end Scalar

namespace Source

open Scalar (elements)

variable {items others : List Scalar} {x : Scalar} {a : Address}

/-! ### Each scalar once -/

theorem distinct_concat (items : List Scalar) (item : Scalar) : distinct (items ++ [item]) =
    if item.plain ∈ (distinct items).map Scalar.plain then distinct items else distinct items ++ [item] := by
  have known : (distinct items).any (·.same item) = true ↔ item.plain ∈ (distinct items).map Scalar.plain := by
    rw [List.any_eq_true, List.mem_map]
    exact exists_congr fun y => and_congr_right fun _ => Scalar.same_iff
  rw [distinct, List.foldl_append, List.foldl_cons, List.foldl_nil, ← distinct]
  simp only [known]

theorem mem_map_distinct_iff : x ∈ (distinct items).map Scalar.plain ↔ x ∈ items.map Scalar.plain := by
  induction items using List.reverseRecOn with
  | nil => rfl
  | append_singleton items item ih =>
    rw [distinct_concat, List.map_append, List.mem_append, ← ih]
    split
    · next known =>
      refine ⟨.inl, ?_⟩
      rintro (earlier | last)
      · exact earlier
      · rwa [List.mem_singleton.1 last]
    · rw [List.map_append, List.mem_append]

theorem nodup_map_distinct (items : List Scalar) : ((distinct items).map Scalar.plain).Nodup := by
  induction items using List.reverseRecOn with
  | nil => exact List.nodup_nil
  | append_singleton items item ih =>
    rw [distinct_concat]
    split
    · exact ih
    · next fresh =>
      rw [List.map_append, List.map_singleton, ← List.concat_eq_append]
      exact ih.concat fresh

/-- Of the scalars that are the same the first is kept. -/
theorem mem_distinct_iff : x ∈ distinct items ↔ items.find? (fun y => y.plain = x.plain) = some x := by
  induction items using List.reverseRecOn with
  | nil => simp [distinct]
  | append_singleton items item ih =>
    have last : [item].find? (fun y => y.plain = x.plain) = some x ↔ item = x := by
      rw [List.find?_singleton, Option.ite_none_right_eq_some, Option.some.injEq]
      exact and_iff_right_of_imp fun same => by rw [same, decide_eq_true rfl]
    have unseen : items.find? (fun y => y.plain = x.plain) = none ↔ x.plain ∉ (distinct items).map Scalar.plain := by
      rw [mem_map_distinct_iff]
      simp
    rw [distinct_concat, List.find?_append, Option.or_eq_some_iff, last, unseen, ← ih]
    split
    · next known =>
      refine (or_iff_left ?_).symm
      rintro ⟨fresh, rfl⟩
      exact fresh known
    · next fresh =>
      rw [List.mem_append, List.mem_singleton, eq_comm (a := x)]
      refine or_congr_right (and_iff_right_of_imp ?_).symm
      rintro rfl
      exact fresh

theorem toFinset_map_distinct (items : List Scalar) : ((distinct items).map Scalar.plain).toFinset = elements items := by
  ext x
  rw [elements, List.mem_toFinset, List.mem_toFinset, mem_map_distinct_iff]

theorem length_distinct (items : List Scalar) : (distinct items).length = (elements items).card := by
  rw [← toFinset_map_distinct, List.toFinset_card_of_nodup (nodup_map_distinct items), List.length_map]

/-- The scalars without those that are the same as an earlier one, where the earlier ones with the same hash are looked
at, and compared for equality only. -/
def hashed (hash : Scalar → UInt64) (items : List Scalar) : List Scalar :=
  items.foldl (fun kept item =>
    if kept.any fun k => hash k = hash item ∧ k.plain = item.plain then kept else kept ++ [item]) []

/-- With a hash that does not see the sign of a zero, all scalars that are the same are found. -/
theorem hashed_eq_distinct {hash : Scalar → UInt64} (blind : ∀ a b : Scalar, a.plain = b.plain → hash a = hash b)
    (items : List Scalar) : hashed hash items = distinct items := by
  have same : ∀ k item : Scalar, decide (hash k = hash item ∧ k.plain = item.plain) = k.same item := by
    intro k item
    rw [Bool.eq_iff_iff, decide_eq_true_iff, Scalar.same_iff]
    exact and_iff_right_of_imp (blind k item)
  simp only [hashed, distinct, same]

/-! ### Answers -/

/-- Whether a source enumerates the scalars of a list. -/
structure Enumerates (source : Source) (items : List Scalar) : Prop where
  counted : source.count .root = .ok (some (elements items).card)
  /-- At every index below the size is a scalar of the list, the first of those that are the same. -/
  given : ∀ i < (elements items).card, ∃ x, source.get (Address.root.index i) = .ok (some x) ∧
    items.find? (fun y => y.plain = x.plain) = some x
  found : ∀ x ∈ items, ∃ i < (elements items).card, ∃ y, source.get (Address.root.index i) = .ok (some y) ∧
    y.plain = x.plain
  /-- A scalar at a larger index is greater. -/
  ascending : ∀ i j x y, i < j → source.get (Address.root.index i) = .ok (some x) →
    source.get (Address.root.index j) = .ok (some y) → x.Less y
  /-- Besides the root and these indices there is nothing. -/
  nothing : ∀ a, a ≠ .root → (∀ i < (elements items).card, a ≠ Address.root.index i) → source.get a = .ok none

theorem index_or_nothing (below : a ≠ .root) :
    (∃ i, a = Address.root.index i) ∨ ∀ items, (ofList items).get a = .ok none := by
  obtain ⟨segments⟩ := a
  cases segments with
  | nil => exact absurd rfl below
  | cons segment rest =>
    cases segment with
    | field name => exact .inr fun _ => rfl
    | index i =>
      cases rest with
      | nil => exact .inl ⟨i, rfl⟩
      | cons next more => exact .inr fun _ => rfl

theorem ofSet_enumerates (items : List Scalar) : (ofSet items).Enumerates items := by
  have perm := Scalar.sort_perm (distinct items)
  have size : (Scalar.sort (distinct items)).length = (elements items).card :=
    perm.length_eq.trans (length_distinct items)
  have read : ∀ i, (ofSet items).get (Address.root.index i) = .ok (Scalar.sort (distinct items))[i]? := fun _ => rfl
  have ascending := Scalar.ascending_sort (nodup_map_distinct items)
  refine ⟨?_, ?_, ?_, ?_, ?_⟩
  · rw [← size]
    rfl
  · intro i less
    rw [← size] at less
    refine ⟨_, (read i).trans (congrArg _ (List.getElem?_eq_getElem less)), ?_⟩
    exact mem_distinct_iff.1 (perm.mem_iff.1 (List.getElem_mem less))
  · intro x mem
    obtain ⟨y, kept, same⟩ := List.mem_map.1 (mem_map_distinct_iff.2 (List.mem_map_of_mem mem))
    obtain ⟨i, less, here⟩ := List.getElem_of_mem (perm.mem_iff.2 kept)
    refine ⟨i, size ▸ less, y, ?_, same⟩
    rw [read, List.getElem?_eq_getElem less, here]
  · intro i j x y less first second
    rw [read, Except.ok.injEq] at first second
    obtain ⟨_, rfl⟩ := List.getElem?_eq_some_iff.1 first
    obtain ⟨_, rfl⟩ := List.getElem?_eq_some_iff.1 second
    exact List.pairwise_iff_getElem.1 ascending i j _ _ less
  · intro a below other
    rcases index_or_nothing below with ⟨i, rfl⟩ | nothing
    · have beyond : ¬ i < (elements items).card := fun less => other i less rfl
      rw [read, List.getElem?_eq_none (by omega)]
    · exact nothing _

theorem get_ofList_congr (same : items.map Scalar.plain = others.map Scalar.plain) (a : Address) :
    ((ofList items).get a).map (·.map Scalar.plain) = ((ofList others).get a).map (·.map Scalar.plain) := by
  by_cases root : a = .root
  · subst root
    -- nothing, one scalar, or too many
    rcases items with _ | ⟨x, _ | ⟨x', rest⟩⟩ <;> rcases others with _ | ⟨y, _ | ⟨y', more⟩⟩ <;>
      simp only [List.map_nil, List.map_cons, List.cons.injEq, reduceCtorEq, and_true, and_false] at same
    · rfl
    · exact congrArg (fun z => Except.ok (some z)) same
    · have length : rest.length = more.length := by simpa using congrArg List.length same.2.2
      simp [ofList, Address.root, length]
  · rcases index_or_nothing root with ⟨i, rfl⟩ | nothing
    · change Except.ok (items[i]?.map Scalar.plain) = Except.ok (others[i]?.map Scalar.plain)
      rw [← List.getElem?_map, same, List.getElem?_map]
    · rw [nothing, nothing]

theorem map_sort_distinct_congr (same : elements items = elements others) :
    (Scalar.sort (distinct items)).map Scalar.plain = (Scalar.sort (distinct others)).map Scalar.plain := by
  refine Scalar.map_sort_eq_of_perm ?_
  refine List.perm_of_nodup_nodup_toFinset_eq (nodup_map_distinct items) (nodup_map_distinct others) ?_
  rw [toFinset_map_distinct, toFinset_map_distinct, same]

/-- A set enumerates the scalars that it is made of, whatever hash tells that two of them are the same. Two lists of the
same scalars, in any order and with any repetitions, make sets that answer all reads alike, the signs of zeros aside. -/
theorem elements_determine (items : List Scalar) :
    (ofSet items).Enumerates items ∧
      (∀ hash : Scalar → UInt64, (∀ a b : Scalar, a.plain = b.plain → hash a = hash b) →
        ofSet items = ofList (Scalar.sort (hashed hash items))) ∧
      ∀ others, elements items = elements others → ∀ a,
        ((ofSet items).get a).map (·.map Scalar.plain) = ((ofSet others).get a).map (·.map Scalar.plain) ∧
          (ofSet items).count a = (ofSet others).count a := by
  refine ⟨ofSet_enumerates items, fun hash blind => ?_, fun others same a => ?_⟩
  · rw [hashed_eq_distinct blind]
    rfl
  · have sorted := map_sort_distinct_congr same
    have length : (Scalar.sort (distinct items)).length = (Scalar.sort (distinct others)).length := by
      simpa using congrArg List.length sorted
    refine ⟨get_ofList_congr sorted a, ?_⟩
    simp only [ofSet, ofList, length]

def mixed : List Scalar :=
  [.string "a", .float (.finite ⟨true, 0, Finite64.zero.bounded⟩), .int 3, .float .nan, .float (.finite .zero), .bool true,
    .float .nan]

def mixedAgain : List Scalar :=
  [.bool true, .int 3, .float (.finite .zero), .string "a", .int 3, .float .nan]

def textHash (a : Scalar) : UInt64 := .ofNat a.plain.text.length

/-- The five scalars have the indices up to four, one of them for both zeros. -/
theorem elements_determine_mixed :
    elements mixed = elements mixedAgain ∧ (∀ a b : Scalar, a.plain = b.plain → textHash a = textHash b) ∧
      (ofSet mixed).count .root = .ok (some 5) ∧
      (ofSet mixed).get (Address.root.index 5) = .ok none ∧
      ofSet mixed = ofList (Scalar.sort (hashed textHash mixed)) ∧
      ∀ a, ((ofSet mixed).get a).map (·.map Scalar.plain) = ((ofSet mixedAgain).get a).map (·.map Scalar.plain) := by
  have same : elements mixed = elements mixedAgain := by decide
  have blind : ∀ a b : Scalar, a.plain = b.plain → textHash a = textHash b := by
    intro a b equal
    rw [textHash, textHash, equal]
  have size : (elements mixed).card = 5 := by decide
  obtain ⟨enumerates, hashes, alike⟩ := elements_determine mixed
  refine ⟨same, blind, size ▸ enumerates.counted, ?_, hashes textHash blind, fun a => (alike _ same a).1⟩
  refine enumerates.nothing _ (by decide) fun i less other => ?_
  rw [size] at less
  simp [Address.index] at other
  omega

end Source
end FlatStore
