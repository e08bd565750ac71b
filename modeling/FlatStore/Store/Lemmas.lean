import FlatStore.Json.Members
import FlatStore.Store

/-!
Stores as lists. What a store holds is found in its list (`get?_eq_lookup`), and writing into a store sets a member of
the list (`toList_insert`), so that a key that is there keeps its place and a new one goes last.
-/
namespace FlatStore

namespace Ordered

variable {α : Type}

theorem get?_eq_some_iff {s : Ordered α} {key : String} {order : Int} {value : α} :
    s.get? key order = some value ↔ ⟨key, order, value⟩ ∈ s.entries := by
  constructor
  · intro found
    obtain ⟨e, held, rfl⟩ := Option.map_eq_some_iff.1 found
    have same := List.find?_some held
    simp only [Bool.and_eq_true, decide_eq_true_eq] at same
    obtain ⟨rfl, rfl⟩ := same
    exact List.mem_of_find?_eq_some held
  · intro mem
    have apart := s.sorted
    unfold get?
    generalize s.entries = entries at mem apart
    induction entries with
    | nil => cases mem
    | cons e rest ih =>
      rcases List.mem_cons.1 mem with rfl | mem
      · simp
      · obtain ⟨head, tail⟩ := List.pairwise_cons.1 apart
        have differs : (decide (e.key = key) && decide (e.order = order)) = false := by
          rcases head _ mem with lt | ⟨-, lt⟩
          · simp [Int.ne_of_lt lt]
          · simp [String.ne_of_lt lt]
        rw [List.find?_cons, differs]
        exact ih mem tail

end Ordered

namespace Entry

/-- Putting an entry in the place of one of the same key and order sets the value of its key, if no other entry has
the key. -/
theorem toList_insertInto {α : Type} {key : String} {order : Int} {old value : α} {entries : List (Entry α)}
    (sorted : entries.Pairwise Before) (nodup : (entries.map Entry.key).Nodup) (mem : ⟨key, order, old⟩ ∈ entries) :
    (insertInto ⟨key, order, value⟩ entries).map (fun e => (e.key, e.value)) =
      setMember key value (entries.map fun e => (e.key, e.value)) := by
  induction entries with
  | nil => cases mem
  | cons e rest ih =>
    obtain ⟨head, tail⟩ := List.pairwise_cons.1 sorted
    rw [List.map_cons, List.nodup_cons] at nodup
    rcases List.mem_cons.1 mem with rfl | mem
    · have apart : ∀ v w : α, ¬ Before ⟨key, order, v⟩ ⟨key, order, w⟩ := by
        rintro v w (lt | ⟨-, lt⟩)
        · exact Int.lt_irrefl _ lt
        · exact String.lt_irrefl _ lt
      simp [insertInto, apart, setMember]
    · have before : e.Before ⟨key, order, value⟩ := head ⟨key, order, old⟩ mem
      have notAfter : ¬ Before ⟨key, order, value⟩ e := fun after => Before.irrefl (before.trans after)
      have other : e.key ≠ key := fun same => nodup.1 (same ▸ List.mem_map.2 ⟨_, mem, rfl⟩)
      simp [insertInto, before, notAfter, setMember, other, ih tail nodup.2 mem]

end Entry

namespace Store

variable {s : Store} {key : String} {value : Scalar}

theorem get?_eq_some_iff : s.get? key = some value ↔ (key, value) ∈ s.toList := by
  rw [get?, Option.bind_eq_some_iff, toList, Ordered.toList, List.mem_map]
  constructor
  · rintro ⟨order, -, found⟩
    exact ⟨_, Ordered.get?_eq_some_iff.1 found, rfl⟩
  · rintro ⟨⟨k, order, v⟩, mem, eq⟩
    obtain ⟨rfl, rfl⟩ := Prod.mk.inj eq
    exact ⟨order, (s.coherent k order).2 ⟨v, mem⟩, Ordered.get?_eq_some_iff.2 mem⟩

theorem mem_keys_iff : key ∈ s.keys ↔ ∃ value, (key, value) ∈ s.toList := by
  simp [keys]

/-- A scalar is found under a key as in the list. -/
theorem get?_eq_lookup (s : Store) (key : String) : s.get? key = s.toList.lookup key := by
  refine Option.ext fun value => ?_
  rw [get?_eq_some_iff, lookup_eq_some_iff_mem s.keys_nodup]

theorem index_eq_none_iff : s.index[key]? = none ↔ key ∉ s.keys := by
  rw [mem_keys_iff, toList, Ordered.toList]
  constructor
  · rintro none ⟨value, mem⟩
    obtain ⟨⟨k, order, v⟩, held, eq⟩ := List.mem_map.1 mem
    obtain ⟨rfl, rfl⟩ := Prod.mk.inj eq
    have found := (s.coherent k order).2 ⟨v, held⟩
    rw [none] at found
    cases found
  · intro absent
    refine Option.eq_none_iff_forall_ne_some.2 fun order found => absent ?_
    obtain ⟨value, mem⟩ := (s.coherent key order).1 found
    exact ⟨value, List.mem_map.2 ⟨_, mem, rfl⟩⟩

/-- Writing under a key sets the member of that name. -/
theorem toList_insert (s : Store) (key : String) (value : Scalar) :
    (s.insert key value).toList = setMember key value s.toList := by
  unfold insert
  split
  · next order found =>
    obtain ⟨old, mem⟩ := (s.coherent key order).1 found
    have nodup := s.keys_nodup
    simp only [keys, toList, Ordered.toList, List.map_map] at nodup
    exact Entry.toList_insertInto s.entries.sorted nodup mem
  · next none =>
    rw [setMember_of_not_mem (index_eq_none_iff.1 none)]
    exact Ordered.toList_insertLast ..

theorem toList_insertAll (s : Store) (given : List (String × Scalar)) :
    (s.insertAll given).toList =
      given.foldl (fun members e => setMember e.1 e.2 members) s.toList := by
  unfold insertAll
  induction given generalizing s with
  | nil => rfl
  | cons entry rest ih => rw [List.foldl_cons, ih, toList_insert, List.foldl_cons]

/-- A store made of entries holds each key once, at its first place and with its last scalar. -/
theorem toList_ofList (given : List (String × Scalar)) : (ofList given).toList = membersOf given :=
  toList_insertAll empty given

theorem get?_insert (s : Store) (key : String) (value : Scalar) (k : String) :
    (s.insert key value).get? k = if k = key then some value else s.get? k := by
  rw [get?_eq_lookup, toList_insert, lookup_setMember, get?_eq_lookup]

theorem toList_append (s other : Store) :
    (s.append other).toList =
      other.toList.foldl (fun members e => setMember e.1 e.2 members) s.toList :=
  toList_insertAll s other.toList

/-- What is merged before a store are the entries whose keys it lacks. -/
theorem toList_prepend (s other : Store) :
    (s.prepend other).toList = (other.toList.filter fun entry => entry.1 ∉ s.keys) ++ s.toList := by
  have lacks : ∀ key, (!s.index.contains key) = decide (key ∉ s.keys) := by
    intro key
    rw [Bool.eq_iff_iff, decide_eq_true_eq, ← index_eq_none_iff, Std.TreeMap.contains_eq_isSome_getElem?,
      Bool.not_eq_true', Option.isSome_eq_false_iff, Option.isNone_iff_eq_none]
  simp only [prepend, toList, Ordered.toList_prepend, Ordered.toList_ofList]
  congr 1
  exact List.filter_congr fun entry _ => lacks entry.1

theorem size_eq_length (s : Store) : s.size = s.toList.length := by
  simp [size, Ordered.size, toList, Ordered.toList]

end Store
end FlatStore
