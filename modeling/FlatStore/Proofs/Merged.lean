import FlatStore.Proofs.Stored
import FlatStore.Proofs.Trace

/-!
Flattening into a store that has entries already. What a document writes does not depend on the store, and writing it is
merging a fragment, the store that the document makes by itself (`Schema.flattenInto_eq_append`). All keys that the
address of the document does not cover stay as they are, also where the document does not fit and only some of it is
written.
-/
namespace FlatStore

namespace Store

/-- Writing entries into a store is merging the store that they make by themselves. -/
theorem toList_append_ofList (s : Store) (given : List (String × Scalar)) :
    (s.append (ofList given)).toList = (s.insertAll given).toList := by
  rw [toList_append, toList_ofList, foldl_membersOf, toList_insertAll]

theorem get?_insertAll (s : Store) (given : List (String × Scalar)) (key : String) :
    (s.insertAll given).get? key = (given.reverse.lookup key).or (s.get? key) := by
  induction given generalizing s with
  | nil => rfl
  | cons entry rest ih =>
    obtain ⟨name, value⟩ := entry
    have step : s.insertAll ((name, value) :: rest) = (s.insert name value).insertAll rest := rfl
    rw [step, ih, get?_insert, List.reverse_cons, List.lookup_append, Option.or_assoc]
    by_cases same : key = name
    · simp [same]
    · simp [List.lookup_cons, same, beq_false_of_ne same]

theorem mem_keys_insertAll {given : List (String × Scalar)} {key : String} (mem : key ∈ given.map Prod.fst) (s : Store) :
    key ∈ (s.insertAll given).keys := by
  have found : given.reverse.lookup key ≠ none := by
    rw [Ne, lookup_eq_none_iff, not_not, List.map_reverse, List.mem_reverse]
    exact mem
  obtain ⟨value, found⟩ := Option.ne_none_iff_exists'.1 found
  refine mem_keys_iff.2 ⟨value, get?_eq_some_iff.1 ?_⟩
  rw [get?_insertAll, found, Option.some_or]

/-- Entries that are not of a sort stay as they are when entries of the sort are written. -/
theorem filter_insertAll {p : String → Bool} {given : List (String × Scalar)} (excluded : ∀ e ∈ given, p e.1 = false)
    (s : Store) : (s.insertAll given).toList.filter (fun e => p e.1) = s.toList.filter fun e => p e.1 := by
  rw [toList_insertAll]
  generalize s.toList = members
  induction given generalizing members with
  | nil => rfl
  | cons entry rest ih =>
    obtain ⟨first, later⟩ := List.forall_mem_cons.1 excluded
    rw [List.foldl_cons, ih later, filter_setMember first]

end Store

namespace Schema

theorem covers_of_mem_entries {schema : Schema} {omitComputed : Bool} {value : Json} {a : Address} {sliced : Bool}
    {e : String × Scalar} (mem : e ∈ (schema.trace omitComputed value a sliced).entries) : a.Covers e.1 := by
  obtain ⟨⟨slot, leaf⟩, written, rfl⟩ := List.mem_map.1 mem
  exact Slot.covers_key_iff.2 (trace_under schema value a sliced _ written)

/-- Flattening into a store fails just as it does by itself, and merges what is written by itself. The entries that the
address does not cover keep their values and their order, and none is added to them. -/
theorem flattenInto_eq_append (schema : Schema) (omitComputed : Bool) (value : Json) (a : Address) (sliced : Bool)
    (s : Store) :
    let written := schema.flattenInto omitComputed value a sliced s
    let alone := schema.flattenInto omitComputed value a sliced .empty
    written.1 = alone.1 ∧ written.2.toList = (s.append alone.2).toList ∧
      written.2.toList.filter (fun e => ¬ a.Covers e.1) = s.toList.filter fun e => ¬ a.Covers e.1 := by
  -- both runs have the same trace, which is made without looking at the store
  refine ⟨rfl, (Store.toList_append_ofList s _).symm, ?_⟩
  refine Store.filter_insertAll (p := fun key => decide (¬ a.Covers key)) (fun e mem => ?_) s
  simpa using covers_of_mem_entries mem

end Schema
end FlatStore
