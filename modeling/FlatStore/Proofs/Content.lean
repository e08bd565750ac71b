import FlatStore.Proofs.Comparison
import FlatStore.Proofs.Merged

/-!
What stores hold, whatever the order in which it was written. Two stores are found to have the same content, by looking
up the entries of one in the other and comparing sizes, exactly if each key gives the same in both
(`Store.sameContent_iff`). A store that is merged behind another makes the same content as the other merged before it
(`Store.content_laws`).
-/
namespace FlatStore

/-! ### The same scalars -/

namespace Scalar

theorem same_equivalence : Equivalence fun a b : Scalar => a.same b = true := by
  simp only [same_iff]
  exact ⟨fun _ => rfl, Eq.symm, Eq.trans⟩

end Scalar

namespace Store

/-- Whether two reads find the same: nothing, or the same scalar. -/
def SameFound : Option Scalar → Option Scalar → Prop := Option.Rel fun a b => a.same b = true

theorem sameFound_equivalence : Equivalence SameFound where
  refl found := by
    cases found with
    | none => exact .none
    | some value => exact .some (Scalar.same_equivalence.refl value)
  symm := by
    intro a b found
    cases found with
    | some same => exact .some (Scalar.same_equivalence.symm same)
    | none => exact .none
  trans := by
    intro a b c first second
    cases first with
    | some same =>
      cases second with
      | some same' => exact .some (Scalar.same_equivalence.trans same same')
    | none => exact second

/-! ### The same content -/

variable {s t : Store}

theorem get?_eq_none_iff {key : String} : s.get? key = none ↔ key ∉ s.keys := by
  rw [get?_eq_lookup, lookup_eq_none_iff]
  rfl

theorem sameContent_eq_true_iff :
    s.sameContent t = true ↔ s.size = t.size ∧ ∀ e ∈ s.toList, ∃ found, t.get? e.1 = some found ∧ found.same e.2 = true := by
  rw [sameContent, Bool.and_eq_true, beq_iff_eq, List.all_eq_true]
  refine and_congr_right fun _ => forall₂_congr fun e _ => ?_
  cases found : t.get? e.1 with
  | none => simp [found]
  | some value => simp [found]

/-- Two stores of one size, of which one has the keys of the other, have the same keys. -/
theorem keys_perm (size : s.size = t.size) (subset : s.keys ⊆ t.keys) : s.keys.Perm t.keys := by
  refine (s.keys_nodup.subperm subset).perm_of_length_le ?_
  rw [keys, keys, List.length_map, List.length_map, ← size_eq_length, ← size_eq_length, size]

/-- Looking up the entries of one store in the other and comparing the sizes tells whether each key gives the same in
both. -/
theorem sameContent_iff : s.sameContent t = true ↔ ∀ key, SameFound (s.get? key) (t.get? key) := by
  rw [sameContent_eq_true_iff]
  constructor
  · rintro ⟨size, held⟩ key
    have subset : s.keys ⊆ t.keys := by
      intro k mem
      obtain ⟨value, mem⟩ := mem_keys_iff.1 mem
      obtain ⟨found, there, -⟩ := held _ mem
      exact mem_keys_iff.2 ⟨found, get?_eq_some_iff.1 there⟩
    cases own : s.get? key with
    | some value =>
      obtain ⟨found, there, same⟩ := held _ (get?_eq_some_iff.1 own)
      rw [show t.get? key = some found from there]
      exact .some (Scalar.same_equivalence.symm same)
    | none =>
      -- a key that only the other store had would make it the larger one
      have absent : key ∉ t.keys := fun mem => get?_eq_none_iff.1 own ((keys_perm size subset).mem_iff.2 mem)
      rw [get?_eq_none_iff.2 absent]
      exact .none
  · intro found
    have same_keys : ∀ key, key ∈ s.keys ↔ key ∈ t.keys := by
      intro key
      rw [← not_iff_not, ← get?_eq_none_iff, ← get?_eq_none_iff]
      have both := found key
      generalize s.get? key = own, t.get? key = other at both
      cases both <;> simp
    refine ⟨?_, fun e mem => ?_⟩
    · have perm := (List.perm_ext_iff_of_nodup s.keys_nodup t.keys_nodup).2 same_keys
      rw [size_eq_length, size_eq_length]
      simpa [keys] using perm.length_eq
    · have own := get?_eq_some_iff.2 mem
      have both := found e.1
      rw [own] at both
      generalize t.get? e.1 = other at both
      cases both with
      | some same => exact ⟨_, rfl, Scalar.same_equivalence.symm same⟩

theorem sameContent_equivalence : Equivalence fun s t : Store => s.sameContent t = true where
  refl _ := sameContent_iff.2 fun _ => sameFound_equivalence.refl _
  symm same := sameContent_iff.2 fun key => sameFound_equivalence.symm (sameContent_iff.1 same key)
  trans first second := sameContent_iff.2 fun key =>
    sameFound_equivalence.trans (sameContent_iff.1 first key) (sameContent_iff.1 second key)

theorem sameContent_of_get? (same : ∀ key, s.get? key = t.get? key) : s.sameContent t = true :=
  sameContent_iff.2 fun key => same key ▸ sameFound_equivalence.refl _

/-- The order in which entries were written does not count. -/
theorem sameContent_of_perm (perm : s.toList.Perm t.toList) : s.sameContent t = true := by
  refine sameContent_of_get? fun key => Option.ext fun value => ?_
  rw [get?_eq_some_iff, get?_eq_some_iff, perm.mem_iff]

/-! ### Merging -/

/-- What is merged behind a store wins. -/
theorem get?_append (s other : Store) (key : String) : (s.append other).get? key = (other.get? key).or (s.get? key) := by
  have nodup : (other.toList.reverse.map Prod.fst).Nodup := by
    rw [List.map_reverse, List.nodup_reverse]
    exact other.keys_nodup
  have last : other.toList.reverse.lookup key = other.get? key := by
    refine Option.ext fun value => ?_
    rw [lookup_eq_some_iff_mem nodup, List.mem_reverse, get?_eq_some_iff]
  rw [append, get?_insertAll, last]

/-- A store wins over what is merged before it. -/
theorem get?_prepend (s other : Store) (key : String) : (s.prepend other).get? key = (s.get? key).or (other.get? key) := by
  rw [get?_eq_lookup, toList_prepend, List.lookup_append, ← get?_eq_lookup]
  by_cases own : key ∈ s.keys
  · have dropped : (other.toList.filter fun entry => entry.1 ∉ s.keys).lookup key = none := by
      refine lookup_eq_none_iff.2 fun mem => ?_
      obtain ⟨entry, mem, rfl⟩ := List.mem_map.1 mem
      simp [own] at mem
    obtain ⟨value, mem⟩ := mem_keys_iff.1 own
    rw [dropped, get?_eq_some_iff.2 mem]
    rfl
  · rw [lookup_filter (p := fun name => decide (name ∉ s.keys)) (by simpa using own), ← get?_eq_lookup,
      get?_eq_none_iff.2 own, Option.or_none]
    rfl

/-- Stores without a common key are put one behind the other. -/
theorem toList_append_of_disjoint (disjoint : s.keys.Disjoint t.keys) :
    (s.append t).toList = s.toList ++ t.toList := by
  have nodup : ((s.toList ++ t.toList).map Prod.fst).Nodup := by
    rw [List.map_append]
    exact List.nodup_append'.2 ⟨s.keys_nodup, t.keys_nodup, disjoint⟩
  rw [toList_append, ← membersOf_eq_of_nodup nodup, membersOf_append, membersOf_eq_of_nodup s.keys_nodup]

theorem toList_prepend_of_disjoint (disjoint : s.keys.Disjoint t.keys) :
    (t.prepend s).toList = s.toList ++ t.toList := by
  rw [toList_prepend, List.filter_eq_self.2]
  intro entry mem
  simpa using fun own => disjoint (List.mem_map_of_mem mem) own

/-- Two stores have the same content exactly if each key gives the same in both, which makes sameness of content an
equivalence that does not see the order of writing. Merging a store behind another and the other before it make the same
content, in which the second store wins, and the same order too where no key is in both. -/
theorem content_laws :
    (∀ s t : Store, s.sameContent t = true ↔ ∀ key, SameFound (s.get? key) (t.get? key)) ∧
      (Equivalence fun s t : Store => s.sameContent t = true) ∧
      (∀ s t : Store, s.toList.Perm t.toList → s.sameContent t = true) ∧
      ∀ s t : Store, (s.append t).sameContent (t.prepend s) = true ∧
        (∀ key, (s.append t).get? key = (t.get? key).or (s.get? key)) ∧
        (∀ key, (t.prepend s).get? key = (t.get? key).or (s.get? key)) ∧
        (s.keys.Disjoint t.keys → (s.append t).toList = (t.prepend s).toList) := by
  refine ⟨fun _ _ => sameContent_iff, sameContent_equivalence, fun _ _ => sameContent_of_perm, fun s t => ?_⟩
  have appended := s.get?_append t
  have prepended := t.get?_prepend s
  refine ⟨sameContent_of_get? fun key => (appended key).trans (prepended key).symm, appended, prepended, ?_⟩
  intro disjoint
  rw [toList_append_of_disjoint disjoint, toList_prepend_of_disjoint disjoint]

/-- Both zeros are the same, and so is either order. -/
example : (ofList [("a", .int 1), ("b", .float (.finite .zero))]).sameContent
    (ofList [("b", .float (.finite ⟨true, 0, by decide⟩)), ("a", .int 1)]) = true := rfl

end Store
end FlatStore
