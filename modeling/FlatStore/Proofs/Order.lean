import FlatStore.Proofs.Comparison
import FlatStore.Proofs.Document
import FlatStore.Proofs.Rendering

/-!
The orders in which sets and maps are written. Both depend on the elements and entries alone and not on the order in
which they are given (`Schema.setOrder_eq_of_perm`, `Schema.mapOrder_eq_of_perm`): no two elements of a set have the
same text, unless they are the same, and the entries of a map have keys of their own.
-/
namespace FlatStore

namespace Schema

variable {given others : List Json} {members : List (String × Json)}

theorem setOrder_eq_of_perm (perm : given.Perm others) : setOrder given = setOrder others := by
  refine congrArg (List.map Prod.snd)
    (mergeSort_eq_of_perm (fun _ _ => decide_eq_true_iff) (perm.map _) fun a mem b mem' keys => ?_)
  obtain ⟨x, -, rfl⟩ := List.mem_map.1 mem
  obtain ⟨y, -, rfl⟩ := List.mem_map.1 mem'
  rw [Json.render_injective keys]

theorem setOrder_of_pairwise (sorted : given.Pairwise fun a b => a.render ≤ b.render) : setOrder given = given := by
  rw [setOrder, List.mergeSort_of_pairwise]
  · simp [Function.comp_def]
  · simpa [List.pairwise_map] using sorted

theorem setOrder_setOrder (given : List Json) : setOrder (setOrder given) = setOrder given :=
  setOrder_eq_of_perm (setOrder_perm given)

theorem mapOrder_eq_of_perm {others : List (String × Json)} (perm : members.Perm others)
    (nodup : (members.map Prod.fst).Nodup) : mapOrder members = mapOrder others :=
  mergeSort_eq_of_perm (fun _ _ => decide_eq_true_iff) perm fun _ mem _ mem' keys =>
    List.inj_on_of_nodup_map nodup mem mem' keys

theorem pairwise_mapOrder (members : List (String × Json)) : (mapOrder members).Pairwise fun a b => a.1 ≤ b.1 :=
  pairwise_mergeSort_of_key (fun _ _ => decide_eq_true_iff) members

/-- Entries in the order of their keys stay in it when their values change. -/
theorem mapOrder_map (g : Json → Json) (members : List (String × Json)) :
    mapOrder ((mapOrder members).map fun (key, value) => (key, g value)) =
      (mapOrder members).map fun (key, value) => (key, g value) := by
  refine List.mergeSort_of_pairwise ?_
  rw [List.pairwise_map]
  exact (pairwise_mapOrder members).imp decide_eq_true

/-- The keys of a map are written in one order, whatever the values are. -/
theorem names_mapOrder {others : List (String × Json)} (perm : (members.map Prod.fst).Perm (others.map Prod.fst)) :
    (mapOrder members).map Prod.fst = (mapOrder others).map Prod.fst := by
  have sorted : ∀ members : List (String × Json), ((mapOrder members).map Prod.fst).Pairwise (· ≤ ·) := by
    intro members
    rw [List.pairwise_map]
    exact pairwise_mapOrder members
  refine List.Perm.eq_of_pairwise (fun a b _ _ => String.le_antisymm) (sorted members) (sorted others) ?_
  exact ((mapOrder_perm members).map Prod.fst).trans (perm.trans ((mapOrder_perm others).map Prod.fst).symm)

end Schema
end FlatStore
