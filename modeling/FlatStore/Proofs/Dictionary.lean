import FlatStore.Record.Dictionary
import Mathlib.Data.List.Perm.Basic

/-!
Dictionaries and the entries that they are made of. Entries have different keys and come in one order only
(`Dictionary.eq_of_perm`), so that a dictionary may be made of its entries in any order
(`Dictionary.ofList_eq_of_perm`).
-/
namespace FlatStore

namespace Dictionary

variable {α : Type}

theorem eq_of_entries {d e : Dictionary α} (same : d.entries = e.entries) : d = e := by
  cases d
  cases e
  cases same
  rfl

/-- Entries come in one order only. -/
theorem eq_of_perm {d e : Dictionary α} (perm : d.entries.Perm e.entries) : d = e := by
  refine eq_of_entries (perm.eq_of_pairwise (fun a b _ _ first second => ?_) d.sorted e.sorted)
  exact absurd (String.lt_trans first second) (String.lt_irrefl _)

theorem insertInto_perm {key : String} {entries : List (String × α)} (fresh : key ∉ entries.map Prod.fst) (value : α) :
    (insertInto key value entries).Perm ((key, value) :: entries) := by
  induction entries with
  | nil => exact .refl _
  | cons entry rest ih =>
    obtain ⟨k, v⟩ := entry
    simp only [List.map_cons, List.mem_cons, not_or] at fresh
    unfold insertInto
    split
    · exact .refl _
    · rw [if_neg fresh.1]
      exact ((ih fresh.2).cons _).trans (.swap ..)

theorem nodup_keys (d : Dictionary α) : (d.entries.map Prod.fst).Nodup := by
  rw [List.nodup_iff_pairwise_ne, List.pairwise_map]
  refine d.sorted.imp fun lt same => ?_
  rw [same] at lt
  exact String.lt_irrefl _ lt

/-- Entries of different keys all get in. -/
theorem foldl_insert_perm {given : List (String × α)} {d : Dictionary α}
    (nodup : ((given ++ d.entries).map Prod.fst).Nodup) :
    (given.foldl (fun d entry => d.insert entry.1 entry.2) d).entries.Perm (given ++ d.entries) := by
  induction given generalizing d with
  | nil => exact .refl _
  | cons entry rest ih =>
    obtain ⟨key, value⟩ := entry
    obtain ⟨fresh, -⟩ := List.nodup_cons.1 nodup
    have put : (d.insert key value).entries.Perm ((key, value) :: d.entries) :=
      insertInto_perm (fun mem => fresh (by simpa using .inr (by simpa using mem))) value
    have all : (rest ++ (d.insert key value).entries).Perm ((key, value) :: (rest ++ d.entries)) :=
      (put.append_left rest).trans List.perm_middle
    exact (ih ((all.map Prod.fst).nodup_iff.2 nodup)).trans all

/-- The entries of a dictionary may be given in any order. -/
theorem ofList_eq_of_perm {given : List (String × α)} {d : Dictionary α} (perm : given.Perm d.entries) :
    ofList given = d := by
  have nodup : ((given ++ (empty : Dictionary α).entries).map Prod.fst).Nodup := by
    simpa [empty] using (perm.map Prod.fst).nodup_iff.2 d.nodup_keys
  refine eq_of_perm ((foldl_insert_perm nodup).trans ?_)
  simpa [empty] using perm

end Dictionary

end FlatStore
