/-!
Dictionaries: values under strings, in the order of the strings, so that equal contents are equal dictionaries. A set
of strings is a dictionary without values.
-/
namespace FlatStore

structure Dictionary (α : Type) where
  entries : List (String × α)
  sorted : entries.Pairwise fun a b => a.1 < b.1

namespace Dictionary

variable {α : Type}

def empty : Dictionary α := ⟨[], .nil⟩

/-- Puts a value in its place, where it replaces one of the same key. -/
def insertInto (key : String) (value : α) : List (String × α) → List (String × α)
  | [] => [(key, value)]
  | (k, v) :: rest =>
    if key < k then (key, value) :: (k, v) :: rest
    else if key = k then (key, value) :: rest
    else (k, v) :: insertInto key value rest

theorem mem_insertInto {key : String} {value : α} {entries : List (String × α)} {x : String × α}
    (mem : x ∈ insertInto key value entries) : x = (key, value) ∨ x ∈ entries := by
  fun_induction insertInto key value entries <;> grind

theorem insertInto_sorted (key : String) (value : α) {entries : List (String × α)}
    (sorted : entries.Pairwise fun a b => a.1 < b.1) :
    (insertInto key value entries).Pairwise fun a b => a.1 < b.1 := by
  induction entries with
  | nil => simp [insertInto]
  | cons entry rest ih =>
    obtain ⟨k, v⟩ := entry
    obtain ⟨head, tail⟩ := List.pairwise_cons.1 sorted
    unfold insertInto
    split
    · next lt =>
      refine List.pairwise_cons.2 ⟨fun x mem => ?_, sorted⟩
      rcases List.mem_cons.1 mem with rfl | mem
      · exact lt
      · exact String.lt_trans lt (head x mem)
    · split
      · next same => exact List.pairwise_cons.2 ⟨fun x mem => same ▸ head x mem, tail⟩
      · next notLt ne =>
        refine List.pairwise_cons.2 ⟨fun x mem => ?_, ih tail⟩
        rcases mem_insertInto mem with rfl | mem
        · rcases String.le_total k key with le | le
          · exact String.not_le.1 fun le' => ne (String.le_antisymm le' le)
          · exact absurd (String.le_antisymm le (String.not_lt.1 notLt)) ne
        · exact head x mem

/-- Writes a value under a key. -/
def insert (d : Dictionary α) (key : String) (value : α) : Dictionary α :=
  ⟨insertInto key value d.entries, insertInto_sorted key value d.sorted⟩

/-- The dictionary of entries given one after another. -/
def ofList (given : List (String × α)) : Dictionary α :=
  given.foldl (fun d (key, value) => d.insert key value) empty

def keys (d : Dictionary α) : List String := d.entries.map Prod.fst

end Dictionary

abbrev StringSet := Dictionary Unit

def StringSet.ofList (items : List String) : StringSet := Dictionary.ofList (items.map (·, ()))

end FlatStore
