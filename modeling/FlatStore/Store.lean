import Std.Data.TreeMap
import FlatStore.Address
import FlatStore.Ordered
import FlatStore.Scalar

/-!
The flat store: rendered addresses and the scalars under them, in the order in which the keys were first written. The
entries are numbered and an index gives the number of each key; both say the same. What a store holds is its `toList`,
a list in which no key stands twice.
-/
namespace FlatStore

/-- Whether an index gives each key of the entries its order number, and no other key one. -/
def Coherent (index : Std.TreeMap String Int) (entries : Ordered Scalar) : Prop :=
  ∀ key order, index[key]? = some order ↔ ∃ value, ⟨key, order, value⟩ ∈ entries.entries

structure Store where
  index : Std.TreeMap String Int
  entries : Ordered Scalar
  coherent : Coherent index entries

namespace Coherent

variable {index : Std.TreeMap String Int} {entries : Ordered Scalar}

def indexOf (entries : Ordered Scalar) : Std.TreeMap String Int :=
  .ofList (entries.entries.map fun e => (e.key, e.order))

theorem keys_nodup (coherent : Coherent index entries) : (entries.toList.map Prod.fst).Nodup := by
  rw [Ordered.toList, List.map_map, List.nodup_iff_pairwise_ne, List.pairwise_map]
  refine entries.sorted.imp_of_mem fun {a b} memA memB before same => ?_
  have first := (coherent a.key a.order).2 ⟨a.value, memA⟩
  have second := (coherent b.key b.order).2 ⟨b.value, memB⟩
  simp only [Function.comp] at same
  rw [same, second] at first
  exact before.apart ⟨(Option.some.inj first).symm, same⟩

theorem empty : Coherent ∅ .empty := by
  intro key order
  simp [Ordered.empty]

/-- A value may be replaced under its order number. -/
theorem replace (coherent : Coherent index entries) {key : String} {order : Int} (found : index[key]? = some order)
    (value : Scalar) : Coherent index (entries.insert key order value) := by
  intro k o
  rw [coherent k o]
  constructor
  · rintro ⟨v, mem⟩
    by_cases same : o = order ∧ k = key
    · exact ⟨value, Ordered.mem_insert.2 (.inl (by rw [same.1, same.2]))⟩
    · exact ⟨v, Ordered.mem_insert.2 (.inr ⟨mem, same⟩)⟩
  · rintro ⟨v, mem⟩
    rcases Ordered.mem_insert.1 mem with eq | ⟨mem, -⟩
    · cases eq
      exact (coherent key order).1 found
    · exact ⟨v, mem⟩

/-- A new key may be put last. -/
theorem insertLast (coherent : Coherent index entries) {key : String} (absent : index[key]? = none) (value : Scalar) :
    Coherent (index.insert key entries.nextOrder) (entries.insertLast key value) := by
  intro k o
  rw [Std.TreeMap.getElem?_insert, Ordered.entries_insertLast]
  by_cases same : key = k
  · subst same
    rw [if_pos (by simp)]
    have none : ∀ v, (⟨key, o, v⟩ : Entry Scalar) ∉ entries.entries := fun v mem => by
      have := (coherent key o).2 ⟨v, mem⟩
      simp [absent] at this
    simp [none, eq_comm]
  · rw [if_neg (by simpa [Std.compare_eq_iff_eq] using same), coherent k o]
    simp [Ne.symm same]

/-- Entries of which no two share a key agree with the index made of them. -/
theorem ofNodup (nodup : (entries.toList.map Prod.fst).Nodup) : Coherent (indexOf entries) entries := by
  have distinct : (entries.entries.map fun e => (e.key, e.order)).Pairwise
      (fun a b => ¬ compare a.1 b.1 = .eq) := by
    rw [Ordered.toList, List.map_map, List.nodup_iff_pairwise_ne, List.pairwise_map] at nodup
    rw [List.pairwise_map]
    exact nodup.imp fun ne eq => ne (Std.compare_eq_iff_eq.1 eq)
  intro key order
  constructor
  · intro found
    have mem : (key, order) ∈ entries.entries.map fun e => (e.key, e.order) := by
      by_cases present : key ∈ (entries.entries.map fun e => (e.key, e.order)).map Prod.fst
      · obtain ⟨⟨k, o⟩, mem, rfl⟩ := List.mem_map.1 present
        have := Std.TreeMap.getElem?_ofList_of_mem (show compare k k = .eq by simp) distinct mem
        rw [indexOf, this] at found
        cases found
        exact mem
      · rw [indexOf, Std.TreeMap.getElem?_ofList_of_contains_eq_false (by simpa using present)] at found
        cases found
    obtain ⟨e, held, eq⟩ := List.mem_map.1 mem
    cases eq
    exact ⟨e.value, held⟩
  · rintro ⟨value, mem⟩
    exact Std.TreeMap.getElem?_ofList_of_mem (by simp) distinct
      (List.mem_map.2 ⟨_, mem, rfl⟩)

end Coherent

namespace Store

def empty : Store := ⟨∅, .empty, .empty⟩

instance : Inhabited Store := ⟨empty⟩

def size (s : Store) : Nat := s.entries.size

def isEmpty (s : Store) : Bool := s.entries.isEmpty

def toList (s : Store) : List (String × Scalar) := s.entries.toList

def keys (s : Store) : List String := s.toList.map Prod.fst

theorem keys_nodup (s : Store) : s.keys.Nodup := s.coherent.keys_nodup

def get? (s : Store) (key : String) : Option Scalar :=
  s.index[key]?.bind fun order => s.entries.get? key order

/-- Writes a scalar under a key. A key that is there keeps its place; a new key goes last. -/
def insert (s : Store) (key : String) (value : Scalar) : Store :=
  match found : s.index[key]? with
  | some order => ⟨s.index, s.entries.insert key order value, s.coherent.replace found value⟩
  | none => ⟨s.index.insert key s.entries.nextOrder, s.entries.insertLast key value, s.coherent.insertLast found value⟩

def insertAll (s : Store) (given : List (String × Scalar)) : Store :=
  given.foldl (fun s e => s.insert e.1 e.2) s

def ofList (given : List (String × Scalar)) : Store := empty.insertAll given

def set (s : Store) (a : Address) (value : Scalar) : Store := s.insert a.text value

def setCount (s : Store) (a : Address) (n : Nat) : Store := s.insert a.countKey (.int (.ofNat n))

/-- Merges a store behind this one. A key in both keeps its place and takes the scalar of the other. -/
def append (s other : Store) : Store := s.insertAll other.toList

/-- Merges a store before this one. A key in both keeps its place and its scalar. -/
def prepend (s other : Store) : Store :=
  let head := Ordered.ofList (other.toList.filter fun (key, _) => !s.index.contains key)
  let merged := s.entries.prepend head
  ⟨Coherent.indexOf merged, merged, .ofNodup <| by
    rw [Ordered.toList_prepend, Ordered.toList_ofList, List.map_append, List.nodup_append]
    refine ⟨?_, s.coherent.keys_nodup, ?_⟩
    · exact other.keys_nodup.sublist (List.filter_sublist.map _)
    · rintro key memHead _ memOwn rfl
      obtain ⟨⟨k, v⟩, mem, rfl⟩ := List.mem_map.1 memHead
      have memKeys : k ∈ s.entries.entries.map Entry.key := by simpa [Ordered.toList] using memOwn
      obtain ⟨e, memE, eq⟩ := List.mem_map.1 memKeys
      have found := (s.coherent e.key e.order).2 ⟨e.value, memE⟩
      have := (List.mem_filter.1 mem).2
      subst eq
      simp [Std.TreeMap.contains_eq_isSome_getElem?, found] at this⟩

/-- Whether two stores hold the same scalars under the same keys, in any order. -/
def sameContent (s other : Store) : Bool :=
  s.size == other.size && s.toList.all fun (key, value) =>
    match other.get? key with
    | some found => found.same value
    | none => false

def toJson (s : Store) : Json := .object (s.toList.map fun (key, value) => (key, value.toJson))

end Store
end FlatStore
