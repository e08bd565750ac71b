import FlatStore.Store.Lemmas
import Mathlib.Data.List.Nodup

/-!
Stores as listings. Whatever was done to an empty store, what it shows is a sequence of entries without a key that
stands twice, on which each operation is a plain one: a present key keeps its place and takes the new scalar, a new key
goes last, and a store that is merged before another adds the entries in front whose keys the other lacks
(`Store.Run.shows_listing`). Behind it the index and the numbered entries say the same, and the order numbers that a run
gives out are no further from zero than it has writes.
-/
namespace FlatStore

/-! ### Listings -/

/-- Keys and scalars in the order in which a store shows them. -/
abbrev Listing := List (String × Scalar)

namespace Listing

def keys (listing : Listing) : List String := listing.map Prod.fst

/-- Puts a scalar under a key: in the place of the one that is there, or else last. -/
def put (listing : Listing) (key : String) (value : Scalar) : Listing :=
  if key ∈ listing.keys then listing.map fun e => if e.1 = key then (key, value) else e
  else listing ++ [(key, value)]

/-- Puts scalars one after another. -/
def putAll (listing given : Listing) : Listing := given.foldl (fun listing e => put listing e.1 e.2) listing

/-- Puts those entries in front whose keys are not there, in their order. -/
def putBefore (listing other : Listing) : Listing := other.filter (fun e => e.1 ∉ listing.keys) ++ listing

variable {listing : Listing} {key : String}

/-- Setting a member is putting a scalar, if no key stands twice. -/
theorem setMember_eq_put (nodup : listing.keys.Nodup) (value : Scalar) :
    setMember key value listing = listing.put key value := by
  by_cases present : key ∈ listing.keys
  · rw [put, if_pos present]
    induction listing with
    | nil => cases present
    | cons e rest ih =>
      obtain ⟨k, v⟩ := e
      obtain ⟨absent, nodup⟩ := List.nodup_cons.1 (show (k :: keys rest).Nodup from nodup)
      by_cases here : k = key
      · subst here
        have others : rest.map (fun e => if e.1 = k then (k, value) else e) = rest := by
          refine (List.map_congr_left fun e mem => if_neg fun same => absent ?_).trans (List.map_id rest)
          exact List.mem_map.2 ⟨e, mem, same⟩
        rw [setMember, if_pos rfl, List.map_cons, if_pos rfl, others]
      · have behind : key ∈ keys rest := (List.mem_cons.1 present).resolve_left (Ne.symm here)
        rw [setMember, if_neg here, List.map_cons, if_neg here, ih nodup behind]
  · rw [put, if_neg present, setMember_of_not_mem present]

theorem length_put_le (listing : Listing) (key : String) (value : Scalar) :
    (listing.put key value).length ≤ listing.length + 1 := by
  unfold put
  split
  · simp
  · simp

theorem length_putAll_le (listing given : Listing) : (listing.putAll given).length ≤ listing.length + given.length := by
  induction given generalizing listing with
  | nil => exact Nat.le_refl _
  | cons e rest ih =>
    have first := listing.length_put_le e.1 e.2
    have later : (putAll (listing.put e.1 e.2) rest).length ≤ _ := ih (listing.put e.1 e.2)
    change (putAll (listing.put e.1 e.2) rest).length ≤ _
    rw [List.length_cons]
    omega

theorem length_putBefore_le (listing other : Listing) :
    (listing.putBefore other).length ≤ listing.length + other.length := by
  have kept := List.length_filter_le (fun e : String × Scalar => decide (e.1 ∉ listing.keys)) other
  rw [putBefore, List.length_append]
  omega

end Listing

/-! ### Order numbers -/

/-- Whether all order numbers are less than a bound away from zero. -/
def Ordered.Within {α : Type} (n : Nat) (s : Ordered α) : Prop := ∀ e ∈ s.entries, -(n : Int) ≤ e.order ∧ e.order < n

namespace Ordered.Within

variable {α : Type} {n m : Nat} {s : Ordered α}

theorem mono (within : s.Within n) (le : n ≤ m) : s.Within m := by
  intro e mem
  obtain ⟨least, most⟩ := within e mem
  omega

theorem insert (within : s.Within n) {key : String} {order : Int} {old : α} (held : ⟨key, order, old⟩ ∈ s.entries)
    (value : α) : (s.insert key order value).Within n := by
  intro e mem
  rcases Ordered.mem_insert.1 mem with rfl | ⟨mem, -⟩
  · exact within ⟨key, order, old⟩ held
  · exact within e mem

theorem insertLast (within : s.Within n) (key : String) (value : α) : (s.insertLast key value).Within (n + 1) := by
  have next : -(n : Int) ≤ s.nextOrder ∧ s.nextOrder ≤ n := by
    unfold Ordered.nextOrder
    split
    · next last found =>
      obtain ⟨least, most⟩ := within last (List.mem_of_getLast? found)
      omega
    · omega
  intro e mem
  rw [Ordered.entries_insertLast] at mem
  rcases List.mem_append.1 mem with mem | mem
  · exact within.mono (Nat.le_succ n) e mem
  · cases List.mem_singleton.1 mem
    dsimp only
    omega

theorem insertFirst (within : s.Within n) (key : String) (value : α) : (s.insertFirst key value).Within (n + 1) := by
  have previous : -(n : Int) - 1 ≤ s.previousOrder ∧ s.previousOrder ≤ n := by
    unfold Ordered.previousOrder
    split
    · next first found =>
      obtain ⟨least, most⟩ := within first (List.mem_of_head? found)
      omega
    · omega
  intro e mem
  rw [Ordered.entries_insertFirst] at mem
  rcases List.mem_cons.1 mem with rfl | mem
  · dsimp only
    omega
  · exact within.mono (Nat.le_succ n) e mem

theorem prepend (within : s.Within n) (other : Ordered α) : (s.prepend other).Within (n + other.size) := by
  have each : ∀ entries : List (Entry α),
      (entries.foldr (fun e s => s.insertFirst e.key e.value) s).Within (n + entries.length) := by
    intro entries
    induction entries with
    | nil => exact within
    | cons e rest ih => exact ih.insertFirst e.key e.value
  exact each other.entries

end Ordered.Within

/-! ### Stores -/

/-- Whether a store shows a listing, in which no key stands twice: as its entries and its keys in their order, by their
number, and under each key. -/
structure Store.Lists (s : Store) (listing : Listing) : Prop where
  distinct : listing.keys.Nodup
  entries : s.toList = listing
  keys : s.keys = listing.keys
  size : s.size = listing.length
  found : ∀ key, s.get? key = listing.lookup key

/-- Whether the index of a store and its entries say the same: each key stands in one entry, whose order number the
index has, and the index has no other key. -/
structure Store.Indexed (s : Store) : Prop where
  one : ∀ key ∈ s.keys, ∃! e, e ∈ s.entries.entries ∧ e.key = key
  order : ∀ e ∈ s.entries.entries, s.index[e.key]? = some e.order
  no_other : ∀ key, key ∉ s.keys → s.index[key]? = none

namespace Store

variable {s other : Store} {n : Nat}

/-- A store shows its entries. -/
theorem lists (s : Store) : s.Lists s.toList :=
  ⟨s.keys_nodup, rfl, rfl, s.size_eq_length, s.get?_eq_lookup⟩

theorem indexed (s : Store) : s.Indexed where
  one := by
    intro key mem
    obtain ⟨value, mem⟩ := mem_keys_iff.1 mem
    obtain ⟨e, held, same⟩ := List.mem_map.1 mem
    obtain ⟨name, -⟩ := Prod.mk.inj same
    refine ⟨e, ⟨held, name⟩, fun other ⟨also, other_name⟩ => ?_⟩
    have nodup : (s.entries.entries.map Entry.key).Nodup := by
      have nodup := s.keys_nodup
      rwa [keys, toList, Ordered.toList, List.map_map] at nodup
    exact List.inj_on_of_nodup_map nodup also held (other_name.trans name.symm)
  order := fun e mem => (s.coherent e.key e.order).2 ⟨e.value, mem⟩
  no_other := fun _ absent => index_eq_none_iff.2 absent

/-! #### What the operations do to the listing -/

theorem toList_insert_eq_put (s : Store) (key : String) (value : Scalar) :
    (s.insert key value).toList = Listing.put s.toList key value := by
  rw [toList_insert, Listing.setMember_eq_put s.keys_nodup]

theorem toList_insertAll_eq_putAll (s : Store) (given : Listing) :
    (s.insertAll given).toList = Listing.putAll s.toList given := by
  induction given generalizing s with
  | nil => rfl
  | cons e rest ih =>
    have step : s.insertAll (e :: rest) = (s.insert e.1 e.2).insertAll rest := rfl
    rw [step, ih, toList_insert_eq_put]
    rfl

/-! #### What they do to the order numbers -/

theorem insert_within (within : s.entries.Within n) (key : String) (value : Scalar) :
    (s.insert key value).entries.Within (n + 1) := by
  unfold insert
  split
  · next order found =>
    obtain ⟨old, held⟩ := (s.coherent key order).1 found
    exact (within.insert held value).mono (Nat.le_succ n)
  · exact within.insertLast key value

theorem insertAll_within (within : s.entries.Within n) (given : Listing) :
    (s.insertAll given).entries.Within (n + given.length) := by
  induction given generalizing s n with
  | nil => exact within
  | cons e rest ih =>
    have later := ih (insert_within within e.1 e.2)
    rwa [Nat.add_assoc, Nat.add_comm 1] at later

theorem prepend_within (within : s.entries.Within n) (other : Store) :
    (s.prepend other).entries.Within (n + other.toList.length) := by
  refine Ordered.Within.mono (within.prepend _) (Nat.add_le_add_left ?_ n)
  calc (Ordered.ofList (other.toList.filter fun e => !s.index.contains e.1)).size
      = (Ordered.ofList (other.toList.filter fun e => !s.index.contains e.1)).toList.length := by
        rw [Ordered.size, Ordered.toList, List.length_map]
    _ = (other.toList.filter fun e => !s.index.contains e.1).length := by rw [Ordered.toList_ofList]
    _ ≤ other.toList.length := List.length_filter_le ..

end Store

/-! ### Runs -/

/-- A run of operations that makes a store. The stores that it merges are made by runs of their own. -/
inductive Store.Run where
  | empty
  | insert (run : Run) (key : String) (value : Scalar)
  | set (run : Run) (a : Address) (value : Scalar)
  | setCount (run : Run) (a : Address) (n : Nat)
  | append (run other : Run)
  | prepend (run other : Run)
  | collect (given : List (String × Scalar))

namespace Store.Run

/-- The store that a run makes. -/
def store : Run → Store
  | empty => .empty
  | insert run key value => run.store.insert key value
  | set run a value => run.store.set a value
  | setCount run a n => run.store.setCount a n
  | append run other => run.store.append other.store
  | prepend run other => run.store.prepend other.store
  | collect given => .ofList given

/-- The listing that a run makes. -/
def listing : Run → Listing
  | empty => []
  | insert run key value => run.listing.put key value
  | set run a value => run.listing.put a.text value
  | setCount run a n => run.listing.put a.countKey (.int (.ofNat n))
  | append run other => run.listing.putAll other.listing
  | prepend run other => run.listing.putBefore other.listing
  | collect given => Listing.putAll [] given

/-- How often a run writes, the runs of merged stores included. -/
def writes : Run → Nat
  | empty => 0
  | insert run _ _ | set run _ _ | setCount run _ _ => run.writes + 1
  | append run other | prepend run other => run.writes + other.writes
  | collect given => given.length

theorem toList_store (run : Run) : run.store.toList = run.listing := by
  induction run with
  | empty => rfl
  | insert run key value ih => rw [store, toList_insert_eq_put, ih, listing]
  | set run a value ih => rw [store, Store.set, toList_insert_eq_put, ih, listing]
  | setCount run a n ih => rw [store, Store.setCount, toList_insert_eq_put, ih, listing]
  | append run other ih other_ih => rw [store, Store.append, toList_insertAll_eq_putAll, ih, other_ih, listing]
  | prepend run other ih other_ih =>
    rw [store, toList_prepend, ih, other_ih, listing, Listing.putBefore, Store.keys, ih]
    rfl
  | collect given => exact toList_insertAll_eq_putAll .empty given

theorem length_listing_le (run : Run) : run.listing.length ≤ run.writes := by
  induction run with
  | empty => exact Nat.le_refl 0
  | insert run key value ih | set run key value ih | setCount run key value ih =>
    exact Nat.le_trans (Listing.length_put_le ..) (Nat.succ_le_succ ih)
  | append run other ih other_ih => exact Nat.le_trans (Listing.length_putAll_le ..) (Nat.add_le_add ih other_ih)
  | prepend run other ih other_ih => exact Nat.le_trans (Listing.length_putBefore_le ..) (Nat.add_le_add ih other_ih)
  | collect given => simpa [listing, writes] using Listing.length_putAll_le [] given

theorem within (run : Run) : run.store.entries.Within run.writes := by
  induction run with
  | empty => exact fun _ mem => nomatch mem
  | insert run key value ih | set run key value ih | setCount run key value ih => exact insert_within ih _ _
  | append run other ih other_ih =>
    have shown : other.store.toList.length ≤ other.writes := other.toList_store ▸ other.length_listing_le
    exact (insertAll_within ih other.store.toList).mono (Nat.add_le_add_left shown _)
  | prepend run other ih other_ih =>
    have shown : other.store.toList.length ≤ other.writes := other.toList_store ▸ other.length_listing_le
    exact (prepend_within ih other.store).mono (Nat.add_le_add_left shown _)
  | collect given =>
    have start : Ordered.Within 0 Store.empty.entries := fun _ mem => nomatch mem
    simpa [store, writes, Store.ofList] using insertAll_within start given

/-- The store of a run shows the listing of the run, its index and its entries say the same, and its order numbers are
no further from zero than the run has writes. -/
theorem shows_listing (run : Run) : run.store.Lists run.listing ∧ run.store.Indexed ∧
    ∀ e ∈ run.store.entries.entries, -(run.writes : Int) ≤ e.order ∧ e.order < run.writes :=
  ⟨run.toList_store ▸ run.store.lists, run.store.indexed, run.within⟩

/-- A key that is merged before another goes on in front when it is written again. -/
example : (((collect [("b", .bool true)]).prepend (collect [("a", .bool true), ("b", .bool false)])).insert "a"
    (.bool false)).store.toList = [("a", .bool false), ("b", .bool true)] := rfl

end Store.Run
end FlatStore
