import FlatStore.Proofs.Accepted
import FlatStore.Store.Lemmas
import Mathlib.Data.List.FinRange
import Mathlib.Data.List.Induction
import Mathlib.Data.List.Perm.Subperm
import Mathlib.Tactic.Choose

/-!
The store of a document. It holds what the document writes, and it has as many entries as there are writes exactly if
no two of these share a slot (`Schema.size_eq_iff_nodup`). What is found in it below an address is then what the
document writes there (`Store.Holds`).
-/
namespace FlatStore

/-! ### Members given one after another -/

section
variable {α : Type} {given : List (String × α)} {name : String} {value : α}

theorem names_membersOf_subperm : ((membersOf given).map Prod.fst).Subperm (given.map Prod.fst) :=
  (nodup_membersOf given).subperm fun _ mem => mem_names_membersOf_iff.1 mem

theorem length_membersOf_le (given : List (String × α)) : (membersOf given).length ≤ given.length := by
  have few := (@names_membersOf_subperm α given).length_le
  rwa [List.length_map, List.length_map] at few

/-- Members keep their number exactly if they name none twice. -/
theorem length_membersOf_eq_iff : (membersOf given).length = given.length ↔ (given.map Prod.fst).Nodup := by
  constructor
  · intro same
    have perm := (@names_membersOf_subperm α given).perm_of_length_le (by rw [List.length_map, List.length_map, same])
    exact perm.nodup_iff.1 (nodup_membersOf given)
  · intro nodup
    rw [membersOf_eq_of_nodup nodup]

theorem mem_of_mem_membersOf (mem : (name, value) ∈ membersOf given) : (name, value) ∈ given := by
  induction given using List.reverseRecOn with
  | nil => exact mem
  | append_singleton rest member ih =>
    obtain ⟨n, v⟩ := member
    have kept : ∀ members : List (String × α), (name, value) ∈ setMember n v members →
        (name, value) ∈ members ∨ (name, value) = (n, v) := by
      intro members
      induction members with
      | nil => exact fun mem => .inr (List.mem_singleton.1 mem)
      | cons head tail ih =>
        rw [setMember]
        split
        · next same =>
          intro mem
          rcases List.mem_cons.1 mem with here | mem
          · exact .inr (by rw [here, same])
          · exact .inl (List.mem_cons_of_mem _ mem)
        · intro mem
          rcases List.mem_cons.1 mem with here | mem
          · exact .inl (here ▸ List.mem_cons_self)
          · exact (ih mem).imp_left (List.mem_cons_of_mem _)
    rw [membersOf_append] at mem
    rcases kept _ mem with mem | same
    · exact List.mem_append_left _ (ih mem)
    · exact List.mem_append_right _ (List.mem_singleton.2 same)

end

/-! ### The entries of a trace -/

/-- The keys and scalars of writes. -/
def Writes.entries (writes : Writes) : List (String × Scalar) := writes.map fun (slot, value) => (slot.key, value)

/-- The slots of writes. -/
def Writes.slots (writes : Writes) : List Slot := writes.map Prod.fst

namespace Writes

variable {writes : Writes} {slot : Slot} {value : Scalar}

theorem mem_slots_iff : slot ∈ writes.slots ↔ ∃ value, (slot, value) ∈ writes := by
  simp [slots]

theorem slots_append (first second : Writes) : slots (first ++ second) = first.slots ++ second.slots :=
  List.map_append

theorem names_entries : writes.entries.map Prod.fst = writes.slots.map Slot.key := by
  simp [entries, slots]

theorem nodup_names_entries_iff : (writes.entries.map Prod.fst).Nodup ↔ writes.slots.Nodup := by
  rw [names_entries, List.nodup_map_iff Slot.key_injective]

theorem mem_entries_iff : (slot.key, value) ∈ writes.entries ↔ (slot, value) ∈ writes := by
  constructor
  · intro mem
    obtain ⟨⟨other, v⟩, held, same⟩ := List.mem_map.1 mem
    obtain ⟨key, rfl⟩ := Prod.mk.inj same
    rwa [← Slot.key_injective key]
  · exact fun mem => List.mem_map.2 ⟨_, mem, rfl⟩

end Writes

/-! ### The store of a document -/

namespace Schema

variable {schema : Schema} {value : Json} {s : Store}

/-- A document that is flattened is accepted, and its store is made of what it writes. -/
theorem flatten_eq_ok_iff : schema.flatten value false = .ok s ↔
    schema.Accepts value .root false ∧ s = .ofList (schema.writes value .root false).entries := by
  unfold flatten flattenInto Accepts
  dsimp only
  cases failed : (schema.trace false value .root false).failure with
  | some error => simp
  | none =>
    have same : (schema.trace false value .root false).entries = (schema.writes value .root false).entries := rfl
    simp only [same, true_and, Except.ok.injEq]
    exact eq_comm

theorem flatten_eq_error {e : FlattenError} (failed : (schema.trace false value .root false).failure = some e) :
    schema.flatten value false = .error e := by
  unfold flatten flattenInto
  simp only [failed]

/-- No write of a document replaces another exactly if no two have the same slot. -/
theorem size_eq_iff_nodup (stored : schema.flatten value false = .ok s) :
    s.size = (schema.writes value .root false).length ↔ (schema.writes value .root false).slots.Nodup := by
  obtain ⟨-, rfl⟩ := flatten_eq_ok_iff.1 stored
  rw [Store.size_eq_length, Store.toList_ofList, ← Writes.nodup_names_entries_iff, ← length_membersOf_eq_iff,
    Writes.entries, List.length_map]

/-- The entries of a store are among those that the document writes. -/
theorem mem_writes_of_get? (stored : schema.flatten value false = .ok s) {slot : Slot} {found : Scalar}
    (get : s.get? slot.key = some found) : (slot, found) ∈ schema.writes value .root false := by
  obtain ⟨-, rfl⟩ := flatten_eq_ok_iff.1 stored
  rw [Store.get?_eq_some_iff, Store.toList_ofList] at get
  exact Writes.mem_entries_iff.1 (mem_of_mem_membersOf get)

theorem mem_keys_of_mem_slots (stored : schema.flatten value false = .ok s) {slot : Slot}
    (mem : slot ∈ (schema.writes value .root false).slots) : slot.key ∈ s.keys := by
  obtain ⟨-, rfl⟩ := flatten_eq_ok_iff.1 stored
  rw [Store.keys, Store.toList_ofList, mem_names_membersOf_iff, Writes.names_entries]
  exact List.mem_map.2 ⟨slot, mem, rfl⟩

theorem toList_of_nodup (stored : schema.flatten value false = .ok s)
    (nodup : (schema.writes value .root false).slots.Nodup) :
    s.toList = (schema.writes value .root false).entries := by
  obtain ⟨-, rfl⟩ := flatten_eq_ok_iff.1 stored
  rw [Store.toList_ofList, membersOf_eq_of_nodup (Writes.nodup_names_entries_iff.2 nodup)]

end Schema

/-- A store has at least as many entries as there are indices of one address with entries of their own. -/
theorem Store.le_size_of_indices (s : Store) {b : Address} {n : Nat}
    (each : ∀ i < n, ∃ slot : Slot, slot.Under (b.index i) ∧ slot.key ∈ s.keys) : n ≤ s.size := by
  choose slot under mem using each
  let keys := (List.finRange n).map fun i : Fin n => (slot i i.isLt).key
  have nodup : keys.Nodup := by
    refine (List.nodup_finRange n).map fun (i j : Fin n) same => ?_
    have slots := Slot.key_injective same
    have first := under i i.isLt
    rw [slots] at first
    exact Fin.ext (Segment.index.inj (first.child_eq (under j j.isLt)))
  have subset : keys ⊆ s.keys := by
    intro key held
    obtain ⟨i, -, rfl⟩ := List.mem_map.1 held
    exact mem i i.isLt
  calc n = keys.length := by simp [keys]
    _ ≤ s.keys.length := (nodup.subperm subset).length_le
    _ = s.size := by rw [Store.keys, List.length_map, Store.size_eq_length]

/-! ### What a store holds at an address -/

/-- Whether what a store holds at an address and below it is just what is written there. -/
def Store.Holds (s : Store) (a : Address) (writes : Writes) : Prop :=
  ∀ slot : Slot, slot.Under a → ∀ value, s.get? slot.key = some value ↔ (slot, value) ∈ writes

namespace Store.Holds

variable {s : Store} {a b : Address} {writes inner : Writes}

/-- Below an address a store holds those of the writes that stand there. -/
theorem narrow (holds : s.Holds a writes) (under : ∀ slot : Slot, slot.Under b → slot.Under a)
    (only : ∀ entry ∈ writes, entry.1.Under b → entry ∈ inner) (subset : inner ⊆ writes) : s.Holds b inner := by
  intro slot below value
  rw [holds slot (under slot below) value]
  exact ⟨fun mem => only _ mem below, fun mem => subset mem⟩

theorem mem_keys (holds : s.Holds a writes) {entry : Slot × Scalar} (mem : entry ∈ writes)
    (under : ∀ entry ∈ writes, entry.1.Under a) : entry.1.key ∈ s.keys :=
  Store.mem_keys_iff.2 ⟨entry.2, Store.get?_eq_some_iff.1 ((holds entry.1 (under entry mem) entry.2).2 mem)⟩

theorem get?_leaf (holds : s.Holds a writes) (value : Scalar) :
    s.get? a.text = some value ↔ (.leaf a, value) ∈ writes :=
  holds (.leaf a) (Slot.under_self _) value

theorem get?_count (holds : s.Holds a writes) (value : Scalar) :
    s.get? a.countKey = some value ↔ (.count a, value) ∈ writes :=
  holds (.count a) (Slot.under_self _) value

theorem get?_eq_none (nothing : s.Holds a []) {slot : Slot} (under : slot.Under a) : s.get? slot.key = none := by
  refine Option.eq_none_iff_forall_ne_some.2 fun value found => ?_
  cases (nothing slot under value).1 found

end Store.Holds

/-- The store of a document without colliding writes holds them at the root. -/
theorem Schema.holds_root {schema : Schema} {value : Json} {s : Store} (stored : schema.flatten value false = .ok s)
    (nodup : (schema.writes value .root false).slots.Nodup) :
    s.Holds .root (schema.writes value .root false) := by
  intro slot _ found
  rw [Store.get?_eq_some_iff, toList_of_nodup stored nodup, Writes.mem_entries_iff]

end FlatStore
