import FlatStore.Store.Lemmas
import Mathlib.Data.List.Nodup

/-!
Ordered entries as lists. Whatever was done to ordered entries, each operation on them is a plain one on the list in
which they stand: a value is put at one place, where it replaces the entry of its key and order or no entry at all, or
goes to an end, and a fragment that is put behind or before others is joined to them, entry by entry
(`Ordered.run_spliced`). Only the order numbers of the fragment are new. They go on from those in use
(`Ordered.entries_append`), so that it does not matter in which order fragments are joined (`Ordered.append_assoc`).
-/
namespace FlatStore

namespace Entry

variable {α : Type}

/-! ### New order numbers -/

/-- Entries with order numbers given one after another. -/
def numbered (n : Int) : List (Entry α) → List (Entry α)
  | [] => []
  | e :: rest => { e with order := n } :: numbered (n + 1) rest

def content (e : Entry α) : String × α := (e.key, e.value)

theorem content_numbered (n : Int) (entries : List (Entry α)) :
    (numbered n entries).map content = entries.map content := by
  induction entries generalizing n with
  | nil => rfl
  | cons e rest ih => rw [numbered, List.map_cons, ih, List.map_cons, content, content]

theorem numbered_append (n : Int) (first second : List (Entry α)) :
    numbered n (first ++ second) = numbered n first ++ numbered (n + first.length) second := by
  induction first generalizing n with
  | nil => simp [numbered]
  | cons e rest ih =>
    rw [List.cons_append, numbered, ih, numbered, List.cons_append, List.length_cons]
    congr 3
    omega

/-- Only the last numbers that entries get count. -/
theorem numbered_numbered (n m : Int) (entries : List (Entry α)) : numbered n (numbered m entries) = numbered n entries := by
  induction entries generalizing n m with
  | nil => rfl
  | cons e rest ih => rw [numbered, numbered, ih, numbered]

/-! ### The place of an entry -/

/-- An entry is put between others, in the place of the one that has its key and order, if there is one. -/
theorem insertInto_place (e : Entry α) {entries : List (Entry α)} (sorted : entries.Pairwise Before) :
    (∃ front old back, entries = front ++ ⟨e.key, e.order, old⟩ :: back ∧ insertInto e entries = front ++ e :: back) ∨
      (∀ x ∈ entries, ¬ (x.order = e.order ∧ x.key = e.key)) ∧
        ∃ front back, entries = front ++ back ∧ insertInto e entries = front ++ e :: back := by
  induction entries with
  | nil => exact .inr ⟨by simp, [], [], rfl, rfl⟩
  | cons x rest ih =>
    obtain ⟨head, tail⟩ := List.pairwise_cons.1 sorted
    have apart : ∀ y : Entry α, e.Before y ∨ y.Before e → ¬ (y.order = e.order ∧ y.key = e.key) := by
      rintro y (before | before) ⟨order, key⟩
      · exact before.apart ⟨order.symm, key.symm⟩
      · exact before.apart ⟨order, key⟩
    unfold insertInto
    split
    · next before =>
      refine .inr ⟨fun y mem => apart y (.inl ?_), [], x :: rest, rfl, rfl⟩
      rcases List.mem_cons.1 mem with rfl | mem
      · exact before
      · exact before.trans (head y mem)
    · split
      · next before =>
        rcases ih tail with ⟨front, old, back, split, inserted⟩ | ⟨absent, front, back, split, inserted⟩
        · exact .inl ⟨x :: front, old, back, by rw [split, List.cons_append], by rw [inserted, List.cons_append]⟩
        · refine .inr ⟨fun y mem => ?_, x :: front, back, by rw [split, List.cons_append],
            by rw [inserted, List.cons_append]⟩
          rcases List.mem_cons.1 mem with rfl | mem
          · exact apart y (.inr before)
          · exact absent y mem
      · next notAfter notBefore =>
        obtain ⟨order, key⟩ := eq_of_not_before notBefore notAfter
        refine .inl ⟨[], x.value, rest, ?_, rfl⟩
        rw [List.nil_append, ← key, ← order]

end Entry

namespace Ordered

variable {α : Type}

/-! ### Operations -/

inductive Operation (α : Type) where
  | insert (key : String) (order : Int) (value : α)
  | insertLast (key : String) (value : α)
  | insertFirst (key : String) (value : α)
  | append (other : Ordered α)
  | prepend (other : Ordered α)

/-- What is answered: the value that a new one takes the place of, or the order number that is given out. -/
inductive Answer (α : Type) where
  | replaced (old : Option α)
  | placed (order : Int)
  | merged

def perform (s : Ordered α) : Operation α → Answer α × Ordered α
  | .insert key order value => (.replaced (s.get? key order), s.insert key order value)
  | .insertLast key value => (.placed s.nextOrder, s.insertLast key value)
  | .insertFirst key value => (.placed s.previousOrder, s.insertFirst key value)
  | .append other => (.merged, s.append other)
  | .prepend other => (.merged, s.prepend other)

def run (operations : List (Operation α)) : Ordered α := operations.foldl (fun s op => (s.perform op).2) empty

/-- What an operation is on the list of the entries: how it is answered, and the list after it. -/
inductive Splice (entries : List (Entry α)) : Operation α → Answer α → List (Entry α) → Prop
  | added {front back : List (Entry α)} {key : String} {order : Int} {value : α} :
    (∀ e ∈ entries, ¬ (e.order = order ∧ e.key = key)) → entries = front ++ back →
      Splice entries (.insert key order value) (.replaced none) (front ++ ⟨key, order, value⟩ :: back)
  | replaced {front back : List (Entry α)} {key : String} {order : Int} {old value : α} :
    entries = front ++ ⟨key, order, old⟩ :: back →
      Splice entries (.insert key order value) (.replaced (some old)) (front ++ ⟨key, order, value⟩ :: back)
  | last {key : String} {order : Int} {value : α} : (∀ e ∈ entries, e.order < order) →
      Splice entries (.insertLast key value) (.placed order) (entries ++ [⟨key, order, value⟩])
  | first {key : String} {order : Int} {value : α} : (∀ e ∈ entries, order < e.order) →
      Splice entries (.insertFirst key value) (.placed order) (⟨key, order, value⟩ :: entries)
  | append {other : Ordered α} {fragment : List (Entry α)} :
    fragment.map Entry.content = other.entries.map Entry.content →
      Splice entries (.append other) .merged (entries ++ fragment)
  | prepend {other : Ordered α} {fragment : List (Entry α)} :
    fragment.map Entry.content = other.entries.map Entry.content →
      Splice entries (.prepend other) .merged (fragment ++ entries)

/-! ### What they do -/

theorem ext {s t : Ordered α} (same : s.entries = t.entries) : s = t := by
  cases s
  cases t
  cases same
  rfl

theorem get?_eq_none_iff {s : Ordered α} {key : String} {order : Int} :
    s.get? key order = none ↔ ∀ e ∈ s.entries, ¬ (e.order = order ∧ e.key = key) := by
  constructor
  · rintro none ⟨k, o, value⟩ mem ⟨rfl, rfl⟩
    rw [get?_eq_some_iff.2 mem] at none
    cases none
  · intro absent
    refine Option.eq_none_iff_forall_ne_some.2 fun value found => ?_
    exact absent _ (get?_eq_some_iff.1 found) ⟨rfl, rfl⟩

theorem splice_insert (s : Ordered α) (key : String) (order : Int) (value : α) :
    Splice s.entries (.insert key order value) (.replaced (s.get? key order)) (s.insert key order value).entries := by
  have inserted : (s.insert key order value).entries = Entry.insertInto ⟨key, order, value⟩ s.entries := rfl
  rcases Entry.insertInto_place ⟨key, order, value⟩ s.sorted with ⟨front, old, back, split, same⟩ |
    ⟨absent, front, back, split, same⟩
  · have found : s.get? key order = some old := get?_eq_some_iff.2 (split ▸ List.mem_append_right _ List.mem_cons_self)
    rw [found, inserted, same]
    exact .replaced split
  · rw [get?_eq_none_iff.2 absent, inserted, same]
    exact .added absent split

theorem nextOrder_insertLast (s : Ordered α) (key : String) (value : α) :
    (s.insertLast key value).nextOrder = s.nextOrder + 1 := by
  rw [nextOrder, entries_insertLast, List.getLast?_append]
  rfl

theorem previousOrder_insertFirst (s : Ordered α) (key : String) (value : α) :
    (s.insertFirst key value).previousOrder = s.previousOrder - 1 := by
  rw [previousOrder, entries_insertFirst]
  rfl

private theorem foldl_insertLast (fragment : List (Entry α)) (s : Ordered α) :
    (fragment.foldl (fun s e => s.insertLast e.key e.value) s).entries =
        s.entries ++ Entry.numbered s.nextOrder fragment ∧
      (fragment.foldl (fun s e => s.insertLast e.key e.value) s).nextOrder = s.nextOrder + fragment.length := by
  induction fragment generalizing s with
  | nil => simp [Entry.numbered]
  | cons e rest ih =>
    obtain ⟨entries, next⟩ := ih (s.insertLast e.key e.value)
    rw [nextOrder_insertLast] at entries next
    constructor
    · rw [List.foldl_cons, entries, entries_insertLast, Entry.numbered, List.append_assoc, List.singleton_append]
    · rw [List.foldl_cons, next, List.length_cons]
      omega

/-- A fragment is put behind the entries with the order numbers that follow those in use. -/
theorem entries_append (s other : Ordered α) :
    (s.append other).entries = s.entries ++ Entry.numbered s.nextOrder other.entries :=
  (foldl_insertLast other.entries s).1

theorem nextOrder_append (s other : Ordered α) :
    (s.append other).nextOrder = s.nextOrder + other.entries.length :=
  (foldl_insertLast other.entries s).2

theorem entries_prepend (s other : Ordered α) : (s.prepend other).entries =
    Entry.numbered (s.previousOrder + 1 - other.entries.length) other.entries ++ s.entries := by
  have each : ∀ fragment : List (Entry α),
      (fragment.foldr (fun e s => s.insertFirst e.key e.value) s).entries =
          Entry.numbered (s.previousOrder + 1 - fragment.length) fragment ++ s.entries ∧
        (fragment.foldr (fun e s => s.insertFirst e.key e.value) s).previousOrder =
          s.previousOrder - fragment.length := by
    intro fragment
    induction fragment with
    | nil => simp [Entry.numbered]
    | cons e rest ih =>
      obtain ⟨entries, previous⟩ := ih
      constructor
      · have first : s.previousOrder + 1 - (rest.length + 1 : Nat) = s.previousOrder - rest.length := by omega
        have next : s.previousOrder - rest.length + 1 = s.previousOrder + 1 - rest.length := by omega
        rw [List.foldr_cons, entries_insertFirst, entries, previous, List.length_cons, first, Entry.numbered, next,
          List.cons_append]
      · rw [List.foldr_cons, previousOrder_insertFirst, previous, List.length_cons]
        omega
  exact (each other.entries).1

theorem append_assoc (first second third : Ordered α) :
    (first.append second).append third = first.append (second.append third) := by
  refine ext ?_
  calc ((first.append second).append third).entries
      = first.entries ++ (Entry.numbered first.nextOrder second.entries ++
          Entry.numbered (first.nextOrder + second.entries.length) third.entries) := by
        rw [entries_append, nextOrder_append, entries_append, List.append_assoc]
    _ = first.entries ++ Entry.numbered first.nextOrder
          (second.entries ++ Entry.numbered second.nextOrder third.entries) := by
        rw [Entry.numbered_append, Entry.numbered_numbered]
    _ = (first.append (second.append third)).entries := by rw [entries_append, entries_append]

theorem splice_perform (s : Ordered α) (op : Operation α) :
    Splice s.entries op (s.perform op).1 (s.perform op).2.entries := by
  cases op with
  | insert key order value => exact s.splice_insert key order value
  | insertLast key value =>
    rw [perform, entries_insertLast]
    exact .last fun _ mem => order_lt_nextOrder mem
  | insertFirst key value =>
    rw [perform, entries_insertFirst]
    exact .first fun _ mem => previousOrder_lt_order mem
  | append other =>
    rw [perform, entries_append]
    exact .append (Entry.content_numbered _ _)
  | prepend other =>
    rw [perform, entries_prepend]
    exact .prepend (Entry.content_numbered _ _)

theorem nodup_places (s : Ordered α) : (s.entries.map fun e => (e.key, e.order)).Nodup := by
  rw [List.nodup_iff_pairwise_ne, List.pairwise_map]
  refine s.sorted.imp fun {a b} before same => ?_
  obtain ⟨key, order⟩ := Prod.mk.inj same
  exact before.apart ⟨order, key⟩

/-- After any run, entries stand in the strict order of their order numbers and keys, none with the key and the order of
another, and each operation is one on the list of them: inserting replaces the entry of its key and order, and answers
what it held, or else adds one, a value that goes to an end gets an order number beyond all others, and a fragment is
joined with its keys and values as they are and in their order. Joining fragments is associative, order numbers
included. -/
theorem run_spliced (operations : List (Operation α)) :
    let s := run operations
    s.entries.Pairwise Entry.Before ∧ (s.entries.map fun e => (e.key, e.order)).Nodup ∧
      (∀ op, Splice s.entries op (s.perform op).1 (s.perform op).2.entries) ∧
      ∀ second third, (s.append second).append third = s.append (second.append third) :=
  ⟨(run operations).sorted, (run operations).nodup_places, (run operations).splice_perform,
    (run operations).append_assoc⟩

/-- Entries of a fragment are kept beside those of the same key and order. -/
example : (run [.insert "b" 0 1, .append (run [.insert "b" 0 2, .insert "a" (-4) 3])]).entries =
    [⟨"b", 0, 1⟩, ⟨"a", 1, 3⟩, ⟨"b", 2, 2⟩] := by decide

end Ordered
end FlatStore
