/-!
Entries with order numbers. An entry is found by its key and its order together, and the entries stand in the order of
these numbers, entries of one number in the order of their keys. Fragments that were numbered independently can be put
before or behind one another, since their entries then get new numbers outside of those in use.
-/
namespace FlatStore

structure Entry (α : Type) where
  key : String
  order : Int
  value : α
deriving DecidableEq

/-- Whether an entry stands before another. -/
def Entry.Before {α : Type} (a b : Entry α) : Prop :=
  a.order < b.order ∨ a.order = b.order ∧ a.key < b.key

instance {α : Type} (a b : Entry α) : Decidable (a.Before b) :=
  inferInstanceAs (Decidable (_ ∨ _))

/-- Entries, none of which has both the key and the order of another. -/
structure Ordered (α : Type) where
  entries : List (Entry α)
  sorted : entries.Pairwise Entry.Before

namespace Entry

variable {α : Type}

theorem Before.trans {a b c : Entry α} (ab : a.Before b) (bc : b.Before c) : a.Before c := by
  rcases ab with lt | ⟨eq, lt⟩ <;> rcases bc with lt' | ⟨eq', lt'⟩
  · exact .inl (Int.lt_trans lt lt')
  · exact .inl (eq' ▸ lt)
  · exact .inl (eq ▸ lt')
  · exact .inr ⟨eq.trans eq', String.lt_trans lt lt'⟩

theorem Before.irrefl {a : Entry α} : ¬ a.Before a := by
  rintro (lt | ⟨-, lt⟩)
  · exact Int.lt_irrefl _ lt
  · exact String.lt_irrefl _ lt

/-- Entries of one key and order stand in one place. -/
theorem Before.apart {a b : Entry α} (before : a.Before b) : ¬ (a.order = b.order ∧ a.key = b.key) := by
  rintro ⟨order, key⟩
  rcases before with lt | ⟨-, lt⟩
  · omega
  · exact String.lt_irrefl _ (key ▸ lt)

/-- Entries of which neither stands before the other share key and order. -/
theorem eq_of_not_before {a b : Entry α} (ab : ¬ a.Before b) (ba : ¬ b.Before a) :
    a.order = b.order ∧ a.key = b.key := by
  have order : a.order = b.order :=
    Int.le_antisymm (Int.not_lt.1 fun lt => ba (.inl lt)) (Int.not_lt.1 fun lt => ab (.inl lt))
  refine ⟨order, ?_⟩
  exact String.le_antisymm (String.not_lt.1 fun lt => ba (.inr ⟨order.symm, lt⟩))
    (String.not_lt.1 fun lt => ab (.inr ⟨order, lt⟩))

/-- Puts an entry in its place, where it replaces one of the same key and order. -/
def insertInto (e : Entry α) : List (Entry α) → List (Entry α)
  | [] => [e]
  | x :: rest =>
    if e.Before x then e :: x :: rest
    else if x.Before e then x :: insertInto e rest
    else e :: rest

/-- Inserting keeps the other entries, adds the new one and drops the one in its place. -/
theorem mem_insertInto {e x : Entry α} {entries : List (Entry α)} (sorted : entries.Pairwise Before) :
    x ∈ insertInto e entries ↔ x = e ∨ x ∈ entries ∧ ¬ (x.order = e.order ∧ x.key = e.key) := by
  induction entries with
  | nil => simp [insertInto]
  | cons y rest ih =>
    obtain ⟨head, tail⟩ := List.pairwise_cons.1 sorted
    have apart : ∀ z : Entry α, e.Before z ∨ z.Before e → ¬ (z.order = e.order ∧ z.key = e.key) := by
      rintro z (before | before) ⟨order, key⟩
      · exact before.apart ⟨order.symm, key.symm⟩
      · exact before.apart ⟨order, key⟩
    unfold insertInto
    split
    · next before =>
      constructor
      · intro mem
        rcases List.mem_cons.1 mem with rfl | mem
        · exact .inl rfl
        · refine .inr ⟨mem, apart x (.inl ?_)⟩
          rcases List.mem_cons.1 mem with rfl | mem
          · exact before
          · exact before.trans (head x mem)
      · rintro (rfl | ⟨mem, -⟩)
        · exact List.mem_cons_self
        · exact List.mem_cons_of_mem _ mem
    · split
      · next before =>
        rw [List.mem_cons, ih tail, List.mem_cons]
        constructor
        · rintro (rfl | rfl | ⟨mem, ne⟩)
          · exact .inr ⟨.inl rfl, apart x (.inr before)⟩
          · exact .inl rfl
          · exact .inr ⟨.inr mem, ne⟩
        · rintro (rfl | ⟨rfl | mem, ne⟩)
          · exact .inr (.inl rfl)
          · exact .inl rfl
          · exact .inr (.inr ⟨mem, ne⟩)
      · next notAfter notBefore =>
        obtain ⟨order, key⟩ := eq_of_not_before notBefore notAfter
        rw [List.mem_cons, List.mem_cons]
        constructor
        · rintro (rfl | mem)
          · exact .inl rfl
          · exact .inr ⟨.inr mem, fun ⟨order', key'⟩ =>
              (head x mem).apart ⟨order.trans order'.symm, key.trans key'.symm⟩⟩
        · rintro (rfl | ⟨rfl | mem, ne⟩)
          · exact .inl rfl
          · exact absurd ⟨order, key⟩ ne
          · exact .inr mem

theorem insertInto_last {e : Entry α} {entries : List (Entry α)} (last : ∀ x ∈ entries, x.Before e) :
    insertInto e entries = entries ++ [e] := by
  induction entries with
  | nil => rfl
  | cons x rest ih =>
    have before := last x List.mem_cons_self
    have notAfter : ¬ e.Before x := fun after => Before.irrefl (after.trans before)
    simp [insertInto, before, notAfter, ih fun y mem => last y (List.mem_cons_of_mem _ mem)]

theorem insertInto_first {e : Entry α} {entries : List (Entry α)} (first : ∀ x ∈ entries, e.Before x) :
    insertInto e entries = e :: entries := by
  cases entries with
  | nil => rfl
  | cons x rest => simp [insertInto, first x List.mem_cons_self]

theorem insertInto_sorted (e : Entry α) {entries : List (Entry α)} (sorted : entries.Pairwise Before) :
    (insertInto e entries).Pairwise Before := by
  induction entries with
  | nil => simp [insertInto]
  | cons y rest ih =>
    obtain ⟨head, tail⟩ := List.pairwise_cons.1 sorted
    unfold insertInto
    split
    · next before =>
      refine List.pairwise_cons.2 ⟨fun z mem => ?_, sorted⟩
      rcases List.mem_cons.1 mem with rfl | mem
      · exact before
      · exact before.trans (head z mem)
    · split
      · next before =>
        refine List.pairwise_cons.2 ⟨fun z mem => ?_, ih tail⟩
        rcases (mem_insertInto tail).1 mem with rfl | ⟨mem, -⟩
        · exact before
        · exact head z mem
      · next notAfter notBefore =>
        obtain ⟨order, key⟩ := eq_of_not_before notBefore notAfter
        refine List.pairwise_cons.2 ⟨fun z mem => ?_, tail⟩
        rcases head z mem with lt | ⟨eq, lt⟩
        · exact .inl (order ▸ lt)
        · exact .inr ⟨order ▸ eq, key ▸ lt⟩

end Entry

namespace Ordered

variable {α : Type}

def empty : Ordered α := ⟨[], .nil⟩

def size (s : Ordered α) : Nat := s.entries.length

def isEmpty (s : Ordered α) : Bool := s.entries.isEmpty

/-- The value under a key and an order. -/
def get? (s : Ordered α) (key : String) (order : Int) : Option α :=
  (s.entries.find? fun e => e.key = key && e.order = order).map Entry.value

/-- All entries under a key. -/
def find (s : Ordered α) (key : String) : List (Int × α) :=
  s.entries.filterMap fun e => if e.key = key then some (e.order, e.value) else none

/-- Puts a value under a key and an order, where it replaces what is there. -/
def insert (s : Ordered α) (key : String) (order : Int) (value : α) : Ordered α :=
  ⟨Entry.insertInto ⟨key, order, value⟩ s.entries, Entry.insertInto_sorted _ s.sorted⟩

/-- The first order number behind all entries. -/
def nextOrder (s : Ordered α) : Int :=
  match s.entries.getLast? with
  | some e => e.order + 1
  | none => 0

/-- The last order number before all entries. -/
def previousOrder (s : Ordered α) : Int :=
  match s.entries.head? with
  | some e => e.order - 1
  | none => 0

def insertLast (s : Ordered α) (key : String) (value : α) : Ordered α := s.insert key s.nextOrder value

def insertFirst (s : Ordered α) (key : String) (value : α) : Ordered α := s.insert key s.previousOrder value

/-- The entries of both stores, those of the second behind all of the first. -/
def append (s other : Ordered α) : Ordered α :=
  other.entries.foldl (fun s e => s.insertLast e.key e.value) s

/-- The entries of both stores, those of the second before all of the first. -/
def prepend (s other : Ordered α) : Ordered α :=
  other.entries.foldr (fun e s => s.insertFirst e.key e.value) s

theorem mem_insert {s : Ordered α} {key : String} {order : Int} {value : α} {x : Entry α} :
    x ∈ (s.insert key order value).entries ↔
      x = ⟨key, order, value⟩ ∨ x ∈ s.entries ∧ ¬ (x.order = order ∧ x.key = key) :=
  Entry.mem_insertInto s.sorted

/-- All order numbers in use lie below the next one. -/
theorem order_lt_nextOrder {s : Ordered α} {x : Entry α} (mem : x ∈ s.entries) : x.order < s.nextOrder := by
  unfold nextOrder
  split
  · next last found =>
    obtain ⟨before, split⟩ := List.getLast?_eq_some_iff.1 found
    have sorted := split ▸ s.sorted
    rw [split] at mem
    rcases List.mem_append.1 mem with mem | mem
    · rcases (List.pairwise_append.1 sorted).2.2 x mem last (by simp) with lt | ⟨eq, -⟩ <;> omega
    · obtain rfl := List.mem_singleton.1 mem
      omega
  · next none =>
    rw [List.getLast?_eq_none_iff.1 none] at mem
    cases mem

/-- All order numbers in use lie above the previous one. -/
theorem previousOrder_lt_order {s : Ordered α} {x : Entry α} (mem : x ∈ s.entries) : s.previousOrder < x.order := by
  unfold previousOrder
  split
  · next first found =>
    obtain ⟨rest, split⟩ := List.head?_eq_some_iff.1 found
    have sorted := split ▸ s.sorted
    rw [split] at mem
    rcases List.mem_cons.1 mem with rfl | mem
    · omega
    · rcases (List.pairwise_cons.1 sorted).1 x mem with lt | ⟨eq, -⟩ <;> omega
  · next none =>
    rw [List.head?_eq_none_iff.1 none] at mem
    cases mem

/-- A value put last stands behind the others, which stay as they are. -/
theorem entries_insertLast (s : Ordered α) (key : String) (value : α) :
    (s.insertLast key value).entries = s.entries ++ [⟨key, s.nextOrder, value⟩] :=
  Entry.insertInto_last fun _ mem => .inl (order_lt_nextOrder mem)

/-- A value put first stands before the others, which stay as they are. -/
theorem entries_insertFirst (s : Ordered α) (key : String) (value : α) :
    (s.insertFirst key value).entries = ⟨key, s.previousOrder, value⟩ :: s.entries :=
  Entry.insertInto_first fun _ mem => .inl (previousOrder_lt_order mem)

/-- The keys and values in their order. -/
def toList (s : Ordered α) : List (String × α) := s.entries.map fun e => (e.key, e.value)

theorem toList_insertLast (s : Ordered α) (key : String) (value : α) :
    (s.insertLast key value).toList = s.toList ++ [(key, value)] := by
  simp [toList, entries_insertLast]

theorem toList_insertFirst (s : Ordered α) (key : String) (value : α) :
    (s.insertFirst key value).toList = (key, value) :: s.toList := by
  simp [toList, entries_insertFirst]

theorem toList_append (s other : Ordered α) : (s.append other).toList = s.toList ++ other.toList := by
  have general : ∀ (entries : List (Entry α)) (s : Ordered α),
      (entries.foldl (fun s e => s.insertLast e.key e.value) s).toList =
        s.toList ++ entries.map fun e => (e.key, e.value) := by
    intro entries
    induction entries with
    | nil => simp
    | cons e rest ih => intro s; simp [ih, toList_insertLast]
  exact general other.entries s

theorem toList_prepend (s other : Ordered α) : (s.prepend other).toList = other.toList ++ s.toList := by
  have general : ∀ entries : List (Entry α),
      (entries.foldr (fun e s => s.insertFirst e.key e.value) s).toList =
        (entries.map fun e => (e.key, e.value)) ++ s.toList := by
    intro entries
    induction entries with
    | nil => simp
    | cons e rest ih => simp [ih, toList_insertFirst]
  exact general other.entries

/-- Keys and values, numbered from zero. -/
def ofList (given : List (String × α)) : Ordered α :=
  given.foldl (fun s pair => s.insertLast pair.1 pair.2) empty

theorem toList_ofList (given : List (String × α)) : (ofList given).toList = given := by
  have general : ∀ (given : List (String × α)) (s : Ordered α),
      (given.foldl (fun s pair => s.insertLast pair.1 pair.2) s).toList = s.toList ++ given := by
    intro given
    induction given with
    | nil => simp
    | cons pair rest ih => intro s; simp [ih, toList_insertLast]
  exact general given empty

end Ordered
end FlatStore
