import FlatStore.Store

/-!
Sources: whatever answers reads by address as a flat store does. Besides stores these are single scalars, lists and
sets of scalars, and JSON trees that have the shape of the address space.
-/
namespace FlatStore

inductive StoreError where
  | ambiguousRoot (path : String) (size : Nat)
  | badCount (path found : String)
  | unbackedCount (path : String) (count entries : Nat)
deriving DecidableEq

def StoreError.message : StoreError → String
  | .ambiguousRoot path size =>
    "`" ++ path ++ "`: collection of " ++ toString size ++ " elements has no single value; index it first"
  | .badCount path found =>
    "`" ++ path ++ "`: element count must be a non-negative integer, found `" ++ found ++ "`"
  | .unbackedCount path count entries =>
    "`" ++ path ++ "`: count " ++ toString count ++ " exceeds the " ++ toString entries ++ " entries in the store"

structure Source where
  get : Address → Except StoreError (Option Scalar)
  /-- The size of the collection at an address. An empty collection is there, and a missing one is not. -/
  count : Address → Except StoreError (Option Nat)
  /-- The number of entries, where it is known. -/
  size? : Option Nat

namespace Source

/-- The size of the collection at an address, refused where it is larger than the number of entries. -/
def backedCount (source : Source) (a : Address) : Except StoreError (Option Nat) := do
  match ← source.count a, source.size? with
  | some n, some entries => if entries < n then throw (.unbackedCount a.text n entries) else return some n
  | count, _ => return count

/-- The strings of a collection in the order of their indices, each once. Other elements are passed over. -/
def stringSet (source : Source) (a : Address) : Except StoreError (List String) := do
  let n := (← source.backedCount a).getD 0
  (List.range n).foldlM (fun found i => do
    match ← source.get (a.index i) with
    | some (.string s) => return if found.contains s then found else found ++ [s]
    | _ => return found) []

def single (value : Option Scalar) : Source where
  get a := .ok (if a.isRoot then value else none)
  count _ := .ok none
  size? := none

/-- Scalars at the indices of the root. The root itself has a value where there is just one. -/
def ofList (items : List Scalar) : Source where
  get a :=
    match a.segments with
    | [] =>
      match items with
      | [] => .ok none
      | [item] => .ok (some item)
      | _ => .error (.ambiguousRoot a.text items.length)
    | [.index i] => .ok items[i]?
    | _ => .ok none
  count a := .ok (if a.isRoot then some items.length else none)
  size? := none

def distinct (items : List Scalar) : List Scalar :=
  items.foldl (fun kept item => if kept.any (·.same item) then kept else kept ++ [item]) []

def ofSet (items : List Scalar) : Source := ofList (Scalar.sort (distinct items))

/-- The value that segments lead to: fields to members, indices to items. -/
def lookup : List Segment → Json → Option Json
  | [], value => some value
  | .field name :: rest, .object members => (members.lookup name.text).bind (lookup rest)
  | .index i :: rest, .array items => items[i]?.bind (lookup rest)
  | _, _ => none

def ofTree (tree : Json) : Source where
  get a :=
    match lookup a.segments tree with
    | some (.array items) =>
      if a.isRoot && 1 < items.length then .error (.ambiguousRoot a.text items.length) else .ok none
    | some leaf => .ok (Scalar.ofJson? leaf)
    | none => .ok none
  count a :=
    match lookup a.segments tree with
    | some (.array items) => .ok (some items.length)
    | _ => .ok none
  size? := none

end Source

def countOf (a : Address) : Option Scalar → Except StoreError (Option Nat)
  | none => .ok none
  | some (.int n) => if 0 ≤ n.toInt then .ok (some n.toInt.toNat) else .error (.badCount a.text (Scalar.int n).text)
  | some found => .error (.badCount a.text found.text)

def Store.source (s : Store) : Source where
  get a := .ok (s.get? a.text)
  count a := countOf a (s.get? a.countKey)
  size? := some s.size

end FlatStore
