import FlatStore.Number.Binary64

/-!
JSON values. Numbers are whole numbers in the range that a text keeps exactly, or finite floats; the members of an
object keep the order in which they came.
-/
namespace FlatStore

/-- A whole number in the range that a JSON text keeps exactly: what 64 bits hold, with or without a sign. -/
structure Whole where
  val : Int
  least : -0x8000000000000000 ≤ val
  most : val < 0x10000000000000000
deriving DecidableEq

/-- The whole number, if it is in range. -/
def Whole.ofInt? (n : Int) : Option Whole :=
  if h : -0x8000000000000000 ≤ n ∧ n < 0x10000000000000000 then some ⟨n, h.1, h.2⟩ else none

def Whole.ofInt64 (n : Int64) : Whole :=
  ⟨n.toInt, n.le_toInt, Int.lt_trans n.toInt_lt (by decide)⟩

/-- The number in 64 bits with a sign, if it fits there. -/
def Whole.toInt64? (n : Whole) : Option Int64 :=
  if n.val < 0x8000000000000000 then some (Int64.ofInt n.val) else none

def Whole.zero : Whole := ⟨0, by decide, by decide⟩

inductive Json where
  | null
  | bool (b : Bool)
  | whole (n : Whole)
  | float (x : Finite64)
  | string (s : String)
  | array (items : List Json)
  | object (members : List (String × Json))

instance : Inhabited Json := ⟨.null⟩

/-- Sets a member. A name that is there keeps its place and takes the value; a new name goes last. -/
def setMember {α : Type} (name : String) (value : α) : List (String × α) → List (String × α)
  | [] => [(name, value)]
  | (n, v) :: rest => if n = name then (n, value) :: rest else (n, v) :: setMember name value rest

/-- Members given one after another. -/
def membersOf {α : Type} (given : List (String × α)) : List (String × α) :=
  given.foldl (fun members m => setMember m.1 m.2 members) []

namespace Json

/-- The short name of a value's type in messages. -/
def typeName : Json → String
  | .null => "null"
  | .bool _ => "bool"
  | .whole _ => "integer"
  | .float _ => "number"
  | .string _ => "string"
  | .array _ => "array"
  | .object _ => "object"

def isNull : Json → Bool
  | .null => true
  | _ => false

mutual
/-- No object inside the value names a member twice. -/
def Distinct : Json → Prop
  | .array items => DistinctItems items
  | .object members => (members.map Prod.fst).Nodup ∧ DistinctMembers members
  | _ => True
def DistinctItems : List Json → Prop
  | [] => True
  | item :: rest => item.Distinct ∧ DistinctItems rest
def DistinctMembers : List (String × Json) → Prop
  | [] => True
  | (_, value) :: rest => value.Distinct ∧ DistinctMembers rest
end

end Json
end FlatStore
