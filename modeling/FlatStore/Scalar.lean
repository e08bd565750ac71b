import FlatStore.Json.Text

/-!
Scalars: the values at the leaves of a flat store, their order, and how they are read from and written as JSON.
-/
namespace FlatStore

inductive ScalarKind where
  | string
  | bool
  | int
  | float
deriving DecidableEq

inductive Scalar where
  | bool (b : Bool)
  | int (n : Int64)
  | float (x : Binary64)
  | string (s : String)
deriving DecidableEq

namespace ScalarKind

def name : ScalarKind → String
  | .string => "string"
  | .bool => "bool"
  | .int => "int"
  | .float => "float"

def all : List ScalarKind := [.string, .bool, .int, .float]

def ofName? (name : String) : Option ScalarKind := all.find? (·.name = name)

/-- The scalar of a kind that stands for nothing stored. -/
def zero : ScalarKind → Scalar
  | .string => .string ""
  | .bool => .bool false
  | .int => .int 0
  | .float => .float (.finite .zero)

end ScalarKind

namespace Scalar

def kind : Scalar → ScalarKind
  | .bool _ => .bool
  | .int _ => .int
  | .float _ => .float
  | .string _ => .string

def text : Scalar → String
  | .bool b => if b then "true" else "false"
  | .int n => toString n.toInt
  | .float x => x.text
  | .string s => s

/-- The order of scalars: truth values, whole numbers, floats, strings, and each kind in its own order. -/
def le : Scalar → Scalar → Bool
  | .bool a, .bool b => !a || b
  | .bool _, _ => true
  | .int _, .bool _ => false
  | .int a, .int b => decide (a.toInt ≤ b.toInt)
  | .int _, _ => true
  | .float _, .bool _ | .float _, .int _ => false
  | .float a, .float b => decide (a.orderKey ≤ b.orderKey)
  | .float _, .string _ => true
  | .string a, .string b => decide (a ≤ b)
  | .string _, _ => false

/-- Scalars in their order. Those of which neither comes before the other keep theirs. -/
def sort (scalars : List Scalar) : List Scalar := scalars.mergeSort le

/-- Two scalars are the same if neither comes before the other: both zeros are, and what is not a number is the same
as itself. -/
def same (a b : Scalar) : Bool := a.le b && b.le a

/-- Floats that are not finite have no JSON form. -/
def toJson : Scalar → Json
  | .bool b => .bool b
  | .int n => .whole (.ofInt64 n)
  | .float (.finite x) => .float x
  | .float _ => .null
  | .string s => .string s

/-- The scalar of a JSON leaf. A whole number beyond 64 bits with a sign is a float. -/
def ofJson? : Json → Option Scalar
  | .bool b => some (.bool b)
  | .string s => some (.string s)
  | .whole n =>
    match n.toInt64? with
    | some n => some (.int n)
    | none => some (.float (.ofInt n.val))
  | .float x => some (.float (.finite x))
  | _ => none

/-- The scalar of a given kind that a JSON leaf holds. Every number is a float; otherwise the kinds have to agree. -/
def ofJsonAs? : ScalarKind → Json → Option Scalar
  | .string, .string s => some (.string s)
  | .bool, .bool b => some (.bool b)
  | .int, .whole n => n.toInt64?.map .int
  | .float, .whole n => some (.float (.ofInt n.val))
  | .float, .float x => some (.float (.finite x))
  | _, _ => none

end Scalar
end FlatStore
