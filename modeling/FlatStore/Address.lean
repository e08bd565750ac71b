import FlatStore.Text.Pieces

/-!
Addresses into a flat store. An address is a sequence of segments, field names and indices, and is written with points
between them (`rules.0.name`). The size of the collection at an address stands at its count key, the address followed
by the segment `#`. No field name can be taken for an index, for the count segment or for more than one segment, so
that an address and its written form determine each other.
-/
namespace FlatStore

def countSegment : String := "#"

/-- A decimal numeral without leading zeros. -/
def isIndexText (text : List Char) : Bool :=
  text = ['0'] || (!text.isEmpty && text.head? ≠ some '0' && text.all isDecimalDigit)

def isFieldName (name : String) : Bool :=
  name ≠ "" && !name.toList.contains '.' && name ≠ countSegment && !isIndexText name.toList

structure FieldName where
  text : String
  usable : isFieldName text = true
deriving DecidableEq

inductive Segment where
  | field (name : FieldName)
  | index (i : Nat)
deriving DecidableEq

structure Address where
  segments : List Segment
deriving DecidableEq

inductive AddressFault where
  | unusableName (name : String)
  | replacedRoot
deriving DecidableEq

def AddressFault.message : AddressFault → String
  | .unusableName name => "`" ++ name ++ "` is not a valid address segment"
  | .replacedRoot => "cannot replace the last segment of the root path"

def FieldName.of (name : String) : Except AddressFault FieldName :=
  if usable : isFieldName name = true then .ok ⟨name, usable⟩ else .error (.unusableName name)

namespace Segment

def text : Segment → String
  | .field name => name.text
  | .index i => toString i

/-- Fields come before indices, fields by their characters and indices by their number. -/
def compare : Segment → Segment → Ordering
  | .field a, .field b => Ord.compare a.text b.text
  | .field _, .index _ => .lt
  | .index _, .field _ => .gt
  | .index a, .index b => Ord.compare a b

end Segment

namespace Address

def root : Address := ⟨[]⟩

def isRoot (a : Address) : Bool := a.segments.isEmpty

def length (a : Address) : Nat := a.segments.length

def index (a : Address) (i : Nat) : Address := ⟨a.segments ++ [.index i]⟩

/-- The address of a field whose name is known to be usable. -/
def field (a : Address) (name : FieldName) : Address := ⟨a.segments ++ [.field name]⟩

def append (a : Address) (name : String) : Except AddressFault Address := do
  return a.field (← FieldName.of name)

/-- The address of the field that stands beside the last segment under another name. -/
def replaceLast (a : Address) (name : String) : Except AddressFault Address := do
  let name ← FieldName.of name
  if a.isRoot then throw .replacedRoot
  return ⟨a.segments.dropLast ++ [.field name]⟩

/-- The address of the block that the fields of a value stand in: the value itself for the root and for the elements of
a collection, which are sliced out of it, and otherwise the only element of a collection of its own. -/
def block (a : Address) (sliced : Bool) : Address := if sliced || a.isRoot then a else a.index 0

/-- The address above, and the last segment. The root has none. -/
def parent? (a : Address) : Option (Address × Segment) :=
  a.segments.getLast?.map fun last => (⟨a.segments.dropLast⟩, last)

def text (a : Address) : String := ".".intercalate (a.segments.map Segment.text)

/-- The key of the count of the collection at an address. -/
def countKey (a : Address) : String := if a.isRoot then countSegment else a.text ++ "." ++ countSegment

/-- Segment by segment, a prefix first. -/
def compare (a b : Address) : Ordering := go a.segments b.segments
where
  go : List Segment → List Segment → Ordering
    | [], [] => .eq
    | [], _ :: _ => .lt
    | _ :: _, [] => .gt
    | s :: rest, t :: more => (s.compare t).then (go rest more)

def sortDistinct (addresses : List Address) : List Address :=
  (addresses.mergeSort fun a b => (a.compare b).isLE).eraseReps

/-! ### Reading addresses -/

/-- The segment of a piece. Numerals are indices, which have at most 64 bits. -/
def segment? (piece : List Char) : Option Segment :=
  if isIndexText piece then
    if numeralValue piece < 0x10000000000000000 then some (.index (numeralValue piece)) else none
  else if usable : isFieldName (String.ofList piece) = true then some (.field ⟨String.ofList piece, usable⟩)
  else none

def parse? (text : String) : Option Address :=
  if text = "" then some .root else (pieces '.' text.toList).mapM segment? |>.map Address.mk

end Address
end FlatStore
