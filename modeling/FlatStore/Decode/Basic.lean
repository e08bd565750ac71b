import FlatStore.Json.Draft
import FlatStore.Scalar
import FlatStore.Text.Printable

/-!
Decoders read domain values from drafts, and so from JSON texts and from JSON values alike. A text is met from left to
right, so that the first problem in it is the answer, be it one of form or of content. A problem of content says which
member or item it is in.
-/
namespace FlatStore

/-- What a decoder reads from. A value that has been set aside until its tag is known is buffered: problems in it are
reported for the place of the outermost value that was set aside. -/
inductive Form where
  | text
  | value
  | buffered
deriving DecidableEq

inductive Step where
  | member (name : String)
  | item (i : Nat)
deriving DecidableEq

/-- The written form of a path: a point for the whole value, otherwise `a.b[1].c`. -/
def Step.pathText : List Step → String
  | [] => "."
  | .member name :: rest => name ++ below rest
  | .item i :: rest => "[" ++ toString i ++ "]" ++ below rest
where
  below : List Step → String
    | [] => ""
    | .member name :: rest => "." ++ name ++ below rest
    | .item i :: rest => "[" ++ toString i ++ "]" ++ below rest

inductive Found where
  | null
  | bool (b : Bool)
  | whole (n : Whole)
  | float (x : Finite64)
  | string (s : String)
  | sequence
  | map
deriving DecidableEq

namespace Found

def text : Found → String
  | .null => "null"
  | .bool b => "boolean `" ++ (if b then "true" else "false") ++ "`"
  | .whole n => "integer `" ++ toString n.val ++ "`"
  | .float x => "floating point `" ++ x.text Json.numberLayout ++ "`"
  | .string s => "string " ++ Quoted.quote s
  | .sequence => "sequence"
  | .map => "map"

end Found

inductive Cause where
  | missingMember (name : String)
  | repeatedMember (name : String)
  | wrongType (found : Found) (expected : String)
  | wrongValue (found : Found) (expected : String)
  | unknownName (name : String) (known : List String)
  | wrongLength (length : Nat) (expected : String)
  | nonScalar (key : String)
deriving DecidableEq

/-- The choice that names leave. -/
def alternatives : List String → String
  | [] => "there are no variants"
  | [a] => "expected `" ++ a ++ "`"
  | [a, b] => "expected `" ++ a ++ "` or `" ++ b ++ "`"
  | names => "expected one of " ++ ", ".intercalate (names.map fun n => "`" ++ n ++ "`")

def Cause.message : Cause → String
  | .missingMember name => "missing field `" ++ name ++ "`"
  | .repeatedMember name => "duplicate field `" ++ name ++ "`"
  | .wrongType found expected => "invalid type: " ++ found.text ++ ", expected " ++ expected
  | .wrongValue found expected => "invalid value: " ++ found.text ++ ", expected " ++ expected
  | .unknownName name known => "unknown variant `" ++ name ++ "`, " ++ alternatives known
  | .wrongLength length expected => "invalid length " ++ toString length ++ ", expected " ++ expected
  | .nonScalar key => "`" ++ key ++ "` holds a non-scalar value"

inductive Problem where
  | fault (fault : Fault)
  | content (path : List Step) (cause : Cause)
deriving DecidableEq

/-- A problem in a part, seen from the whole. -/
def Problem.inside (form : Form) (step : Step) : Problem → Problem
  | .fault met => .fault met
  | .content path cause => .content (if form = .buffered then path else step :: path) cause

abbrev Decoder (α : Type) := Form → Draft → Except Problem α

namespace Decoder

variable {α β : Type}

/-- What a draft is, as messages call it. -/
def found : Draft → Except Fault Found
  | .null => .ok .null
  | .bool b => .ok (.bool b)
  | .whole n => .ok (.whole n)
  | .float x => .ok (.float x)
  | .string s => .ok (.string s)
  | .flawed flaw => .error flaw.onRead
  | .array _ _ => .ok .sequence
  | .object _ _ => .ok .map

/-- Refuses a draft of a type that is not the expected one. -/
def refuse (expected : String) (draft : Draft) : Except Problem α :=
  match found draft with
  | .ok found => .error (.content [] (.wrongType found expected))
  | .error fault => .error (.fault fault)

def faults {α : Type} (read : Except Fault α) : Except Problem α := read.mapError .fault

def part (form : Form) (step : Step) (decode : Decoder α) (draft : Draft) : Except Problem α :=
  (decode form draft).mapError (.inside form step)

protected def map (f : α → β) (decode : Decoder α) : Decoder β := fun form draft => (decode form draft).map f

def string : Decoder String
  | _, .string s => .ok s
  | _, draft => refuse "a string" draft

def bool : Decoder Bool
  | _, .bool b => .ok b
  | _, draft => refuse "a boolean" draft

def int : Decoder Int64
  | _, .whole n =>
    match n.toInt64? with
    | some n => .ok n
    | none => .error (.content [] (.wrongValue (.whole n) "i64"))
  | _, draft => refuse "i64" draft

def size : Decoder UInt64
  | _, .whole n =>
    if 0 ≤ n.val then .ok (.ofNat n.val.toNat) else .error (.content [] (.wrongValue (.whole n) "usize"))
  | _, draft => refuse "usize" draft

/-- Any number, whole ones too. -/
def float : Decoder Binary64
  | _, .whole n => .ok (.ofInt n.val)
  | _, .float x => .ok (.finite x)
  | _, draft => refuse "f64" draft

def json : Decoder Json := fun _ draft => faults draft.read

def optional (decode : Decoder α) : Decoder (Option α)
  | _, .null => .ok none
  | form, draft => (decode form draft).map some

def items (decode : Decoder α) (form : Form) (i : Nat) : List Draft → Except Problem (List α)
  | [] => .ok []
  | item :: rest => do
    let item ← part form (.item i) decode item
    let rest ← items decode form (i + 1) rest
    return item :: rest

def list (decode : Decoder α) : Decoder (List α)
  | form, .array drafts closing => do
    let found ← items decode form 0 drafts
    faults (Draft.close closing)
    return found
  | _, draft => refuse "a sequence" draft

def members (decode : Decoder α) (form : Form) : List (DraftName × Draft) → Except Problem (List (String × α))
  | [] => .ok []
  | (name, value) :: rest => do
    let name ← faults (Draft.readName name)
    let value ← part form (.member name) decode value
    let rest ← members decode form rest
    return (name, value) :: rest

/-- An object whose members have names of their own choice. Of members of one name the last counts. -/
def dictionary (decode : Decoder α) : Decoder (List (String × α))
  | form, .object drafts closing => do
    let found ← members decode form drafts
    faults (Draft.close closing)
    return membersOf found
  | _, draft => refuse "a map" draft

/-- Reads the start of a text. What follows the value is not looked at. -/
def ofText (decode : Decoder α) (text : List UInt8) : Except Problem α := decode .text (.ofBytes text)

def ofJson (decode : Decoder α) (value : Json) : Except Problem α := decode .value (.ofJson value)

end Decoder
end FlatStore
