import FlatStore.Json.Token

/-!
Drafts: what a text says as far as it can be read. A draft is a JSON value in which a fault stands wherever a reader
would meet one, so that a reader that walks a draft from left to right meets problems of form and of content in the
order in which they stand. A JSON value is a draft without faults.
-/
namespace FlatStore

abbrev DraftName := Except Flaw String

inductive Draft where
  | null
  | bool (b : Bool)
  | whole (n : Whole)
  | float (x : Finite64)
  | string (s : String)
  | flawed (flaw : Flaw)
  /-- An array, and the fault that stands where it should end. -/
  | array (items : List Draft) (closing : Option Fault)
  /-- An object, and the fault that stands where it should end. -/
  | object (members : List (DraftName × Draft)) (closing : Option Fault)

instance : Inhabited Draft := ⟨.null⟩

namespace Draft

mutual
/-- The fault that a reader meets which looks for the end of the value and nothing else. -/
def skipFault : Draft → Option Fault
  | .flawed flaw => flaw.onSkip
  | .array items closing => (skipItems items).or closing
  | .object members closing => (skipMembers members).or closing
  | _ => none
def skipItems : List Draft → Option Fault
  | [] => none
  | item :: rest => item.skipFault.or (skipItems rest)
def skipMembers : List (DraftName × Draft) → Option Fault
  | [] => none
  | (name, value) :: rest =>
    match name with
    | .error ⟨_, some fault⟩ => some fault
    | _ => value.skipFault.or (skipMembers rest)
end

def close (closing : Option Fault) : Except Fault Unit :=
  match closing with
  | some fault => .error fault
  | none => .ok ()

def readName (name : DraftName) : Except Fault String := name.mapError Flaw.onRead

mutual
/-- The value that a draft holds, or the first fault in it. A member given twice keeps its first place and its last
value. -/
def read : Draft → Except Fault Json
  | .null => .ok .null
  | .bool b => .ok (.bool b)
  | .whole n => .ok (.whole n)
  | .float x => .ok (.float x)
  | .string s => .ok (.string s)
  | .flawed flaw => .error flaw.onRead
  | .array items closing => do
    let items ← readItems items
    close closing
    return .array items
  | .object members closing => do
    let members ← readMembers members
    close closing
    return .object (membersOf members)
def readItems : List Draft → Except Fault (List Json)
  | [] => .ok []
  | item :: rest => do
    let item ← item.read
    let rest ← readItems rest
    return item :: rest
def readMembers : List (DraftName × Draft) → Except Fault (List (String × Json))
  | [] => .ok []
  | (name, value) :: rest => do
    let name ← readName name
    let value ← value.read
    let rest ← readMembers rest
    return (name, value) :: rest
end

mutual
def ofJson : Json → Draft
  | .null => .null
  | .bool b => .bool b
  | .whole n => .whole n
  | .float x => .float x
  | .string s => .string s
  | .array items => .array (ofItems items) none
  | .object members => .object (ofMembers members) none
def ofItems : List Json → List Draft
  | [] => []
  | item :: rest => ofJson item :: ofItems rest
def ofMembers : List (String × Json) → List (DraftName × Draft)
  | [] => []
  | (name, value) :: rest => (.ok name, ofJson value) :: ofMembers rest
end

mutual
def height : Draft → Nat
  | .array items _ => heightItems items + 1
  | .object members _ => heightMembers members + 1
  | _ => 0
def heightItems : List Draft → Nat
  | [] => 0
  | item :: rest => max item.height (heightItems rest)
def heightMembers : List (DraftName × Draft) → Nat
  | [] => 0
  | (_, value) :: rest => max value.height (heightMembers rest)
end

/-! ### From tokens

The containers that are open stand on a stack, the innermost first. Each token either changes the stack and what is
expected next, or ends the value. -/

/-- An open container with what it holds so far, last first. -/
inductive Frame where
  | array (done : List Draft)
  | object (done : List (DraftName × Draft))
  /-- An object in which the value of a member is awaited. -/
  | member (done : List (DraftName × Draft)) (name : DraftName)

inductive Expected where
  | value
  | itemOrEnd
  | commaOrEnd
  | nameOrEnd
  | name
  | colon (name : DraftName)

inductive Progress where
  | goOn (stack : List Frame) (expected : Expected)
  | done (value : Draft)

namespace Frame

def take (value : Draft) : Frame → Frame
  | .array done => .array (value :: done)
  | .object done => .object done
  | .member done name => .object ((name, value) :: done)

def draft (closing : Option Fault) : Frame → Draft
  | .array done => .array done.reverse closing
  | .object done => .object done.reverse closing
  | .member done _ => .object done.reverse closing

end Frame

/-- How many containers may be open around a value that is read. -/
def maxDepth : Nat := 127

/-- A container inside of others. One that lies too deep can only be skipped. -/
def limit (around : List Frame) (container : Draft) : Draft :=
  if (around.take maxDepth).length < maxDepth then container else .flawed ⟨.malformed, container.skipFault⟩

/-- The value of a text that stops inside the innermost container. -/
def abandon (fault : Fault) (value : Draft) : List Frame → Draft
  | [] => value
  | frame :: stack => abandon fault (limit stack ((frame.take value).draft (some fault))) stack

def stop (stack : List Frame) (expected : Expected) (fault : Fault) : Draft :=
  let broken : Draft := .flawed (.hard fault)
  match expected, stack with
  | .value, stack | .itemOrEnd, stack => abandon fault broken stack
  | .colon name, .object done :: stack => abandon fault broken (.member done name :: stack)
  | _, frame :: stack => abandon fault (limit stack (frame.draft (some fault))) stack
  | _, [] => broken

def finish (value : Draft) : List Frame → Progress
  | [] => .done value
  | frame :: stack => .goOn (frame.take value :: stack) .commaOrEnd

def startValue (stack : List Frame) : Token → Option Progress
  | .openArray => some (.goOn (.array [] :: stack) .itemOrEnd)
  | .openObject => some (.goOn (.object [] :: stack) .nameOrEnd)
  | .null => some (finish .null stack)
  | .bool b => some (finish (.bool b) stack)
  | .whole n => some (finish (.whole n) stack)
  | .float x => some (finish (.float x) stack)
  | .text (.ok s) => some (finish (.string s) stack)
  | .text (.error flaw) => some (finish (.flawed flaw) stack)
  | .flawed flaw => some (finish (.flawed flaw) stack)
  | _ => none

/-- One token. `none` if it may not stand here. -/
def step : List Frame → Expected → Token → Option Progress
  | .array done :: stack, .itemOrEnd, .closeArray
  | .array done :: stack, .commaOrEnd, .closeArray =>
    some (finish (limit stack (.array done.reverse none)) stack)
  | .object done :: stack, .nameOrEnd, .closeObject
  | .object done :: stack, .commaOrEnd, .closeObject =>
    some (finish (limit stack (.object done.reverse none)) stack)
  | stack, .value, token | stack, .itemOrEnd, token => startValue stack token
  | .array done :: stack, .commaOrEnd, .comma => some (.goOn (.array done :: stack) .value)
  | .object done :: stack, .commaOrEnd, .comma => some (.goOn (.object done :: stack) .name)
  | stack, .nameOrEnd, .text name | stack, .name, .text name => some (.goOn stack (.colon name))
  | .object done :: stack, .colon name, .colon => some (.goOn (.member done name :: stack) .value)
  | _, _, _ => none

def build (stack : List Frame) (expected : Expected) : List Token → Draft × List Token
  | [] => (stop stack expected .truncated, [])
  | token :: rest =>
    match step stack expected token with
    | some (.goOn stack expected) => build stack expected rest
    | some (.done value) => (value, rest)
    | none => (stop stack expected .malformed, [])

/-- The value at the start of a text. What follows it is not looked at. -/
def ofBytes (bytes : List UInt8) : Draft := (build [] .value (Token.all bytes)).1

end Draft

def Json.parse (bytes : List UInt8) : Except Fault Json :=
  let (draft, rest) := Draft.build [] .value (Token.all bytes)
  match draft.read with
  | .ok value => if rest.isEmpty then .ok value else .error .malformed
  | .error fault => .error fault

end FlatStore
