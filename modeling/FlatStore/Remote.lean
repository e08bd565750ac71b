import FlatStore.Record.Project

/-!
Resources on a remote service. A request goes through a transport, which is somebody else's, and every operation knows
the one status that it takes for success. What is sent and what comes back is the text of the record.
-/
namespace FlatStore

inductive Method where
  | get
  | post
  | put
  | delete
deriving DecidableEq

def Method.name : Method → String
  | .get => "GET"
  | .post => "POST"
  | .put => "PUT"
  | .delete => "DELETE"

structure Request where
  method : Method
  path : String
  body : Option String
  /-- The status that means success. -/
  expected : Nat
deriving DecidableEq

inductive Answer where
  | reply (status : Nat) (body : String)
  | lost (message : String)
deriving DecidableEq

inductive ApiError where
  | unexpectedStatus (request : Request) (status : Nat) (body : String)
  | transport (request : Request) (message : String)
  | missingId (kind action : String)
  | record (error : RecordError)
deriving DecidableEq

/-- A way to send requests, which may change with each of them. -/
abbrev Transport (σ : Type) := Request → StateM σ Answer

/-- A type of resources: what they are called, where they are kept, and which id each has. -/
class Resource (α : Type) extends Record α where
  kind : String
  collection : String
  id? : α → Option String

namespace Resource

variable {α σ : Type} [Resource α]

abbrev Operation (σ : Type) (α : Type) := ExceptT ApiError (StateM σ) α

/-- The body of the reply to a request, if it has the expected status. -/
def exchange (transport : Transport σ) (request : Request) : Operation σ String := do
  match ← (transport request : StateM σ Answer) with
  | .lost message => throw (.transport request message)
  | .reply status body =>
    if status = request.expected then return body else throw (.unexpectedStatus request status body)

def received (body : String) : Operation σ α :=
  match Record.ofWire body.toUTF8.toList with
  | .ok record => return record
  | .error error => throw (.record error)

def itemPath (α : Type) [Resource α] (id : String) : String := collection α ++ "/" ++ id

/-- The id of a resource, without which it cannot be acted on. An empty one is none. -/
def requiredId (value : α) (action : String) : Operation σ String :=
  match (id? value).filter (· ≠ "") with
  | some id => return id
  | none => throw (.missingId (kind α) action)

def create (transport : Transport σ) (value : α) : Operation σ α := do
  received (← exchange transport ⟨.post, collection α, some (Record.toWire value), 201⟩)

def read (α : Type) [Resource α] (transport : Transport σ) (id : String) : Operation σ α := do
  received (← exchange transport ⟨.get, itemPath α id, none, 200⟩)

def update (transport : Transport σ) (value : α) : Operation σ α := do
  let id ← requiredId value "updated"
  received (← exchange transport ⟨.put, itemPath α id, some (Record.toWire value), 200⟩)

def delete (transport : Transport σ) (value : α) : Operation σ Unit := do
  let id ← requiredId value "deleted"
  discard (exchange transport ⟨.delete, itemPath α id, none, 204⟩)

end Resource

/-- Answers that are given one for each request, and the requests so far, last first. -/
structure Rehearsal where
  answers : List Answer
  requests : List Request

namespace Rehearsal

/-- Takes the next answer. When there is none left, the service has failed. -/
def transport : Transport Rehearsal := fun request rehearsal =>
  match rehearsal.answers with
  | [] => (.reply 500 "", ⟨[], request :: rehearsal.requests⟩)
  | answer :: rest => (answer, ⟨rest, request :: rehearsal.requests⟩)

end Rehearsal

def ApiError.message : ApiError → String
  | .unexpectedStatus request status _ =>
    request.method.name ++ " " ++ request.path ++ ": expected status " ++ toString request.expected ++ ", got " ++
      toString status
  | .transport request message => request.method.name ++ " " ++ request.path ++ ": " ++ message
  | .missingId kind action => kind ++ " has no id and cannot be " ++ action
  | .record error => error.message

instance : Resource Project where
  kind := "project"
  collection := "projects"
  id? := Project.id

end FlatStore
