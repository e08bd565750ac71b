import FlatStore.Decode.Record
import FlatStore.Decode.Tagged
import FlatStore.Record.Standard

/-!
Rules: records with an embedded record, a list of wrapped elements, a dictionary, a set and a tagged union. Members
that a rule does not know are kept and written after the others.
-/
namespace FlatStore

/-- Members that a record does not know, in the order in which they came. -/
abbrev OtherMembers := List (String × Json)

/-- A member that is left out where it has no value. -/
def Json.memberOf {α : Type} (name : String) (write : α → Json) : Option α → List (String × Json)
  | some value => [(name, write value)]
  | none => []

structure Condition where
  fieldName : String
  value : String
deriving DecidableEq

namespace Condition

def descriptor : Descriptor :=
  .record "Condition" [.of "field_name" "fieldName" (.scalar .string), .of "value" "value" (.scalar .string)]

def decoder : Decoder Condition :=
  ((Members.required "fieldName" .string).and (.required "value" .string)).map (fun (name, value) => ⟨name, value⟩)
    |>.decoder "struct Condition"

def toJson (c : Condition) : Json := .object [("fieldName", .string c.fieldName), ("value", .string c.value)]

instance : Record Condition := ⟨descriptor, [], decoder, toJson⟩

end Condition

/-- A condition in its wrapper. -/
structure ConditionEntry where
  condition : Condition
deriving DecidableEq

namespace ConditionEntry

def descriptor : Descriptor := .record "ConditionEntry" [.of "condition" "condition" Condition.descriptor]

def decoder : Decoder ConditionEntry :=
  (Members.required "condition" Condition.decoder).map .mk |>.decoder "struct ConditionEntry"

def toJson (e : ConditionEntry) : Json := .object [("condition", e.condition.toJson)]

instance : Record ConditionEntry := ⟨descriptor, [], decoder, toJson⟩

end ConditionEntry

structure Meta where
  owner : String
  revision : Option Int64
deriving DecidableEq

namespace Meta

def descriptor : Descriptor :=
  .record "Meta" [.of "owner" "owner" (.scalar .string), .of "revision" "revision" (.optional (.scalar .int))]

def members : Members Meta :=
  ((Members.required "owner" .string).and (.optional "revision" .int)).map (fun (owner, revision) => ⟨owner, revision⟩)

def decoder : Decoder Meta := members.decoder "struct Meta"

def toMembers (m : Meta) : List (String × Json) :=
  ("owner", .string m.owner) :: Json.memberOf "revision" .int m.revision

def toJson (m : Meta) : Json := .object m.toMembers

instance : Record Meta := ⟨descriptor, [], decoder, toJson⟩

end Meta

structure Click where
  x : Int64
  y : Int64
deriving DecidableEq

namespace Click

def descriptor : Descriptor := .record "Click" [.of "x" "x" (.scalar .int), .of "y" "y" (.scalar .int)]

def decoder : Decoder Click :=
  ((Members.required "x" .int).and (.required "y" .int)).map (fun (x, y) => ⟨x, y⟩) |>.decoder "struct Click"

def toMembers (c : Click) : List (String × Json) := [("x", .int c.x), ("y", .int c.y)]

instance : Record Click := ⟨descriptor, [], decoder, fun c => .object c.toMembers⟩

end Click

structure Tap where
  duration : Int64
deriving DecidableEq

namespace Tap

def descriptor : Descriptor := .record "Tap" [.of "duration" "duration" (.scalar .int)]

def decoder : Decoder Tap := (Members.required "duration" .int).map .mk |>.decoder "struct Tap"

def toMembers (t : Tap) : List (String × Json) := [("duration", .int t.duration)]

instance : Record Tap := ⟨descriptor, [], decoder, fun t => .object t.toMembers⟩

end Tap

/-- What happened, told apart by its type. -/
inductive Event where
  | click (click : Click)
  | tap (tap : Tap)
deriving DecidableEq

namespace Event

def descriptor : Descriptor :=
  .union ⟨"Event", ⟨"type", "type"⟩,
    [⟨"Click", ["click"], none, Click.descriptor⟩, ⟨"Tap", ["tap"], none, Tap.descriptor⟩], none⟩

def decoder : Decoder Event :=
  Tagged.decoder ⟨"internally tagged enum Event", "type",
    [("click", Click.decoder.map .click), ("tap", Tap.decoder.map .tap)]⟩

/-- The type is written first. -/
def toJson : Event → Json
  | .click c => .object (("type", .string "click") :: c.toMembers)
  | .tap t => .object (("type", .string "tap") :: t.toMembers)

instance : Record Event := ⟨descriptor, [], decoder, toJson⟩

end Event

/-- Reads the members of a rule that are not embedded. -/
def Rule.members : Members (String × List ConditionEntry × Option (List String) × Dictionary String × StringSet ×
    Option Event × Binary64) :=
  (Members.required "name" .string).and <|
    (Members.required "conditions" (.list ConditionEntry.decoder)).and <|
    (Members.optional "tags" (.list .string)).and <|
    (Members.required "labels" (.sortedDictionary .string)).and <| (Members.required "selectors" .stringSet).and <|
    (Members.optional "event" Event.decoder).and <| Members.required "weight" .float

structure Rule where
  name : String
  info : Meta
  conditions : List ConditionEntry
  tags : Option (List String)
  labels : Dictionary String
  selectors : StringSet
  event : Option Event
  weight : Binary64
  others : Unclaimed (Rule.members.names ++ Meta.members.names)

namespace Rule

def descriptor : Descriptor :=
  .record "Rule" [.of "name" "name" (.scalar .string), .embed "meta" Meta.descriptor,
    .of "conditions" "conditions" (.list ConditionEntry.descriptor),
    .of "tags" "tags" (.optional (.list (.scalar .string))), .of "labels" "labels" (.map (.scalar .string)),
    .of "selectors" "selectors" (.set (.scalar .string)), .of "event" "event" (.optional Event.descriptor),
    .of "weight" "weight" (.scalar .float)]

def decoder : Decoder Rule :=
  (members.openDecoder "struct Rule" Meta.members).map
    fun ((name, conditions, tags, labels, selectors, event, weight), info, others) =>
      ⟨name, info, conditions, tags, labels, selectors, event, weight, others⟩

/-- The members that the rule does not know. -/
def unknown (r : Rule) : OtherMembers := r.others.members

def toJson (r : Rule) : Json :=
  .object ([("name", .string r.name)] ++ r.info.toMembers ++
    [("conditions", .array (r.conditions.map ConditionEntry.toJson))] ++
    Json.memberOf "tags" .strings r.tags ++
    [("labels", r.labels.toJson .string), ("selectors", .strings r.selectors.keys)] ++
    Json.memberOf "event" Event.toJson r.event ++ [("weight", .number r.weight)] ++ r.unknown)

instance : Record Rule := ⟨descriptor, [], decoder, toJson⟩

end Rule
end FlatStore
