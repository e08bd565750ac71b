import FlatStore.Record.Rule

/-!
Projects: records whose id is given by the other side of the wire.
-/
namespace FlatStore

/-- Reads the members of a project. -/
def Project.known : Members (Option String × String × List String) :=
  (Members.optional "id" .string).and <| (Members.required "name" .string).and <|
    Members.required "members" (.list .string)

structure Project where
  id : Option String
  name : String
  members : List String
  others : Unclaimed (Project.known.names ++ Members.none.names)

namespace Project

def descriptor : Descriptor :=
  .record "Project" [{ FieldDescriptor.of "id" "id" (.optional (.scalar .string)) with computed := true },
    .of "name" "name" (.scalar .string), .of "members" "members" (.list (.scalar .string))]

def decoder : Decoder Project :=
  (known.openDecoder "struct Project" Members.none).map fun ((id, name, members), _, others) => ⟨id, name, members, others⟩

/-- The members that the project does not know. -/
def unknown (p : Project) : OtherMembers := p.others.members

def toJson (p : Project) : Json :=
  .object (Json.memberOf "id" .string p.id ++ [("name", .string p.name), ("members", .strings p.members)] ++ p.unknown)

instance : Record Project := ⟨descriptor, [], decoder, toJson⟩

end Project
end FlatStore
