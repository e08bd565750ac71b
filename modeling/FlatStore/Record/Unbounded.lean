import FlatStore.Decode.Record
import FlatStore.Record.Standard

/-!
Records that have a JSON form and no flat form: one with a member of any content, and a chain that may be of any
length.
-/
namespace FlatStore

/-- A type of any content has no flat form. -/
def Descriptor.anyContent : Descriptor := .unsupported "serde_json::Value"

structure Loose where
  blob : Json

namespace Loose

def descriptor : Descriptor := .record "Loose" [.of "blob" "blob" .anyContent]

def decoder : Decoder Loose := (Members.required "blob" .json).map .mk |>.decoder "struct Loose"

instance : Record Loose where
  descriptor := descriptor
  decoder := decoder
  toJson l := .object [("blob", l.blob)]

end Loose

/-- A link in a chain. -/
inductive Node where
  | mk (next : Option Node)

namespace Node

/-- The type of nodes refers to itself by its name. -/
def catalog : Catalog := [("Node", .record "Node" [.of "next" "next" (.optional (.named "Node"))])]

/-- Reads chains that are shorter than a bound. -/
def decoderWithin : Nat → Decoder Node
  | 0 => fun _ _ => .error (.fault .malformed)
  | bound + 1 => (Members.optional "next" (decoderWithin bound)).map .mk |>.decoder "struct Node"

/-- Reads a chain. It is no longer than its draft is high. -/
def decoder : Decoder Node := fun form draft => decoderWithin (draft.height + 1) form draft

def toJson : Node → Json
  | .mk none => .object [("next", .null)]
  | .mk (some next) => .object [("next", next.toJson)]

instance : Record Node where
  descriptor := .named "Node"
  catalog := catalog
  decoder := decoder
  toJson := toJson

end Node
end FlatStore
