import FlatStore.Decode.Basic
import FlatStore.Store

/-!
Reading stores from their JSON form: an object whose members are scalars.
-/
namespace FlatStore.Store

def scalarsOf : List (String × Json) → Except String (List (String × Scalar))
  | [] => .ok []
  | (key, value) :: rest =>
    match Scalar.ofJson? value with
    | some scalar => (scalarsOf rest).map ((key, scalar) :: ·)
    | none => .error key

/-- The store of an object. The object is read to its end before the first member that is no scalar is refused. -/
def decoder : Decoder Store
  | _, .object members closing => do
    let given ← Decoder.faults (Draft.readMembers members)
    Decoder.faults (Draft.close closing)
    match scalarsOf (membersOf given) with
    | .ok scalars => return .ofList scalars
    | .error key => throw (.content [] (.nonScalar key))
  | _, draft => Decoder.refuse "an object of address keys to scalar values" draft

end FlatStore.Store
