import FlatStore.Resolve

/-!
The round trip of a document: it is flattened, the store is resolved, and what comes back is flattened again. A
document survives it if both stores have the same entries in the same order.
-/
namespace FlatStore

inductive RoundTripError where
  | flatten (error : FlattenError)
  | resolve (error : ResolveError)
  | flattenAgain (error : FlattenError)
  /-- The key of the first entry that differs, or the two numbers of entries. -/
  | changed (difference : String)
deriving DecidableEq

def sameEntry (a b : String × Scalar) : Bool := a.1 == b.1 && a.2.same b.2

def firstDifference (first second : Store) : Option String :=
  match (first.toList.zip second.toList).find? fun (a, b) => !sameEntry a b with
  | some (a, _) => some a.1
  | none =>
    if first.size = second.size then none
    else some ("entry count " ++ toString first.size ++ " vs " ++ toString second.size)

/-- What an absent document is taken for. -/
def resolvedOrNull (schema : Schema) (s : Store) : Resolved Json :=
  (schema.resolveRoot s.source).map (·.getD .null)

def checkRoundTrip (schema : Schema) (value : Json) : Except RoundTripError Unit := do
  let first ← (schema.flatten value false).mapError .flatten
  let back ← (resolvedOrNull schema first).mapError .resolve
  let second ← (schema.flatten back false).mapError .flattenAgain
  match firstDifference first second with
  | some difference => throw (.changed difference)
  | none => return ()

end FlatStore
