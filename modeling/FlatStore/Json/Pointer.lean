import FlatStore.Json.Basic
import FlatStore.Text.Pieces

/-!
JSON pointers: texts that lead from a value to a part of it. Each step stands behind a slash; `~1` in a step is a slash
and `~0` a tilde.
-/
namespace FlatStore.Json

/-- A step as it is meant. All `~1` are read before the first `~0` is. -/
def unescapeStep (step : List Char) : List Char := tildes (slashes step)
where
  slashes : List Char → List Char
    | '~' :: '1' :: rest => '/' :: slashes rest
    | c :: rest => c :: slashes rest
    | [] => []
  tildes : List Char → List Char
    | '~' :: '0' :: rest => '~' :: tildes rest
    | c :: rest => c :: tildes rest
    | [] => []

/-- The index that a step is. It has no sign and no leading zeros, and at most 64 bits. -/
def stepIndex? (step : List Char) : Option Nat :=
  if step.isEmpty || !step.all isDecimalDigit || (step.head? = some '0' && step.length ≠ 1) then none
  else if numeralValue step < 0x10000000000000000 then some (numeralValue step)
  else none

def follow? : List (List Char) → Json → Option Json
  | [], value => some value
  | step :: rest, .object members => (members.lookup (String.ofList step)).bind (follow? rest)
  | step :: rest, .array items => (stepIndex? step).bind fun i => items[i]?.bind (follow? rest)
  | _ :: _, _ => none

def pointer? (pointer : String) (value : Json) : Option Json :=
  match pieces '/' pointer.toList with
  | [[]] => some value
  | [] :: steps => follow? (steps.map unescapeStep) value
  | _ => none

end FlatStore.Json
