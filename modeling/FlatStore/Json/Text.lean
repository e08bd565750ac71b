import FlatStore.Json.Basic
import FlatStore.Number.Text

/-!
The written form of JSON values: a compact one without blanks, and one that puts every item and member on a line of
its own. Both write numbers and strings in the same way.
-/
namespace FlatStore.Json

/-- Floats are written without an exponent from `1e-5` up to below `1e16`, and always have a point or an exponent. -/
def numberLayout : NumberLayout := ⟨some (-5, 16), ".0", .toEven⟩

def hexDigit (n : Nat) : Char := Char.ofNat (if n < 10 then 48 + n else 87 + n)

/-- A character inside a string. Only the quote, the backslash and control characters are escaped. -/
def escape (c : Char) : List Char :=
  if c = '"' then ['\\', '"']
  else if c = '\\' then ['\\', '\\']
  else if c = '\n' then ['\\', 'n']
  else if c = '\r' then ['\\', 'r']
  else if c = '\t' then ['\\', 't']
  else if c = '\x08' then ['\\', 'b']
  else if c = '\x0c' then ['\\', 'f']
  else if c.toNat < 32 then ['\\', 'u', '0', '0', hexDigit (c.toNat / 16), hexDigit (c.toNat % 16)]
  else [c]

/-- A string in quotes. -/
def quote (s : String) : String := "\"" ++ String.ofList (s.toList.flatMap escape) ++ "\""

mutual
/-- The compact form. -/
def render : Json → String
  | .null => "null"
  | .bool b => if b then "true" else "false"
  | .whole n => toString n.val
  | .float x => x.text numberLayout
  | .string s => quote s
  | .array items => "[" ++ ",".intercalate (renderItems items) ++ "]"
  | .object members => "\x7b" ++ ",".intercalate (renderMembers members) ++ "\x7d"
def renderItems : List Json → List String
  | [] => []
  | item :: rest => item.render :: renderItems rest
def renderMembers : List (String × Json) → List String
  | [] => []
  | (name, value) :: rest => (quote name ++ ":" ++ value.render) :: renderMembers rest
end

theorem renderItems_eq_map (items : List Json) : renderItems items = items.map render := by
  induction items <;> simp_all [renderItems]

theorem renderMembers_eq_map (members : List (String × Json)) :
    renderMembers members = members.map fun (name, value) => quote name ++ ":" ++ value.render := by
  induction members <;> simp_all [renderMembers]

/-- The start of a line at a depth: two blanks for each level. -/
def newline (depth : Nat) : String := "\n" ++ String.ofList (List.replicate (2 * depth) ' ')

mutual
/-- The form with one item or member a line. Empty containers stay on their line. -/
def pretty (depth : Nat) : Json → String
  | .array [] => "[]"
  | .array items => "[" ++ ",".intercalate (prettyItems (depth + 1) items) ++ newline depth ++ "]"
  | .object [] => "\x7b\x7d"
  | .object members => "\x7b" ++ ",".intercalate (prettyMembers (depth + 1) members) ++ newline depth ++ "\x7d"
  | .null => "null"
  | .bool b => if b then "true" else "false"
  | .whole n => toString n.val
  | .float x => x.text numberLayout
  | .string s => quote s
def prettyItems (depth : Nat) : List Json → List String
  | [] => []
  | item :: rest => (newline depth ++ item.pretty depth) :: prettyItems depth rest
def prettyMembers (depth : Nat) : List (String × Json) → List String
  | [] => []
  | (name, value) :: rest => (newline depth ++ quote name ++ ": " ++ value.pretty depth) :: prettyMembers depth rest
end

end FlatStore.Json
