import FlatStore.Json.Basic
import FlatStore.Text.Pieces

/-!
Filters: expressions that give any number of values for one. `.` is the value itself, `.a` a member, `[n]` an item and
`[]` every part; behind a bar a filter goes on with each value, and at a comma the values of two filters stand one
after another.
-/
namespace FlatStore

inductive Filter where
  | identity
  | empty
  | member (source : Filter) (name : String)
  | item (source : Filter) (i : Int)
  | parts (source : Filter)
  | both (first second : Filter)
  | pipe (first second : Filter)

namespace Filter

/-- A member of an object. One that is missing is null. -/
def memberOf (name : String) : Json → Option Json
  | .object members => some ((members.lookup name).getD .null)
  | _ => none

/-- An item of an array, counted from the end if the index is negative. One that is missing is null. An index is a
number of 64 bits with its sign. -/
def itemOf (i : Int) : Json → Option Json
  | .array items =>
    if i.natAbs < 0x8000000000000000 then
      let index := if i < 0 then i + items.length else i
      if index < 0 then some .null else some ((items[index.toNat]?).getD .null)
    else none
  | _ => none

def partsOf : Json → Option (List Json)
  | .array items => some items
  | .object members => some (members.map Prod.snd)
  | _ => none

def run : Filter → Json → Option (List Json)
  | .identity, value => some [value]
  | .empty, _ => some []
  | .member source name, value => do (← source.run value).mapM (memberOf name)
  | .item source i, value => do (← source.run value).mapM (itemOf i)
  | .parts source, value => do return (← (← source.run value).mapM partsOf).flatten
  | .both first second, value => do return (← first.run value) ++ (← second.run value)
  | .pipe first second, value => do return (← (← first.run value).mapM second.run).flatten

/-! ### Reading filters -/

inductive Symbol where
  /-- A point that no word follows. -/
  | dot
  /-- A point and the word that follows it without a blank. -/
  | name (text : String)
  | word (text : String)
  | number (n : Nat)
  | minus
  | openBracket
  | closeBracket
  | comma
  | bar
deriving DecidableEq

def startsWord (c : Char) : Bool := c.isAlpha || c = '_'
def isWordPart (c : Char) : Bool := startsWord c || isDecimalDigit c

/-- The symbols of a text, if it has no others. Blanks part symbols, and a number sign begins a remark that goes to
the end of its line. -/
def symbols : List Char → Option (List Symbol)
  | [] => some []
  | c :: rest =>
    if isWhiteSpace c then symbols rest
    else if c = '#' then symbols (rest.dropWhile (· ≠ '\n'))
    else if c = '.' then
      if rest.head?.any startsWord then
        (symbols (rest.dropWhile isWordPart)).map (.name (String.ofList (rest.takeWhile isWordPart)) :: ·)
      else if rest.head? = some '.' then none
      else (symbols rest).map (.dot :: ·)
    else if startsWord c then
      (symbols (rest.dropWhile isWordPart)).map (.word (String.ofList (c :: rest.takeWhile isWordPart)) :: ·)
    else if isDecimalDigit c then
      (symbols (rest.dropWhile isDecimalDigit)).map
        (.number (numeralValue (c :: rest.takeWhile isDecimalDigit)) :: ·)
    else if c = '-' then if rest.head? = some '-' then none else (symbols rest).map (.minus :: ·)
    else if c = '[' then (symbols rest).map (.openBracket :: ·)
    else if c = ']' then (symbols rest).map (.closeBracket :: ·)
    else if c = ',' then (symbols rest).map (.comma :: ·)
    else if c = '|' then (symbols rest).map (.bar :: ·)
    else none
termination_by text => text.length
decreasing_by
  all_goals
    have words := (List.dropWhile_suffix (l := rest) isWordPart).length_le
    have digits := (List.dropWhile_suffix (l := rest) isDecimalDigit).length_le
    have remark := (List.dropWhile_suffix (l := rest) (· ≠ '\n')).length_le
    simp only [List.length_cons]
    omega

def index? : List Symbol → Option Int
  | [.number n] => some n
  | .minus :: rest => (index? rest).map (- ·)
  | _ => none

def bracket? (source : Filter) : List Symbol → Option Filter
  | [] => some (.parts source)
  | inside => (index? inside).map (.item source)

def steps (source : Filter) : List Symbol → Option Filter
  | [] => some source
  | .name text :: rest => steps (.member source text) rest
  | .openBracket :: rest =>
    let closing := rest.dropWhile (· ≠ .closeBracket)
    if closing.isEmpty then none
    else do steps (← bracket? source (rest.takeWhile (· ≠ .closeBracket))) closing.tail
  | _ => none
termination_by symbols => symbols.length
decreasing_by
  · simp only [List.length_cons]
    omega
  · have inside := (List.dropWhile_suffix (l := rest) (· ≠ Symbol.closeBracket)).length_le
    simp only [List.length_tail, List.length_cons]
    omega

def term? : List Symbol → Option Filter
  | .word "empty" :: rest => steps .empty rest
  | .dot :: rest => steps .identity rest
  | .name text :: rest => steps (.member .identity text) rest
  | _ => none

def join? (operation : Filter → Filter → Filter) : List Filter → Option Filter
  | [] => none
  | [f] => some f
  | f :: rest => (join? operation rest).map (operation f)

/-- The filter of a text. A comma binds more closely than a bar. -/
def parse? (text : String) : Option Filter := do
  let stages ← (pieces .bar (← symbols text.toList)).mapM fun stage => do
    join? .both (← (pieces .comma stage).mapM term?)
  join? .pipe stages

end Filter
end FlatStore
