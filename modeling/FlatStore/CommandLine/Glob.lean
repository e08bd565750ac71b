import FlatStore.CommandLine.Disk

/-!
Patterns of paths. A question mark stands for any character, a star for any characters, and brackets for one of the
characters in them or, behind an exclamation mark, for one that is not in them. No pattern reaches over a slash. The
paths that match come in the order of their names. A name is matched by a table with one pass for each token, which
says what the meaning of the tokens says (`matches?_eq_fits`).
-/
namespace FlatStore.CommandLine

structure CharRange where
  first : Char
  last : Char

inductive GlobToken where
  | char (c : Char)
  | anyChar
  | anyText
  | oneOf (ranges : List CharRange) (inside : Bool)

structure GlobFault where
  position : Nat
deriving DecidableEq

def GlobFault.message (fault : GlobFault) : String :=
  "Pattern syntax error near position " ++ toString fault.position ++ ": invalid range pattern"

namespace Glob

def ranges : List Char → List CharRange
  | first :: '-' :: last :: rest => ⟨first, last⟩ :: ranges rest
  | c :: rest => ⟨c, c⟩ :: ranges rest
  | [] => []

/-- What follows an opening bracket. The first character inside is never the closing bracket. -/
def brackets (position : Nat) (text : List Char) : Except GlobFault (GlobToken × List Char) :=
  let (inside, text) := match text with
    | '!' :: rest => (false, rest)
    | text => (true, text)
  match text with
  | [] => .error ⟨position⟩
  | first :: rest =>
    match rest.dropWhile (· ≠ ']') with
    | [] => .error ⟨position⟩
    | _ :: after => .ok (.oneOf (ranges (first :: rest.takeWhile (· ≠ ']'))) inside, after)

theorem brackets_length {position : Nat} {text after : List Char} {token : GlobToken}
    (read : brackets position text = .ok (token, after)) : after.length < text.length := by
  have shorter (rest : List Char) := (List.dropWhile_suffix (l := rest) (· ≠ ']')).length_le
  unfold brackets at read
  grind

def tokens (position : Nat) : List Char → Except GlobFault (List GlobToken)
  | [] => .ok []
  | '?' :: rest => return .anyChar :: (← tokens (position + 1) rest)
  | '*' :: rest => return .anyText :: (← tokens (position + 1) rest)
  | '[' :: rest =>
    match read : brackets position rest with
    | .error fault => .error fault
    | .ok (token, after) => return token :: (← tokens (position + 1 + (rest.length - after.length)) after)
  | c :: rest => return .char c :: (← tokens (position + 1) rest)
termination_by text => text.length
decreasing_by
  all_goals simp
  have := brackets_length read
  omega

/-- Whether a token that stands for one character stands for this one. -/
def admits (c : Char) : GlobToken → Bool
  | .char d => c = d
  | .anyChar => true
  | .anyText => false
  | .oneOf ranges inside => ranges.any (fun r => r.first ≤ c && c ≤ r.last) = inside

/-- A text and all that is left of it on the way to its end. -/
def ends : List Char → List (List Char)
  | [] => [[]]
  | c :: rest => (c :: rest) :: ends rest

/-- Whether a name is made of what the tokens stand for. -/
def fits : List GlobToken → List Char → Bool
  | [], name => name.isEmpty
  | .anyText :: rest, name => (ends name).any (fits rest)
  | _ :: _, [] => false
  | token :: rest, c :: name => admits c token && fits rest name

def anyFrom : List Bool → List Bool
  | [] => []
  | b :: rest =>
    let behind := anyFrom rest
    (b || behind.headD false) :: behind

/-- Whether what is left of a name fits, for each of its places and for its end. Each token costs one pass. -/
def table : List GlobToken → List Char → List Bool
  | [], name => name.map (fun _ => false) ++ [true]
  | .anyText :: rest, name => anyFrom (table rest name)
  | token :: rest, name => name.zipWith (fun c behind => admits c token && behind) (table rest name).tail ++ [false]

def matches? (pattern : List GlobToken) (name : List Char) : Bool := (table pattern name).headD false

theorem ends_eq_cons (name : List Char) : ends name = name :: (ends name).tail := by
  cases name <;> rfl

theorem anyFrom_map_ends (p : List Char → Bool) (name : List Char) :
    anyFrom ((ends name).map p) = (ends name).map fun rest => (ends rest).any p := by
  induction name with
  | nil => simp [ends, anyFrom]
  | cons c rest ih =>
    rw [ends, List.map_cons, anyFrom, ih, ends_eq_cons rest]
    simp [ends]

theorem table_eq_map_ends (pattern : List GlobToken) (name : List Char) :
    table pattern name = (ends name).map (fits pattern) := by
  induction pattern generalizing name with
  | nil => induction name <;> simp_all [table, ends, fits]
  | cons token rest ih =>
    have single (other : token ≠ .anyText) :
        name.zipWith (fun c behind => admits c token && behind) (table rest name).tail ++ [false] =
          (ends name).map (fits (token :: rest)) := by
      rw [ih]
      induction name with
      | nil => cases token <;> simp_all [ends, fits]
      | cons c name inner =>
        have front : fits (token :: rest) (c :: name) = (admits c token && fits rest name) := by
          cases token <;> simp_all [fits]
        rw [ends, List.map_cons, List.map_cons, List.tail_cons, front, ← inner, ends_eq_cons name]
        simp
    cases token with
    | anyText =>
      rw [table, ih, anyFrom_map_ends]
      rfl
    | _ => exact single (by simp)

/-- The table says of a name itself whether it fits. -/
theorem matches?_eq_fits (pattern : List GlobToken) (name : List Char) : matches? pattern name = fits pattern name := by
  rw [matches?, table_eq_map_ends, ends_eq_cons]
  rfl

/-- The text of a pattern that only one name matches. -/
def literal? : List GlobToken → Option (List Char)
  | [] => some []
  | .char c :: rest => (literal? rest).map (c :: ·)
  | _ => none

/-- The directory above and the directory itself, as far as a pattern that begins with a point matches them. -/
def relatives : List GlobToken → List String
  | .char '.' :: rest => ["..", "."].filter fun name => matches? (.char '.' :: rest) name.toList
  | _ => []

variable {m : Type → Type} [Monad m]

def below (disk : Disk m) : List (List GlobToken) → String → m (List String)
  | [], path => return [path]
  | pattern :: rest, directory => do
    match literal? pattern with
    | some name =>
      let path := joinPath directory (String.ofList name)
      if ← disk.isThere path then below disk rest path else return []
    | none =>
      match ← disk.names? directory with
      | none => return []
      | some names =>
        let found := (names.mergeSort fun a b => decide (a ≤ b)).filter fun name => matches? pattern name.toList
        let paths := (relatives pattern).map (directory ++ "/" ++ ·) ++ found.map (joinPath directory)
        return (← paths.mapM (below disk rest)).flatten

/-- The paths that match a pattern. One that ends in a slash matches directories only. -/
def paths (disk : Disk m) (pattern : String) : m (Except GlobFault (List String)) := do
  match tokens 0 pattern.toList with
  | .error fault => return .error fault
  | .ok _ =>
    let absolute := pattern.toList.head? = some '/'
    let parts := pieces '/' (if absolute then pattern.toList.drop 1 else pattern.toList)
    let directories := parts.length ≠ 1 && parts.getLast? = some []
    match (if directories then parts.dropLast else parts).mapM (tokens 0) with
    | .error fault => return .error fault
    | .ok patterns =>
      let found ← below disk patterns (if absolute then "/" else ".")
      if directories then return .ok (← found.filterM fun path => return (← disk.names? path).isSome)
      else return .ok found

def isPattern (text : String) : Bool := text.toList.any ['*', '?', '[', '\x7b'].contains

end Glob
end FlatStore.CommandLine
