import FlatStore.CommandLine.Arguments
import FlatStore.CommandLine.Glob
import FlatStore.Json.Filter
import FlatStore.Json.Pointer
import FlatStore.Json.Text
import FlatStore.RoundTrip
import FlatStore.Schema.Decode
import FlatStore.Schema.Valid
import FlatStore.Store.Decode

/-!
What the commands do: they read a schema and documents from a disk, flatten, resolve or check each document, and write
the results. A failure is told by a chain of reasons, the outermost first.
-/
namespace FlatStore.CommandLine

inductive Reason where
  | text (text : String)
  | disk (fault : DiskFault)
  | json (fault : Fault)
  | decode (problem : Problem)
deriving DecidableEq

structure Output where
  stdout : String
  stderr : String
deriving DecidableEq

def Output.none : Output := ⟨"", ""⟩

/-- A command on a disk. What was written before a failure stays. -/
abbrev Run (m : Type → Type) (α : Type) := ExceptT (List Reason) (StateT Output m) α

structure Document where
  label : String
  value : Json

variable {m : Type → Type} [Monad m]

def Run.fail {α : Type} (reasons : List Reason) : Run m α := throw reasons

/-- An outcome whose error ends a chain. -/
def Run.ofExcept {ε α : Type} (reason : ε → List Reason) : Except ε α → Run m α
  | .ok value => pure value
  | .error error => .fail (reason error)

def Run.onDisk {α : Type} (context : List Reason) (operation : m (Except DiskFault α)) : Run m α := do
  Run.ofExcept (fun fault => context ++ [.disk fault]) (← (operation : m (Except DiskFault α)))

def Run.within {ε α : Type} (context : String) (message : ε → String) : Except ε α → Run m α :=
  .ofExcept fun error => [.text context, .text (message error)]

def Run.print (line : String) : Run m Unit :=
  modify fun output => { output with stdout := output.stdout ++ line ++ "\n" }

def Run.report (line : String) : Run m Unit :=
  modify fun output => { output with stderr := output.stderr ++ line ++ "\n" }

def utf8 (text : String) : List UInt8 := text.toUTF8.toList

variable (disk : Disk m)

def loadSchema (path : String) : Run m Schema := do
  let source ← Run.onDisk [.text ("failed to read schema file " ++ path)] (disk.read path)
  let schema ← Run.ofExcept (fun problem => [.text ("invalid schema file " ++ path), .decode problem])
    (Schema.decoder.ofText (utf8 source))
  Run.within ("schema file " ++ path ++ " cannot address a flat store") SchemaError.message schema.validate
  return schema

def sourcePaths (sources : List String) : Run m (List String) := do
  let paths ← sources.mapM fun source => do
    if Glob.isPattern source then
      let found ← Run.within "failed to resolve input file paths" GlobFault.message (← (Glob.paths disk source : m _))
      if found.isEmpty then
        Run.fail [.text "failed to resolve input file paths", .text ("glob pattern matched no files: " ++ source)]
      return found
    else return [source]
  return paths.flatten

/-- The lines of a text, without their ends and without what would follow the last end. -/
def linesOf (text : String) : List (List Char) :=
  let lines := pieces '\n' text.toList
  let ended := lines.dropLast.map fun line => if line.getLast? = some '\r' then line.dropLast else line
  match lines.getLast? with
  | some [] | none => ended
  | some rest => ended ++ [rest]

/-- The JSON values of a file: one, or one for each line that is not blank. -/
def parseSource (inputs : Inputs) (path text : String) : Except (List Reason) (List Json) :=
  if inputs.lines then
    (linesOf text).zipIdx.filter (fun (line, _) => !line.all isWhiteSpace) |>.mapM fun (line, n) =>
      (Json.parse (utf8 (String.ofList line))).mapError fun fault =>
        [.text ("failed to parse line " ++ toString (n + 1) ++ " of " ++ path), .json fault]
  else
    match Json.parse (utf8 text) with
    | .ok value => .ok [value]
    | .error fault => .error [.text ("failed to parse JSON source file (" ++ path ++ ")"), .json fault]

/-- A value as a filter passes it on: in its written form, which is read again. -/
def passOn (value : Json) : Option Json := (Json.parse (utf8 value.render)).toOption

def selectValues (inputs : Inputs) (path : String) (value : Json) : Except (List Reason) (List Json) := do
  let value ← match inputs.pointer with
    | none => .ok value
    | some pointer =>
      match value.pointer? pointer with
      | some part => .ok part
      | none => .error [.text ("JSON pointer " ++ pointer ++ " selects nothing in " ++ path)]
  match inputs.filter with
  | none => return [value]
  | some filter =>
    match (Filter.parse? filter).bind (·.run value) |>.bind (·.mapM passOn) with
    | some values => return values
    | none => throw [.text ("failed to apply jq expression to source file (" ++ path ++ ")")]

/-- The documents in the text of a file, each labelled by the number of its value and its number among those made of
this value. -/
def documentsOf (inputs : Inputs) (path text : String) : Except (List Reason) (List Document) := do
  let values ← parseSource inputs path text
  let documents ← values.zipIdx.mapM fun (value, i) => do
    let selected ← selectValues inputs path value
    return selected.zipIdx.map fun (value, j) =>
      (⟨path ++ "#" ++ toString i ++ "." ++ toString j, value⟩ : Document)
  return documents.flatten

def loadDocuments (inputs : Inputs) : Run m (List Document) := do
  let paths ← sourcePaths disk inputs.sources
  let documents ← paths.mapM fun path => do
    let text ← Run.onDisk [.text ("failed to read source file " ++ path)] (disk.read path)
    Run.ofExcept id (documentsOf inputs path text)
  return documents.flatten

/-- Writes results: a single one as it is, and others as an array. -/
def writeOutput (out : Option String) (results : List Json) : Run m Unit := do
  let payload := match results with
    | [result] => result
    | results => .array results
  match out with
  | none => Run.print (payload.pretty 0)
  | some path =>
    if let some directory := directoryOf path then Run.onDisk [] (disk.makeDirectories directory)
    Run.onDisk [.text ("failed to write " ++ path)] (disk.write path (payload.pretty 0))

def roundTripText : RoundTripError → String
  | .flatten error => "flatten: " ++ error.message
  | .resolve error => "resolve: " ++ error.message
  | .flattenAgain error => "re-flatten: " ++ error.message
  | .changed difference =>
    "flat store changed after one round trip, first difference at `" ++ difference ++ "`"

/-- Checks documents and reports on each. How many have failed. -/
def reportRoundTrips (schema : Schema) (documents : List Document) : Run m Nat :=
  documents.foldlM (fun failed document =>
    match checkRoundTrip schema document.value with
    | .ok () => do
      Run.report ("✓ " ++ document.label)
      return failed
    | .error error => do
      Run.report ("✗ " ++ document.label ++ ": " ++ roundTripText error)
      return failed + 1) 0

def Command.run : Command → Run m Unit
  | .flatten inputs omitComputed out => do
    let schema ← loadSchema disk inputs.schema
    let documents ← loadDocuments disk inputs
    let results ← documents.mapM fun document =>
      Run.within ("failed to flatten " ++ document.label) FlattenError.message
        ((schema.flatten document.value omitComputed).map Store.toJson)
    writeOutput disk out results
  | .resolve inputs out => do
    let schema ← loadSchema disk inputs.schema
    let documents ← loadDocuments disk inputs
    let results ← documents.mapM fun document => do
      let stored ← Run.ofExcept (fun problem => [.text (document.label ++ " is not a flat store"), .decode problem])
        (Store.decoder.ofJson document.value)
      Run.within ("failed to resolve " ++ document.label) ResolveError.message (resolvedOrNull schema stored)
    writeOutput disk out results
  | .check inputs => do
    let schema ← loadSchema disk inputs.schema
    let documents ← loadDocuments disk inputs
    let failed ← reportRoundTrips schema documents
    Run.report (toString (documents.length - failed) ++ " passed, " ++ toString failed ++ " failed")
    if failed ≠ 0 then Run.fail [.text (toString failed ++ " document(s) failed the round-trip check")]

def Command.outcome (command : Command) : m (Except (List Reason) Unit × Output) := (command.run disk).run Output.none

end FlatStore.CommandLine
