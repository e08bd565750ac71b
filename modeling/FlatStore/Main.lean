import FlatStore.CommandLine.Run

/-!
The program: the command line over the files of the machine.
-/
namespace FlatStore.CommandLine

def DiskFault.ofError : IO.Error → DiskFault
  | .noFileOrDirectory .. => .notFound
  | .alreadyExists .. => .exists
  | error => .other (toString error)

/-- An operation whose failure is an outcome. -/
def outcomeOf {α : Type} (operation : IO α) : IO (Except DiskFault α) := do
  match ← operation.toBaseIO with
  | .ok value => return .ok value
  | .error error => return .error (.ofError error)

/-- The files of the machine, seen from the current directory. -/
def machine : Disk IO where
  read path := outcomeOf (IO.FS.readFile path)
  write path content := outcomeOf (IO.FS.writeFile path content)
  makeDirectories path := if path = "" then return .ok () else outcomeOf (IO.FS.createDirAll path)
  isThere path := do return ← ((← IO.currentDir) / path).pathExists
  names? path := do
    let here := (← IO.currentDir) / path
    if ← here.isDir then return some ((← here.readDir).toList.map (·.fileName)) else return none

def DiskFault.text : DiskFault → String
  | .notFound => "No such file or directory"
  | .isDirectory => "Is a directory"
  | .notDirectory => "Not a directory"
  | .exists => "File exists"
  | .nameTooLong => "File name too long"
  | .other reason => reason

def Reason.message : Reason → String
  | .text told => told
  | .disk fault => fault.text
  | .json .truncated | .decode (.fault .truncated) => "the text ends too early"
  | .json .malformed | .decode (.fault .malformed) => "the text is malformed"
  | .decode (.content path cause) => "at JSON path " ++ Step.pathText path ++ " → " ++ cause.message

def UsageError.message : UsageError → String
  | .missingRequired => "a required argument is missing"
  | .unknownArgument => "an argument is not known"
  | .unknownCommand => "a command is not known"
  | .repeated => "an argument is given more than once"
  | .badValue => "an argument has no value"
  | .needlessValue => "an argument takes no value"
  | .missingCommand | .nothingGiven => "a command is missing"
  | .helpWanted => "commands: flatten, resolve, check"

end FlatStore.CommandLine

open FlatStore.CommandLine in
def main (args : List String) : IO UInt32 := do
  match Invocation.ofWords args with
  | .error error => do
    IO.eprintln error.message
    return if error = .helpWanted then 0 else 2
  | .ok invocation => do
    let (outcome, output) ← invocation.command.outcome machine
    IO.print output.stdout
    IO.eprint output.stderr
    match outcome with
    | .ok () => return 0
    | .error reasons => do
      IO.eprintln ("error: " ++ ": ".intercalate (reasons.map Reason.message))
      return 1
