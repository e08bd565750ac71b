/-!
The words of a command line. Options stand behind one dash or two; the value of an option is attached to it or stands
in the words behind it. What the values of an option are is settled when the next option begins, so that an earlier
fault in a value gives way to an option that is not known.
-/
namespace FlatStore.CommandLine

inductive UsageError where
  | missingRequired
  | unknownArgument
  | unknownCommand
  | repeated
  | badValue
  | needlessValue
  | missingCommand
  | helpWanted
  | nothingGiven
deriving DecidableEq

inductive Arity where
  | flag
  | help
  /-- One value. That of a path is not empty. -/
  | one (isPath : Bool)
  /-- At least one value, and the option may be repeated. -/
  | many
deriving DecidableEq

structure OptionSpec where
  long : String
  short : Option Char
  arity : Arity
  required : Bool
deriving DecidableEq

/-- Values by the long names of their options. -/
abbrev Given := List (String × List String)

structure Progress where
  given : Given
  /-- The last option and its values so far. -/
  pending : Option (OptionSpec × List String)
  /-- Whether the last option takes another value. -/
  awaiting : Bool
  /-- Whether two dashes on their own have ended the options. -/
  trailing : Bool

namespace Progress

def start : Progress := ⟨[], none, false, false⟩

def has (given : Given) (spec : OptionSpec) : Bool := given.any (·.1 = spec.long)

def accept (given : Given) (spec : OptionSpec) (values : List String) : Except UsageError Given :=
  match spec.arity, values with
  | .help, _ => .error .helpWanted
  | .flag, _ => if has given spec then .error .repeated else .ok (given ++ [(spec.long, [])])
  | .one _, [] | .many, [] => .error .badValue
  | .one isPath, value :: _ =>
    if has given spec then .error .repeated
    else if isPath && value = "" then .error .badValue
    else .ok (given ++ [(spec.long, [value])])
  | .many, values => .ok (given ++ [(spec.long, values)])

def settle (p : Progress) : Except UsageError Progress :=
  match p.pending with
  | none => .ok p
  | some (spec, values) => return { p with given := ← accept p.given spec values, pending := none }

def option (p : Progress) (spec : OptionSpec) (attached : Option String) : Except UsageError Progress := do
  let p ← p.settle
  match spec.arity, attached with
  | .flag, _ | .help, _ => return { p with given := ← accept p.given spec [], awaiting := false }
  | _, some value => return { p with given := ← accept p.given spec [value], awaiting := false }
  | _, none => return { p with pending := some (spec, []), awaiting := true }

def takesValue (spec : OptionSpec) : Bool :=
  match spec.arity with
  | .flag | .help => false
  | _ => true

def long (specs : List OptionSpec) (p : Progress) (text : List Char) : Except UsageError Progress :=
  let name := String.ofList (text.takeWhile (· ≠ '='))
  let attached := match text.dropWhile (· ≠ '=') with
    | _ :: value => some (String.ofList value)
    | [] => none
  match specs.find? (·.long = name) with
  | none => .error .unknownArgument
  | some spec =>
    if attached.isSome && !takesValue spec then .error .needlessValue else p.option spec attached

/-- Options by their short names. What follows the first that takes a value is its value. -/
def shorts (specs : List OptionSpec) (p : Progress) : List Char → Except UsageError Progress
  | [] => .ok p
  | c :: rest =>
    match specs.find? (·.short = some c) with
    | none => .error .unknownArgument
    | some spec =>
      if takesValue spec then
        match rest with
        | [] => p.option spec none
        | '=' :: value => p.option spec (some (String.ofList value))
        | value => p.option spec (some (String.ofList value))
      else do shorts specs (← p.option spec none) rest

def value (p : Progress) (word : String) : Progress :=
  match p.pending with
  | some (spec, values) => { p with pending := some (spec, values ++ [word]), awaiting := spec.arity = .many }
  | none => p

/-- One word, or nothing if it is neither an option nor a value. -/
def word (specs : List OptionSpec) (p : Progress) (text : String) : Except UsageError (Option Progress) :=
  if p.trailing then .ok none
  else
    match text.toList with
    | ['-', '-'] => .ok (some { p with trailing := true })
    | '-' :: '-' :: name => some <$> p.long specs name
    | '-' :: c :: rest => some <$> p.shorts specs (c :: rest)
    | _ => .ok (if p.awaiting then some (p.value text) else none)

def options (specs : List OptionSpec) (p : Progress) : List String → Except UsageError Given
  | [] => do
    let p ← p.settle
    if specs.any fun spec => spec.required && !has p.given spec then throw .missingRequired
    return p.given
  | text :: rest => do
    match ← p.word specs text with
    | some p => p.options specs rest
    | none => throw .unknownArgument

end Progress

/-! ### Commands -/

structure Inputs where
  schema : String
  /-- Whether every line is a document. -/
  lines : Bool
  pointer : Option String
  filter : Option String
  /-- Paths and patterns of paths. -/
  sources : List String

inductive Command where
  | flatten (inputs : Inputs) (omitComputed : Bool) (out : Option String)
  | resolve (inputs : Inputs) (out : Option String)
  | check (inputs : Inputs)

structure Invocation where
  verbose : Bool
  command : Command

namespace Invocation

def general : List OptionSpec := [⟨"verbose", some 'v', .flag, false⟩, ⟨"help", some 'h', .help, false⟩]

def inputOptions : List OptionSpec :=
  [⟨"schema", some 's', .one true, true⟩, ⟨"ndjson", none, .flag, false⟩, ⟨"json-pointer", none, .one false, false⟩,
    ⟨"jq-expr", none, .one false, false⟩, ⟨"input", some 'i', .many, true⟩]

def outOption : OptionSpec := ⟨"out", some 'o', .one true, false⟩

def commands : List (String × List OptionSpec) :=
  [("flatten", inputOptions ++ [⟨"omit-computed", none, .flag, false⟩, outOption] ++ general),
    ("resolve", inputOptions ++ [outOption] ++ general), ("check", inputOptions ++ general)]

def isGiven (given : Given) (name : String) : Bool := given.any (·.1 = name)

def valuesOf (given : Given) (name : String) : List String := (given.filter (·.1 = name)).flatMap Prod.snd

def valueOf (given : Given) (name : String) : Option String := (valuesOf given name).head?

def inputsOf (given : Given) : Inputs where
  schema := (valueOf given "schema").getD ""
  lines := isGiven given "ndjson"
  pointer := valueOf given "json-pointer"
  filter := valueOf given "jq-expr"
  sources := valuesOf given "input"

def commandOf (name : String) (given : Given) : Command :=
  if name = "flatten" then .flatten (inputsOf given) (isGiven given "omit-computed") (valueOf given "out")
  else if name = "resolve" then .resolve (inputsOf given) (valueOf given "out")
  else .check (inputsOf given)

def isCommandName (text : String) : Bool := (commands.lookup text).isSome || text = "help"

def help : List String → UsageError
  | [] => .helpWanted
  | [name] => if isCommandName name then .helpWanted else .unknownCommand
  | _ => .unknownCommand

/-- Reads words up to the command, which reads the others. -/
def read (p : Progress) : List String → Except UsageError Invocation
  | [] => .error (if p.given.isEmpty then .nothingGiven else .missingCommand)
  | text :: rest => do
    if isCommandName text then
      if p.trailing then throw .unknownArgument
      match commands.lookup text with
      | none => throw (help rest)
      | some specs =>
        let given ← Progress.start.options specs rest
        return ⟨isGiven p.given "verbose" || isGiven given "verbose", commandOf text given⟩
    else
      match ← p.word general text with
      | some p => read p rest
      | none => throw .unknownCommand

def ofWords (words : List String) : Except UsageError Invocation := read .start words

end Invocation
end FlatStore.CommandLine
