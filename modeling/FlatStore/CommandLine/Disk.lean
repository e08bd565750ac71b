import FlatStore.Text.Pieces

/-!
Disks: what commands read from and write to. A disk may be one in memory, whose whole state is a value.
-/
namespace FlatStore.CommandLine

inductive DiskFault where
  | notFound
  | isDirectory
  | notDirectory
  | exists
  | nameTooLong
  | other (reason : String)
deriving DecidableEq

structure Disk (m : Type → Type) where
  read : String → m (Except DiskFault String)
  write : String → String → m (Except DiskFault Unit)
  /-- Makes a directory and those above it. Directories that are there are kept. -/
  makeDirectories : String → m (Except DiskFault Unit)
  isThere : String → m Bool
  names? : String → m (Option (List String))

/-- The directory in which a path lies. A path that has none of its own lies in the empty one; the root lies in none. -/
def directoryOf (path : String) : Option String :=
  let absolute := path.toList.head? = some '/'
  let parts := (piecesOf '/' path).filter fun part => part ≠ "" && part ≠ "."
  let parts := if path.toList.take 2 = ['.', '/'] then "." :: parts else parts
  if absolute && parts.isEmpty then none
  else some ((if absolute then "/" else "") ++ "/".intercalate parts.dropLast)

def joinPath (directory name : String) : String :=
  if directory = "." || name.toList.head? = some '/' then name
  else if directory.toList.getLast? = some '/' then directory ++ name
  else directory ++ "/" ++ name

/-- A disk in memory: its directories and files by the names that lead to them from the root. -/
structure Memory where
  directories : List (List String)
  files : List (List String × String)
  /-- The directory from which paths that do not begin at the root lead on. -/
  current : List String

namespace Memory

inductive Place where
  | directory
  | file (content : String)
  | nothing

def place (memory : Memory) (path : List String) : Place :=
  match memory.files.lookup path with
  | some content => .file content
  | none => if path.isEmpty || memory.directories.contains path then .directory else .nothing

def nameFits (name : String) : Bool := name.utf8ByteSize ≤ 255

/-- Where names lead to from a directory. The directory above the root is the root. -/
def walk (memory : Memory) (here : List String) : List String → Except DiskFault (List String)
  | [] => .ok here
  | part :: rest =>
    match memory.place here with
    | .nothing => .error .notFound
    | .file _ => .error .notDirectory
    | .directory =>
      if part = "" || part = "." then memory.walk here rest
      else if part = ".." then memory.walk here.dropLast rest
      else if nameFits part then memory.walk (here ++ [part]) rest
      else .error .nameTooLong

/-- Where the names of a path begin, and the names. A path may have 4095 bytes, and none of them is zero. -/
def route (memory : Memory) (path : String) : Except DiskFault (List String × List String) :=
  if path.toList.contains '\x00' then .error (.other "InvalidInput")
  else if path.utf8ByteSize ≤ 4095 then
    .ok (if path.toList.head? = some '/' then [] else memory.current, piecesOf '/' path)
  else .error .nameTooLong

def locate (memory : Memory) (path : String) : Except DiskFault (List String) := do
  if path = "" then throw .notFound
  let (start, parts) ← memory.route path
  memory.walk start parts

def read (memory : Memory) (path : String) : Except DiskFault String := do
  match memory.place (← memory.locate path) with
  | .file content => return content
  | .directory => throw .isDirectory
  | .nothing => throw .notFound

/-- Nothing new comes into the root itself. -/
def canHold (directory : List String) : Except DiskFault Unit :=
  if directory.isEmpty then .error (.other "PermissionDenied") else .ok ()

def put (memory : Memory) (path : List String) (content : String) : Memory :=
  { memory with files := (memory.files.filter (·.1 ≠ path)) ++ [(path, content)] }

/-- Writes a file. A path that ends in a slash names a directory, if what stands before its last name leads to one. -/
def write (memory : Memory) (path content : String) : Except DiskFault Memory := do
  if path.toList.getLast? = some '/' then
    let (start, parts) ← memory.route path
    let _ ← memory.walk start ((parts.filter (· ≠ "")).dropLast ++ [""])
    throw .isDirectory
  let here ← memory.locate path
  match memory.place here with
  | .directory => throw .isDirectory
  | .file _ => return memory.put here content
  | .nothing =>
    match memory.place here.dropLast with
    | .directory => do
      canHold here.dropLast
      return memory.put here content
    | _ => throw .notFound

/-- Makes the directories on the way of some names. As long as none has been made, a file is in the way of what lies
behind it; behind one that has been made, each directory is made by itself, and a file stands in its place. -/
def make (memory : Memory) (anyMade : Bool) (here : List String) : List String → Except DiskFault Memory
  | [] => .ok memory
  | part :: rest =>
    if part = "" || part = "." then memory.make anyMade here rest
    else if part = ".." then memory.make anyMade here.dropLast rest
    else if nameFits part then
      let next := here ++ [part]
      match memory.place next with
      | .directory => memory.make anyMade next rest
      | .file _ => .error (if anyMade || rest.isEmpty then .exists else .notDirectory)
      | .nothing => do
        canHold here
        make { memory with directories := next :: memory.directories } true next rest
    else .error .nameTooLong

def makeDirectories (memory : Memory) (path : String) : Except DiskFault Memory := do
  let (start, parts) ← memory.route path
  memory.make false start parts

def names? (memory : Memory) (path : String) : Option (List String) :=
  match memory.locate path with
  | .error _ => none
  | .ok here =>
    match memory.place here with
    | .directory =>
      some ((memory.directories ++ memory.files.map Prod.fst).filterMap fun path =>
        if path.isEmpty || path.dropLast ≠ here then none else path.getLast?)
    | _ => none

def isThere (memory : Memory) (path : String) : Bool :=
  match memory.locate path with
  | .error _ => false
  | .ok here =>
    match memory.place here with
    | .nothing => false
    | _ => true

def update (change : Memory → Except DiskFault Memory) : StateM Memory (Except DiskFault Unit) := fun memory =>
  match change memory with
  | .ok changed => (.ok (), changed)
  | .error fault => (.error fault, memory)

def disk : Disk (StateM Memory) where
  read path memory := (memory.read path, memory)
  write path content := update (·.write path content)
  makeDirectories path := update (·.makeDirectories path)
  isThere path memory := (memory.isThere path, memory)
  names? path memory := (memory.names? path, memory)

/-- A disk that holds nothing but an empty current directory, two levels below the root. -/
def fresh : Memory := ⟨[["tmp"], ["tmp", "fresh"]], [], ["tmp", "fresh"]⟩

def ofFiles (files : List (String × String)) : Memory :=
  files.foldl (fun memory (path, content) =>
    let parts := (piecesOf '/' path).filter (· ≠ "")
    match memory.make false memory.current parts.dropLast with
    | .ok memory => memory.put (memory.current ++ parts) content
    | .error _ => memory) fresh

end Memory
end FlatStore.CommandLine
