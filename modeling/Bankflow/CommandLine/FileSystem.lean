import Bankflow.CommandLine.Files

/-!
# File systems

Directories and files as a value, with a working directory, so that a command can
be run and reasoned about without a machine (`FileSystem.access`).

A path is walked part by part. A part of it can only be entered from a directory,
`.` stays and `..` goes up, and no name is looked up that is too long. A path that
ends in a slash names a directory: reading wants one to be there, and writing
refuses such a path whatever is there.
-/

namespace Bankflow.CommandLine

/-- A place in a file system, as the names on the way from the root. -/
abbrev Location := List String

structure FileSystem where
  /-- The working directory. -/
  here : Location
  directories : List Location
  files : List (Location × ByteArray)

/-- A path, cut at its slashes. -/
structure Path where
  /-- Whether it starts at the root, and not at the working directory. -/
  absolute : Bool
  /-- What stands between the slashes. -/
  parts : List String
  /-- Whether it ends in a slash. -/
  slashEnded : Bool
  deriving DecidableEq, Repr

def Path.of (text : String) : Path :=
  let parts := (text.toList.splitOn '/').map String.ofList
  ⟨parts.head? = some "", parts.filter (· ≠ ""), parts.getLast? = some ""⟩

/-- Whether a part is a name, and not a direction. -/
def isName (part : String) : Bool := part ≠ "." && part ≠ ".."

/-- The most bytes that a name can have. -/
abbrev longestName : Nat := 255

/-- The most bytes that a path can have. -/
abbrev longestPath : Nat := 4095

namespace FileSystem

/-- The contents of the file at a place. -/
def file? (fs : FileSystem) (l : Location) : Option ByteArray :=
  (fs.files.find? (·.1 = l)).map (·.2)

def isDirectory (fs : FileSystem) (l : Location) : Bool := l ∈ fs.directories

/-- Fails unless there is a directory. -/
def checkDirectory (fs : FileSystem) (l : Location) : Except FileError Unit :=
  if fs.isDirectory l then .ok ()
  else if (fs.file? l).isSome then .error .notDirectory
  else .error .notFound

/-- The place that a part of a path leads to. There need not be anything. -/
def step (fs : FileSystem) (l : Location) (part : String) : Except FileError Location := do
  fs.checkDirectory l
  if part = "." then return l
  else if part = ".." then return l.dropLast
  else if longestName < part.utf8ByteSize then throw .nameTooLong
  else return l ++ [part]

/-- The place that the parts of a path lead to. -/
def walk (fs : FileSystem) (l : Location) : List String → Except FileError Location
  | [] => .ok l
  | part :: rest => do fs.walk (← fs.step l part) rest

/-- Where a path starts. -/
def start (fs : FileSystem) (p : Path) : Location := if p.absolute then [] else fs.here

/-- Fails if a path is empty or too long to be looked at. -/
def checkPath (path : String) : Except FileError Unit :=
  if path.isEmpty then .error .notFound
  else if longestPath < path.utf8ByteSize then .error .nameTooLong
  else .ok ()

/-- The place from which a path is read. -/
def readPlace (fs : FileSystem) (path : String) : Except FileError Location := do
  checkPath path
  let p := Path.of path
  let l ← fs.walk (fs.start p) p.parts
  if p.slashEnded then fs.checkDirectory l
  return l

/-- The place to which a path is written. Its directory has to be there. -/
def writePlace (fs : FileSystem) (path : String) : Except FileError Location := do
  checkPath path
  let p := Path.of path
  if p.slashEnded && p.parts.getLast?.any isName then
    fs.checkDirectory (← fs.walk (fs.start p) p.parts.dropLast)
    throw .isDirectory
  else fs.walk (fs.start p) p.parts

def read (fs : FileSystem) (path : String) : Except FileError ByteArray := do
  let l ← fs.readPlace path
  if fs.isDirectory l then throw .isDirectory
  match fs.file? l with
  | some bytes => return bytes
  | none => throw .notFound

/-- The file system with a file in place of what was there. -/
def put (fs : FileSystem) (l : Location) (bytes : ByteArray) : FileSystem :=
  { fs with files := (fs.files.filter (·.1 ≠ l)) ++ [(l, bytes)] }

def write (fs : FileSystem) (path text : String) : Except FileError FileSystem := do
  let l ← fs.writePlace path
  if fs.isDirectory l then throw .isDirectory
  return fs.put l text.toUTF8

/-- Reading and writing in a file system. -/
def access : Files (StateM FileSystem) where
  read path := return (← get).read path
  write path text := do
    match (← get).write path text with
    | .error e => return .error e
    | .ok fs =>
      set fs
      return .ok ()

end FileSystem

end Bankflow.CommandLine
