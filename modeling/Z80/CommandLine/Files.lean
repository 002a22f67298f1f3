import Z80.CommandLine.Host
import Z80.Dictionary

/-!
# Files

A set of files that a tool can work on, and how a path leads to them.  A path starts at the working
directory, or at the root if its first character is a slash, and goes from name to name; each name
but the last has to be that of a directory.  A directory is there if it holds a file.  Of what lies
outside the working directory only the directories above it are known, and a few that every system
has.
-/

namespace Z80.CommandLine

/-- Why a file cannot be read or written. -/
inductive FileFault where
  | missing
  | notDirectory
  | isDirectory
  | nameTooLong
  deriving DecidableEq

/-- The system's words for a fault, with its number for it. -/
def FileFault.message : FileFault → Text
  | missing => "No such file or directory (os error 2)".toList
  | notDirectory => "Not a directory (os error 20)".toList
  | isDirectory => "Is a directory (os error 21)".toList
  | nameTooLong => "File name too long (os error 36)".toList

/-! ## Locations -/

/-- A directory that paths start from: the root, or the one so many levels above the working
directory. -/
inductive Base where
  | ancestor (levels : Nat)
  | root
  deriving DecidableEq

/-- A place below a base, by the names that lead there.  No name is empty, `.` or `..`. -/
structure Location where
  base : Base
  names : List Text
  deriving DecidableEq

namespace Location

def workingDirectory : Location := ⟨.ancestor 0, []⟩

/-- The directory that a place is in.  The root is in itself. -/
def parent : Location → Location
  | ⟨.ancestor levels, []⟩ => ⟨.ancestor (levels + 1), []⟩
  | ⟨.root, []⟩ => ⟨.root, []⟩
  | ⟨base, names⟩ => ⟨base, names.dropLast⟩

/-- Where a name leads to from a directory. -/
def follow (directory : Location) (name : Text) : Location :=
  if name = ".".toList then directory
  else if name = "..".toList then directory.parent
  else { directory with names := directory.names ++ [name] }

/-- Where a name leads to, if it is short enough to be one. -/
def follow? (directory : Location) (name : Text) : Except FileFault Location :=
  if name.utf8.length ≤ 255 then .ok (directory.follow name) else .error .nameTooLong

/-- The shortest path to a place. -/
def path (l : Location) : Text :=
  (match l.base with
    | .ancestor levels => (List.replicate levels "../".toList).flatten
    | .root => ['/']) ++
    List.intercalate ['/'] l.names

end Location

/-! ## Paths -/

/-- A path: its start, the names on it, and whether a slash ends it. -/
structure Path where
  start : Location
  names : List Text
  isClosed : Bool

namespace Path

/-- The path that a text spells.  Slashes in a row count as one. -/
def ofText (t : Text) : Path where
  start := if t.head? = some '/' then ⟨.root, []⟩ else .workingDirectory
  names := ((t.pieces '/').1 :: (t.pieces '/').2).filter (!·.isEmpty)
  isClosed := t.getLast? = some '/'

/-- The path that a text spells, if the text is not empty and not too long. -/
def ofText? (t : Text) : Except FileFault Path :=
  if t.isEmpty then .error .missing
  else if t.utf8.length < 4096 then .ok (ofText t)
  else .error .nameTooLong

/-- Where a path leads to if all its names are those of directories. -/
def target (p : Path) : Location := p.names.foldl Location.follow p.start

end Path

/-! ## Files -/

/-- What is at a place. -/
inductive Node where
  | directory
  | file (content : List UInt8)
  deriving DecidableEq

/-- The contents of files, by the shortest paths to them. -/
abbrev Files := Dictionary (List UInt8)

/-- What every system has: some directories, and a file without content. -/
def systemNode? (path : Text) : Option Node :=
  if path ∈ ["/dev", "/etc", "/tmp", "/usr", "/var"].map String.toList then some .directory
  else if path = "/dev/null".toList then some (.file [])
  else none

namespace Files

/-- Puts a file at the end of a path, where all directories on the way are made. -/
def place (files : Files) (path : Text) (content : List UInt8) : Files :=
  files.insert (Path.ofText path).target.path content

/-- What is at a place. -/
def node? (files : Files) (l : Location) : Option Node :=
  if l.names.isEmpty then some .directory
  else
    match files.get? l.path with
    | some content => some (.file content)
    | none =>
      if files.entries.any fun e => (l.path ++ ['/']).isPrefixOf e.1 then some .directory
      else systemNode? l.path

/-- The directory that names lead to. -/
def enter (files : Files) (directory : Location) : List Text → Except FileFault Location
  | [] => .ok directory
  | name :: rest =>
    match directory.follow? name with
    | .error fault => .error fault
    | .ok l =>
      match files.node? l with
      | none => .error .missing
      | some (.file _) => .error .notDirectory
      | some .directory => files.enter l rest

/-- The content of the file that a path leads to. -/
def content (files : Files) (path : Text) : Except FileFault (List UInt8) := do
  let p ← Path.ofText? path
  let directory ← files.enter p.start p.names.dropLast
  match p.names.getLast? with
  | none => throw .isDirectory
  | some name =>
    match files.node? (← directory.follow? name) with
    | none => throw .missing
    | some .directory => throw .isDirectory
    | some (.file content) => if p.isClosed then throw .notDirectory else return content

/-- Where a file is written that a path leads to.  Its directory has to be there, and a slash after
its name asks for a directory. -/
def destination (files : Files) (path : Text) : Except FileFault Location := do
  let p ← Path.ofText? path
  let directory ← files.enter p.start p.names.dropLast
  match p.names.getLast? with
  | none => throw .isDirectory
  | some name =>
    if p.isClosed then throw .isDirectory
    else
      let l ← directory.follow? name
      if files.node? l = some .directory then throw .isDirectory else return l

/-- Writes a file, instead of the one that is there. -/
def write (files : Files) (path : Text) (content : List UInt8) : Except FileFault Files :=
  (files.destination path).map fun l => files.insert l.path content

end Files

/-! ## Files as a host -/

/-- Files, and what has been written to the standard output and to the standard error. -/
structure World where
  files : Files
  stdout : List UInt8
  stderr : Text

/-- A system that has files and nothing else.  What is printed on it is kept. -/
def Files.host : Host (StateM World) where
  readFile name := return ((← get).files.content name).mapError FileFault.message
  writeFile name content := modifyGet fun w =>
    match w.files.write name content with
    | .error fault => (.error fault.message, w)
    | .ok files => (.ok (), { w with files := files })
  print content := do
    modify fun w => { w with stdout := w.stdout ++ content }
    return .ok ()
  complain message := modify fun w => { w with stderr := w.stderr ++ message }

end Z80.CommandLine
