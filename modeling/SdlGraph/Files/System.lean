/-!
# File systems

A program asks the file system whether a path leads anywhere and for the text of a file. What it
gets depends on the state of the system at that time, so a file system is any way to answer. One of
them is a tree of directories and files, in which a path is followed part by part, from the root or
from the working directory. Whether a file can hold a schema is told by its path alone.
-/

namespace SdlGraph

/-- A fault of the file system. -/
structure IoFault where
  /-- What is wrong, as the system says it. -/
  message : String
  deriving DecidableEq, Repr

/-- What there is to read at some time. -/
structure FileSystem where
  /-- Whether a path leads anywhere. -/
  leads : String → Bool
  /-- The text of the file at a path. -/
  readText : String → Except IoFault String

/-- The parts of a path, between its slashes. -/
def pathParts (path : String) : List String := (path.toList.splitOn '/').map String.ofList

/-- The last part of a path that names something, if the path ends in one. -/
def fileName? (path : String) : Option String :=
  match ((pathParts path).filter fun part => part ≠ "" ∧ part ≠ ".").getLast? with
  | some ".." => none
  | name => name

/-- The extension of a path: what follows the last full stop of its name, unless only that full stop
starts the name. -/
def extension? (path : String) : Option String :=
  match fileName? path with
  | none => none
  | some name =>
    let reversed := name.toList.reverse
    match reversed.dropWhile (· ≠ '.') with
    | [] => none
    | [_] => none
    | _ => some (String.ofList (reversed.takeWhile (· ≠ '.')).reverse)

/-- Whether a path has an extension of schema files, compared exactly. -/
def isSchemaFile (path : String) : Bool :=
  match extension? path with
  | some extension => extension == "graphql" || extension == "gql"
  | none => false

/-- What keeps a file from being read as text. -/
inductive FileFault where
  /-- A part of the path is missing. -/
  | notFound
  /-- A part of the path before the last is a file. -/
  | notDirectory
  /-- The path leads to a directory. -/
  | isDirectory
  /-- The path or a part of it is too long. -/
  | nameTooLong
  /-- The path holds the character that ends a path for the system. -/
  | unwritablePath
  /-- The bytes of the file are not UTF-8. -/
  | notText
  deriving DecidableEq, Repr

/-- What is wrong, as the system says it. -/
def FileFault.message : FileFault → String
  | notFound => "No such file or directory (os error 2)"
  | notDirectory => "Not a directory (os error 20)"
  | isDirectory => "Is a directory (os error 21)"
  | nameTooLong => "File name too long (os error 36)"
  | unwritablePath => "file name contained an unexpected NUL byte"
  | notText => "stream did not contain valid UTF-8"

/-- The fault that the system reports. -/
def FileFault.io (fault : FileFault) : IoFault := ⟨fault.message⟩

/-- What stands at a path. -/
inductive FileEntry where
  /-- A file with its bytes. -/
  | file (bytes : ByteArray)
  /-- A directory. -/
  | directory

/-- Files and directories by the parts of their paths from the root. The directories on the way to
an entry need not be listed. -/
structure FileTree where
  /-- The directory from which paths are followed that do not start at the root. -/
  working : List String
  /-- The entries listed. -/
  entries : List (List String × FileEntry)

namespace FileTree

/-- The parts of a path when those that stay where they are and those that lead back are carried
out. -/
def plainParts (path : String) : List String :=
  (pathParts path).foldl
    (fun place part =>
      if part = "" ∨ part = "." then place
      else if part = ".." then place.dropLast
      else place ++ [part])
    []

/-- The tree of entries listed by their paths from a working directory below the root. Of two
entries at one place the later one counts. -/
def ofPaths (entries : List (String × FileEntry)) : FileTree :=
  ⟨["work"], (entries.map fun (path, entry) => ("work" :: plainParts path, entry)).reverse⟩

/-- What stands at a path given by its parts. -/
def entry? (tree : FileTree) (parts : List String) : Option FileEntry :=
  match tree.entries.find? (·.1 == parts) with
  | some entry => some entry.2
  | none =>
    if parts.isPrefixOf tree.working ||
        tree.entries.any (fun entry => parts.isPrefixOf entry.1) then
      some .directory
    else none

/-- Most bytes of a name. -/
def nameLimit : Nat := 255

/-- Most bytes of a path. -/
def pathLimit : Nat := 4095

/-- Follow the parts of a path from a directory. An empty part or a full stop stays where it is, and
two full stops lead back, at most to the root. -/
def follow (tree : FileTree) (place : List String) : List String → Except FileFault FileEntry
  | [] =>
    match tree.entry? place with
    | some entry => .ok entry
    | none => .error .notFound
  | part :: rest =>
    match tree.entry? place with
    | none => .error .notFound
    | some (.file _) => .error .notDirectory
    | some .directory =>
      if part = "" ∨ part = "." then tree.follow place rest
      else if part = ".." then tree.follow place.dropLast rest
      else if nameLimit < part.utf8ByteSize then .error .nameTooLong
      else tree.follow (place ++ [part]) rest

/-- What a path leads to. The empty path leads nowhere, and a path that starts with a slash starts
at the root. -/
def lookUp (tree : FileTree) (path : String) : Except FileFault FileEntry :=
  if '\x00' ∈ path.toList then .error .unwritablePath
  else if pathLimit < path.utf8ByteSize then .error .nameTooLong
  else
    match pathParts path with
    | [""] => .error .notFound
    | "" :: parts => tree.follow [] parts
    | parts => tree.follow tree.working parts

/-- Whether a path leads anywhere. -/
def leads (tree : FileTree) (path : String) : Bool :=
  match tree.lookUp path with
  | .ok _ => true
  | .error _ => false

/-- The text of the file at a path. -/
def readText (tree : FileTree) (path : String) : Except FileFault String :=
  match tree.lookUp path with
  | .error fault => .error fault
  | .ok .directory => .error .isDirectory
  | .ok (.file bytes) =>
    match String.fromUTF8? bytes with
    | some text => .ok text
    | none => .error .notText

/-- The file system that a tree is. -/
def system (tree : FileTree) : FileSystem :=
  ⟨tree.leads, fun path => (tree.readText path).mapError FileFault.io⟩

instance : Coe FileTree FileSystem := ⟨system⟩

end FileTree

end SdlGraph
