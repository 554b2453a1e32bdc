import LeasedCommit.Storage.Path

set_option autoImplicit false

/-! # Files and directories

A `FileTree` holds the files and directories around one root directory; above the root nothing is
known but that directories are there. Every node has a location, the names on the way to it
without detours. `FileTree.locate` follows a path to a location and fails where the way is
barred; `readBytes` and `hasNode` start with it, and `write` with `FileTree.locateNew`, which
also refuses the paths that only directories have. Whatever changes files gives the tree as it is
afterwards next to its result, also when it fails. -/

namespace LeasedCommit

/-- What stands at a location. -/
inductive Node
  | file (content : ByteArray)
  | directory

/-- The names from the root to a node. Those of a node that is not below the root begin with two
dots, once for every level above it. -/
abbrev Location := List String

namespace Location

/-- Whether this is the root or lies on the way up from it. -/
def isAtOrAboveRoot (location : Location) : Bool := location.all (· == "..")

/-- The top of all directories. It lies two levels above the root. -/
def top : Location := ["..", ".."]

/-- The location of the directory that holds a node. -/
def parent (location : Location) : Location :=
  if location.isAtOrAboveRoot then location ++ [".."] else location.dropLast

end Location

/-- Why a file cannot be used. -/
inductive FileError
  /-- Nothing is there. -/
  | missing
  /-- The way leads through a file. -/
  | notDirectory
  /-- A directory is there. -/
  | isDirectory
  /-- A name or the whole path is longer than it may be. -/
  | nameTooLong
  /-- A name holds the character that ends names. -/
  | nulInName
  /-- The content is not text. -/
  | notText
deriving DecidableEq

/-- The text of a file error. -/
def FileError.message : FileError → String
  | .missing => "No such file or directory (os error 2)"
  | .notDirectory => "Not a directory (os error 20)"
  | .isDirectory => "Is a directory (os error 21)"
  | .nameTooLong => "File name too long (os error 36)"
  | .nulInName => "file name contained an unexpected NUL byte"
  | .notText => "stream did not contain valid UTF-8"

/-- The nodes around a root directory. -/
structure FileTree where
  nodes : List (Location × Node)

namespace FileTree

/-- A tree with nothing in it. -/
def empty : FileTree := ⟨[]⟩

instance : Inhabited FileTree := ⟨empty⟩

/-- What stands at a location. The root is a directory, and so is everything above it. -/
def node? (t : FileTree) (location : Location) : Option Node :=
  if location.isAtOrAboveRoot then some .directory else t.nodes.lookup location

/-- The tree with a node at a location. -/
def put (t : FileTree) (location : Location) (node : Node) : FileTree :=
  ⟨(location, node) :: t.nodes.filter (·.1 != location)⟩

/-! ## Following paths -/

/-- Names have at most this many bytes. -/
def longestName : Nat := 255

/-- The text of a path has at most this many bytes after the root. That leaves the root itself
room within the 4095 bytes that a path has at most. -/
def longestPath : Nat := 4079

/-- What is wrong with the text of a path, before anything is looked up. -/
def checkPath (p : Path) : Except FileError Unit :=
  if p.names.any (·.toList.contains '\x00') then .error .nulInName
  else if longestPath < ("/".intercalate p.names).utf8ByteSize then .error .nameTooLong
  else .ok ()

/-- Follow names from a location. An empty name and a single dot stay, two dots go up, and
every step needs a directory to start from. Nothing has to stand at the end of the way. -/
def follow (t : FileTree) : Location → List String → Except FileError Location
  | location, [] => .ok location
  | location, name :: names =>
    match t.node? location with
    | none => .error .missing
    | some (.file _) => .error .notDirectory
    | some .directory =>
      if name = "" ∨ name = "." then t.follow location names
      else if name = ".." then t.follow location.parent names
      else if longestName < name.utf8ByteSize then .error .nameTooLong
      else t.follow (location ++ [name]) names

/-- Where a path begins. -/
def origin (p : Path) : Location := if p.isFromTop then .top else []

/-- The location to which a path leads. -/
def locate (t : FileTree) (p : Path) : Except FileError Location := do
  checkPath p
  t.follow (origin p) p.names

/-- The location at which a path has a file, which may have to be made. A path that ends in slashes
has none: if the way to its last name is free, a directory is taken to be meant. -/
def locateNew (t : FileTree) (p : Path) : Except FileError Location := do
  checkPath p
  match p.wayToDirectory? with
  | some way =>
    let _ ← t.follow (origin p) (way ++ [""])
    .error .isDirectory
  | none => t.follow (origin p) p.names

/-! ## Using files -/

/-- Whether something stands at a path. -/
def hasNode (t : FileTree) (p : Path) : Bool :=
  match t.locate p with
  | .ok location => (t.node? location).isSome
  | .error _ => false

/-- The content of a file. -/
def readBytes (t : FileTree) (p : Path) : Except FileError ByteArray := do
  match t.node? (← t.locate p) with
  | none => .error .missing
  | some .directory => .error .isDirectory
  | some (.file content) => .ok content

/-- The content of a file of text. -/
def readText (t : FileTree) (p : Path) : Except FileError String := do
  match String.fromUTF8? (← t.readBytes p) with
  | some s => .ok s
  | none => .error .notText

/-- Give a file this content. A file that is missing is made, in a directory that exists. -/
def write (t : FileTree) (p : Path) (content : ByteArray) : Except FileError Unit × FileTree :=
  match t.locateNew p with
  | .error e => (.error e, t)
  | .ok location =>
    match t.node? location with
    | some .directory => (.error .isDirectory, t)
    | _ => (.ok (), t.put location (.file content))

/-- The tree with directories all along the way from a location. A file in the way and a name
that is too long end it. -/
def makeDirectories (t : FileTree) : Location → List String → FileTree
  | _, [] => t
  | location, name :: names =>
    if name = "" ∨ name = "." then t.makeDirectories location names
    else if name = ".." then t.makeDirectories location.parent names
    else if longestName < name.utf8ByteSize then t
    else
      let next := location ++ [name]
      match t.node? next with
      | some (.file _) => t
      | some .directory => t.makeDirectories next names
      | none => (t.put next .directory).makeDirectories next names

/-- The tree in which a path leads to a directory, and everything on the way is one too, as far
as this can be. -/
def makeDirectory (t : FileTree) (p : Path) : FileTree :=
  match checkPath p with
  | .error _ => t
  | .ok () => t.makeDirectories (origin p) p.names

end FileTree

end LeasedCommit
