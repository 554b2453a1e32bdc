set_option autoImplicit false

/-! # Paths

A path is a list of names to follow, from a root directory or from the top of all directories. It
is shown as it was put together: nothing is simplified before somebody follows it. -/

namespace LeasedCommit

/-- A path from a directory. -/
structure Path where
  /-- How that directory is shown, which for the top of all directories is not at all. -/
  root : String
  names : List String
deriving DecidableEq

namespace Path

/-- The path that a text spells. Names stand between slashes; a slash in front of the first one
leads to the top instead of the root. -/
def ofText (root text : String) : Path :=
  match text.splitOn "/" with
  | "" :: name :: names => { root := "", names := name :: names }
  | names => { root, names }

/-- Whether a path begins at the top of all directories. -/
def isFromTop (p : Path) : Bool := p.root == ""

/-- The path of something in a directory. A slash at the end of the directory's path is not
doubled. -/
def join (p : Path) (name : String) : Path :=
  { p with
    names := (if p.names.getLast? = some "" then p.names.dropLast else p.names) ++ [name] }

/-- Whether a name stands for itself and not for a place relative to where it is met. -/
def isProper (name : String) : Bool := name != "" && name != "." && name != ".."

/-- The names before the last proper one, if slashes and nothing else follow that. Such a path
can only lead to a directory. -/
def wayToDirectory? (p : Path) : Option (List String) :=
  match p.names.reverse with
  | "" :: names =>
    match names.dropWhile (· == "") with
    | name :: way => if isProper name then some way.reverse else none
    | [] => none
  | _ => none

/-- The text of a path. -/
def shown (p : Path) : String := "/".intercalate (p.root :: p.names)

end Path

end LeasedCommit
