import LeasedCommit.Config.Toml
import LeasedCommit.Storage.FileTree

set_option autoImplicit false

/-! # Configuration files

A configuration is read from a file, and a file is written either from a configuration or, where
none stands, with the standard document. What goes wrong with the file is an `io` error, what is
wrong with its content an `invalidConfig` error that names the path. -/

namespace LeasedCommit.Config

/-- The name of the configuration file in a manager's directory. -/
def fileName : String := "covenant.toml"

/-- The configuration in a file. -/
def ofFile (t : FileTree) (p : Path) : Except TransactionError Config :=
  match t.readText p with
  | .error e => .error (.io e.message)
  | .ok document =>
    match ofDocument document with
    | .error (.invalidConfig message) => .error (.invalidConfig (p.shown ++ ": " ++ message))
    | found => found

/-- The configuration in a file, or the standard one if nothing stands at the path. -/
def load (t : FileTree) (p : Path) : Except TransactionError Config :=
  if t.hasNode p then ofFile t p else .ok standard

/-- Write a document to a file. -/
def store (t : FileTree) (p : Path) (document : String) :
    Except TransactionError Unit × FileTree :=
  let (result, t) := t.write p document.toUTF8
  (result.mapError fun e => .io e.message, t)

/-- Write the standard document to a file if nothing stands at the path. -/
def storeStandardIfMissing (t : FileTree) (p : Path) : Except TransactionError Unit × FileTree :=
  if t.hasNode p then (.ok (), t) else store t p standardDocument

/-- Write a configuration to a file. Nothing is written if it has no document. -/
def toFile (c : Config) (t : FileTree) (p : Path) : Except TransactionError Unit × FileTree :=
  match c.toDocument with
  | .error e => (.error e, t)
  | .ok document => store t p document

end LeasedCommit.Config
