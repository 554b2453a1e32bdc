import LeasedCommit.Config.File
import LeasedCommit.Manager.Step

set_option autoImplicit false

/-! # Opening a manager

A manager is opened on a directory. Its settings come from the configuration file there, which
is written with the standard document if it is missing. -/

namespace LeasedCommit

/-- The manager of a directory, and the files as they are then. -/
def Manager.openIn (t : FileTree) (directory : Path) :
    Except TransactionError Manager × FileTree :=
  let p := directory.join Config.fileName
  match Config.storeStandardIfMissing t p with
  | (.error e, t) => (.error e, t)
  | (.ok (), t) => ((Config.ofFile t p).bind ofConfig, t)

end LeasedCommit
