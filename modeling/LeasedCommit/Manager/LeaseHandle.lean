import LeasedCommit.Manager.Step

set_option autoImplicit false

/-! # Lease handles

Whoever creates a transaction gets a handle to its lease. The handle remembers the expiration
that it was last told and works as long as the manager exists; without a manager every lease
operation is refused. -/

namespace LeasedCommit

/-- A handle to the lease of one transaction. -/
structure LeaseHandle where
  id : TransactionId
  /-- The expiration of the grant, or of the last renewal through this handle. -/
  expiration : Expiration
deriving DecidableEq

namespace LeaseHandle

/-- The task of a renewal through the handle. -/
def renew (h : LeaseHandle) (request : LeaseRequest) : Task := .renew h.id request

/-- The task of a cancellation through the handle. -/
def cancel (h : LeaseHandle) : Task := .cancel h.id

/-- What both are answered when there is no manager. -/
def orphaned (h : LeaseHandle) : Answer := .refused (.unknownLease h.id)

/-- The handle after a renewal was answered. Only a success changes it. -/
def told (h : LeaseHandle) : Answer → LeaseHandle
  | .renewed expiration => { h with expiration := expiration }
  | _ => h

/-- The text of a handle. -/
def shown (h : LeaseHandle) : String :=
  "lease on " ++ h.id.shown ++
    match h.expiration with
    | .never => " (no expiration)"
    | .at last => " (expires " ++ last.shown ++ ")"

/-- The text of a new transaction of a manager together with its lease. -/
def shownCreated (h : LeaseHandle) (manager : String) : String :=
  h.id.shown ++ " on manager " ++ manager ++ " with " ++ h.shown

end LeaseHandle

end LeasedCommit
