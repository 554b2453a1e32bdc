import LeasedCommit.Lease.Policy

set_option autoImplicit false

/-! # The life of a lease

A `Lease` is granted `valid`. It can be renewed and cancelled as long as it is valid and its
expiration has not passed, and it can be marked expired. Once cancelled or expired it stays
so. A lease that is still marked valid after its expiration has *lapsed*. -/

namespace LeasedCommit

/-- Where a lease is in its life. -/
inductive LeaseStatus
  | valid
  | cancelled
  | expired
deriving DecidableEq

/-- The lease of one transaction. -/
structure Lease where
  expiration : Expiration
  /-- The length of the last grant. -/
  granted : Option Duration
  status : LeaseStatus
deriving DecidableEq

namespace Lease

/-- A new lease, granted at `now`. -/
def grant (policy : LeasePolicy) (request : LeaseRequest) (now : Timestamp) : Lease :=
  let granted := policy.grant request
  { expiration := Expiration.after now granted, granted := granted, status := .valid }

/-- Valid and not past its expiration. -/
def isValid (l : Lease) (now : Timestamp) : Bool :=
  l.status == .valid && !l.expiration.hasPassed now

/-- Still marked valid, but past its expiration. -/
def hasLapsed (l : Lease) (now : Timestamp) : Bool :=
  l.status == .valid && l.expiration.hasPassed now

/-- Extend the lease from `now`, if it is valid then, and say until when. -/
def renew (l : Lease) (policy : LeasePolicy) (request : LeaseRequest) (now : Timestamp) :
    Option Expiration × Lease :=
  if l.isValid now then
    let granted := policy.grant request
    let expiration := Expiration.after now granted
    (some expiration, { l with expiration := expiration, granted := granted })
  else (none, l)

/-- Give the lease up, if it is valid at `now`, and say whether it was. -/
def cancel (l : Lease) (now : Timestamp) : Bool × Lease :=
  if l.isValid now then (true, { l with status := .cancelled }) else (false, l)

/-- The lease recorded as expired, unless it has left `valid` before. -/
def markExpired (l : Lease) : Lease :=
  if l.status = .valid then { l with status := .expired } else l

end Lease

end LeasedCommit
