import LeasedCommit.Time.Shown

set_option autoImplicit false

/-! # Lease requests, grants and expirations

A lease bounds how long a transaction may stay undecided. A `LeaseRequest` asks for a length,
a `LeasePolicy` turns it into a granted length (`none` is forever), and `Expiration.after`
turns a granted length into the last instant at which the lease is valid. -/

namespace LeasedCommit

/-- A requested lease length. -/
inductive LeaseRequest
  /-- No expiration. -/
  | forever
  /-- Whatever the policy gives by default. -/
  | any
  /-- At most this long. -/
  | bounded (length : Duration)
deriving DecidableEq

/-- The absolute end of a lease. -/
inductive Expiration
  /-- The lease does not end on its own. -/
  | never
  /-- The lease is valid up to and including this instant. -/
  | at (last : Timestamp)
deriving DecidableEq

namespace Expiration

/-- The expiration of a grant of length `granted` made at `now`. -/
def after (now : Timestamp) : Option Duration → Expiration
  | some length => .at (now.plus length)
  | none => .never

/-- Whether `now` is past the expiration. -/
def hasPassed (e : Expiration) (now : Timestamp) : Bool :=
  match e with
  | .never => false
  | .at last => last < now

/-- The time left at `now`: zero once the last instant is reached, `none` if there is no end. -/
def remaining (e : Expiration) (now : Timestamp) : Option Duration :=
  match e with
  | .never => none
  | .at last => some ((last.since? now).getD Duration.zero)

/-- The text of an expiration. -/
def shown : Expiration → String
  | .never => "never"
  | .at last => last.shown

end Expiration

/-- How requests become grants. -/
structure LeasePolicy where
  /-- The grant for a request of any length. -/
  defaultLength : Duration
  /-- The bound on every grant; without one a lease may be held forever. -/
  maxLength : Option Duration
deriving DecidableEq

namespace LeasePolicy

/-- One hour for any request, and no bound. -/
def standard : LeasePolicy := { defaultLength := Duration.ofSecs 3600, maxLength := none }

instance : Inhabited LeasePolicy := ⟨standard⟩

/-- The length wished for, before the bound is applied. -/
def wanted (p : LeasePolicy) : LeaseRequest → Option Duration
  | .forever => none
  | .any => some p.defaultLength
  | .bounded length => some length

/-- The granted length. The bound shortens a request and never lengthens it. -/
def grant (p : LeasePolicy) (request : LeaseRequest) : Option Duration :=
  match p.wanted request, p.maxLength with
  | none, bound => bound
  | some length, some bound => some (min length bound)
  | some length, none => some length

end LeasePolicy

end LeasedCommit
