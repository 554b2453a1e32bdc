import LeasedCommit.Config.Basic

set_option autoImplicit false

/-! # Errands of a manager

An errand is a `Task` on its way to a `Result`. Most tasks look their transaction up and then
run one operation on it; the operation goes on even if the transaction is evicted meanwhile.
Creating a transaction and sweeping the table take several moves, between which other errands
can make theirs. An `Errand` says where a task stands. -/

namespace LeasedCommit

/-- What a manager can be asked to do. -/
inductive Task
  | create (request : LeaseRequest)
  | join (id : TransactionId) (participant : Participant)
  | commit (id : TransactionId)
  | abort (id : TransactionId)
  | renew (id : TransactionId) (request : LeaseRequest)
  | cancel (id : TransactionId)
  /-- Expire the lease if it has lapsed, then tell the phase. -/
  | phase (id : TransactionId)
  | awaitPhase (id : TransactionId) (target : Phase) (timeout : Duration)
  | report (id : TransactionId)
  /-- Abort what has lapsed and evict what is past its retention. -/
  | sweep
deriving DecidableEq

namespace Task

/-- The transaction that a task is about. -/
def id? : Task → Option TransactionId
  | .create _ | .sweep => none
  | .join id _ | .commit id | .abort id | .renew id _ | .cancel id | .phase id
  | .awaitPhase id _ _ | .report id => some id

/-- The operation that a task runs on its transaction. -/
def request? : Task → Option Request
  | .create _ | .sweep | .report _ => none
  | .join _ p => some (.join p)
  | .commit _ => some .commit
  | .abort _ => some .abort
  | .renew _ request => some (.renew request)
  | .cancel _ => some .cancel
  | .phase _ => some .expire
  | .awaitPhase _ target _ => some (.awaitPhase target)

/-- The refusal of a task whose transaction is not in the table. To a lease operation it is the
lease that is unknown. -/
def unknown (task : Task) (id : TransactionId) : TransactionError :=
  match task with
  | .renew .. | .cancel _ => .unknownLease id
  | _ => .unknownTransaction id

end Task

/-- What a sweep has done. -/
structure SweepStats where
  expired : Nat
  evicted : Nat
deriving DecidableEq

/-- What a task leads to. -/
inductive Result
  | created (id : TransactionId) (expiration : Expiration)
  | answered (answer : Answer)
  | report (report : Option CommitReport)
  | swept (stats : SweepStats)
deriving DecidableEq

namespace Result

/-- A task that was refused. -/
def refused (error : TransactionError) : Result := .answered (.refused error)

end Result

/-- A name in the table and the place of the transaction that it names. -/
structure Entry where
  id : TransactionId
  place : Nat
deriving DecidableEq

/-- A sweep under way. -/
structure Sweep where
  /-- The clock when the sweep began. -/
  now : Timestamp
  /-- Entries of the table at that time that are still to be looked at. -/
  rest : List Entry
  stats : SweepStats
deriving DecidableEq

namespace Sweep

/-- One more transaction was aborted. -/
def expireOne (s : Sweep) : Sweep :=
  { s with stats := { s.stats with expired := s.stats.expired + 1 } }

/-- One more transaction was evicted. -/
def evictOne (s : Sweep) : Sweep :=
  { s with stats := { s.stats with evicted := s.stats.evicted + 1 } }

end Sweep

/-- Where a task stands. -/
inductive Errand
  | begun (task : Task)
  /-- An operation runs for it. -/
  | underway (task : Task) (place operation : Nat)
  /-- It is about to read the report of the transaction at a place. -/
  | reading (place : Nat)
  /-- A new transaction is about to enter the table. -/
  | storing (entry : Entry)
  /-- A new transaction has entered the table and is about to be counted. -/
  | counting (id : TransactionId) (expiration : Expiration)
  | sweeping (sweep : Sweep)
  /-- A sweep runs the operation that expires one transaction. -/
  | expiring (sweep : Sweep) (entry : Entry) (operation : Nat)
  | finished (result : Result)
  | panicked (message : String)
deriving DecidableEq

end LeasedCommit
