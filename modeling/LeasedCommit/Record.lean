import LeasedCommit.Lease.State
import LeasedCommit.Registry

set_option autoImplicit false

/-! # Transaction records

A `Record` is all that is kept about one transaction: its phase, participants and lease, and
once it is decided, why and when. `Record.move?` is the only way to another phase; a decision
also freezes the registry and stamps the time. -/

namespace LeasedCommit

/-- A participant whose commit call did not succeed. -/
structure CommitFailure where
  position : Nat
  /-- The failure of the last call. -/
  error : ParticipantError
  /-- How many calls were made. -/
  attempts : UInt32
deriving DecidableEq

/-- The result of a committed transaction. -/
structure CommitReport where
  id : TransactionId
  /-- The number of joins. -/
  participants : Nat
  /-- The participants that could not be told, in join order. -/
  failures : List CommitFailure
deriving DecidableEq

namespace CommitReport

/-- Whether every participant took the commit. -/
def isClean (r : CommitReport) : Bool := r.failures.isEmpty

/-- Participants that refused a commit they had voted for. -/
def anomalies (r : CommitReport) : List CommitFailure :=
  r.failures.filter fun f => f.error.isProtocol

/-- Participants whose commit call was lost. -/
def lost (r : CommitReport) : List CommitFailure :=
  r.failures.filter fun f => !f.error.isProtocol

end CommitReport

/-- One transaction. -/
structure Record where
  id : TransactionId
  createdAt : Timestamp
  phase : Phase
  registry : Registry
  lease : Lease
  /-- Why the transaction was aborted, once it is. -/
  abortCause : Option AbortCause
  /-- What became of the commit calls, once all are made or given up. -/
  report : Option CommitReport
  /-- When the decision was made. -/
  settledAt : Option Timestamp
deriving DecidableEq

namespace Record

/-- A new transaction without participants. -/
def create (id : TransactionId) (lease : Lease) (now : Timestamp) : Record :=
  { id := id, createdAt := now, phase := .active, registry := Registry.empty, lease := lease
    abortCause := none, report := none, settledAt := none }

/-- The record in phase `next`, if that may follow. -/
def move? (r : Record) (next : Phase) (now : Timestamp) : Option Record :=
  if !r.phase.canBecome next then none
  else if next.isTerminal then
    some { r with phase := next, registry := r.registry.freeze, settledAt := some now }
  else some { r with phase := next }

/-- The record in phase `next`, or unchanged if that may not follow. -/
def moved (r : Record) (next : Phase) (now : Timestamp) : Record := (r.move? next now).getD r

/-- The cause that a commit reports for an aborted record. -/
def statedCause (r : Record) : AbortCause := r.abortCause.getD .requested

/-- The refusal of a commit that finds the record aborted. -/
def cannotCommit (r : Record) : TransactionError := .cannotCommit r.id r.statedCause

/-- Whether the decision is more than `retention` old at `now`. -/
def isEvictable (r : Record) (now : Timestamp) (retention : Duration) : Bool :=
  match r.settledAt with
  | some settled => r.phase.isTerminal && settled.plus retention < now
  | none => false

end Record

end LeasedCommit
