import LeasedCommit.Time.Shown
import LeasedCommit.Transaction.Phase

set_option autoImplicit false

/-! # What can go wrong

Three layers: what a participant's call can fail with (`ParticipantError`), why a transaction
was aborted (`AbortCause`), and what an operation can be refused with (`TransactionError`).
Each has one function that words it. -/

namespace LeasedCommit

/-- The failure of a call to a participant. -/
inductive ParticipantError
  /-- The call or its reply was lost. It says nothing about the participant's state. -/
  | communication (message : String)
  /-- The participant understood the call and refused it. -/
  | protocol (message : String)
deriving DecidableEq

namespace ParticipantError

/-- Whether a call or reply was lost. -/
def isCommunication : ParticipantError → Bool
  | .communication _ => true
  | .protocol _ => false

/-- Whether the participant refused the call. -/
def isProtocol : ParticipantError → Bool
  | .communication _ => false
  | .protocol _ => true

/-- The text of a failure. -/
def message : ParticipantError → String
  | .communication m => "communication failure: " ++ m
  | .protocol m => "transaction protocol failure: " ++ m

end ParticipantError

/-- Why a transaction was aborted. Participants are named by their position in join order. -/
inductive AbortCause
  | votedAbort (position : Nat)
  | prepareFailed (position : Nat) (error : ParticipantError)
  | requested
  | leaseCancelled
  | leaseExpired
  /-- The call that was collecting the votes ended without a decision. -/
  | interrupted
deriving DecidableEq

namespace AbortCause

/-- The position of the participant behind an abort. -/
def position? : AbortCause → Option Nat
  | .votedAbort position | .prepareFailed position _ => some position
  | _ => none

/-- The failed call behind an abort. -/
def error? : AbortCause → Option ParticipantError
  | .prepareFailed _ error => some error
  | _ => none

/-- The text of a cause. -/
def message : AbortCause → String
  | .votedAbort position => "participant #" ++ toString position ++ " voted to abort"
  | .prepareFailed position error =>
    "participant #" ++ toString position ++ " failed to prepare: " ++ error.message
  | .requested => "transaction was aborted"
  | .leaseCancelled => "transaction lease was cancelled"
  | .leaseExpired => "transaction lease expired"
  | .interrupted => "commit was interrupted before a decision"

end AbortCause

/-- Why an operation was refused. -/
inductive TransactionError
  /-- The transaction was never created, or it has been evicted. -/
  | unknownTransaction (id : TransactionId)
  | cannotJoin (id : TransactionId) (phase : Phase)
  /-- The decision is to abort. -/
  | cannotCommit (id : TransactionId) (cause : AbortCause)
  | cannotAbort (id : TransactionId) (outcome : Outcome)
  | notModifiable (id : TransactionId) (phase : Phase)
  /-- The lease is cancelled or expired, or its transaction is decided. -/
  | unknownLease (id : TransactionId)
  | timeout (id : TransactionId) (waited : Duration)
  | invalidConfig (message : String)
  /-- A file could not be read or written. -/
  | io (message : String)
deriving DecidableEq

namespace TransactionError

/-- Whether the lease is no longer known. -/
def isUnknownLease : TransactionError → Bool
  | .unknownLease _ => true
  | _ => false

/-- Whether the transaction was found aborted by a commit. -/
def isCannotCommit : TransactionError → Bool
  | .cannotCommit .. => true
  | _ => false

/-- The cause of the abort that a commit met. -/
def cause? : TransactionError → Option AbortCause
  | .cannotCommit _ cause => some cause
  | _ => none

/-- The failed participant call behind a refusal. -/
def participantError? (e : TransactionError) : Option ParticipantError :=
  e.cause?.bind AbortCause.error?

/-- The text of a refusal. -/
def message : TransactionError → String
  | .unknownTransaction id => "unknown transaction " ++ id.shown
  | .cannotJoin id phase => "cannot join " ++ id.shown ++ ": transaction is " ++ phase.shown
  | .cannotCommit id cause => "cannot commit " ++ id.shown ++ ": " ++ cause.message
  | .cannotAbort id outcome =>
    "cannot abort " ++ id.shown ++ ": transaction already " ++ outcome.shown
  | .notModifiable id phase =>
    id.shown ++ " is no longer modifiable: transaction is " ++ phase.shown
  | .unknownLease id => "unknown lease for " ++ id.shown
  | .timeout id waited => "timed out after " ++ waited.shown ++ " waiting on " ++ id.shown
  | .invalidConfig m => "invalid configuration: " ++ m
  | .io m => "I/O error: " ++ m

end TransactionError

end LeasedCommit
