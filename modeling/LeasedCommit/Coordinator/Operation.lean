import LeasedCommit.Record

set_option autoImplicit false

/-! # Operations on a record

An operation is a `Request` on its way to an `Answer`. It visits the record several times and
calls participants between its visits; a visit is undisturbed, but anything can happen between
two visits and while a call is out. A `Stage` says exactly where an operation stands, so that
any number of operations on one record can be interleaved at these points.

* `requested`, `asking`, `deciding`, `voteHeard`, … wait for the next visit;
* `votePending`, `solePending`, `commitPending`, `abortPending` have a call out (`Stage.call?`);
* `awaiting` waits for other operations, `pausing` for time to pass;
* `finished` and `panicked` are over. -/

namespace LeasedCommit

/-- What can be asked of a record. -/
inductive Request
  | join (participant : Participant)
  | commit
  | abort
  | renew (request : LeaseRequest)
  | cancel
  /-- Abort if the lease has lapsed. -/
  | expire
  /-- Wait for a phase or a decision. -/
  | awaitPhase (target : Phase)
deriving DecidableEq

/-- What an operation leads to. -/
inductive Answer
  | joined (position : Nat)
  | committed (report : CommitReport)
  /-- An abort or a cancellation was accepted. -/
  | done
  | renewed (expiration : Expiration)
  /-- Whether the operation found the lease lapsed and aborted the record. -/
  | expired (aborted : Bool)
  | reached (phase : Phase)
  | timedOut
  | refused (error : TransactionError)
deriving DecidableEq

/-- How often and how fast lost commit calls are repeated. -/
structure RollForwardPolicy where
  /-- Calls after the first. -/
  maxRetries : UInt32
  /-- The pause before each of them. -/
  backoff : Duration
deriving DecidableEq

namespace RollForwardPolicy

/-- No repetition. -/
def standard : RollForwardPolicy := { maxRetries := 0, backoff := Duration.ofMillis 100 }

/-- Whether a commit call that failed is repeated after `attempts` calls. A refusal never is. -/
def repeats (p : RollForwardPolicy) (error : ParticipantError) (attempts : UInt32) : Bool :=
  error.isCommunication && attempts ≤ p.maxRetries

end RollForwardPolicy

/-- What an operation waits for when another one holds the answer. -/
inductive Wait
  /-- The outcome of a commit that is under way. -/
  | decision
  /-- A phase or any decision. -/
  | phase (target : Phase)
deriving DecidableEq

/-- The commit call to one participant, and what is left to do after it. -/
structure Delivery where
  /-- The number of joins, for the report. -/
  participants : Nat
  claim : Claim
  /-- Calls made to this participant, the present one included. -/
  attempts : UInt32
  /-- Participants still to be told. -/
  rest : List Claim
  /-- Participants that could not be told, in join order. -/
  failures : List CommitFailure
deriving DecidableEq

/-- Where an operation stands. -/
inductive Stage
  /-- It has not visited the record. -/
  | requested (request : Request)
  | awaiting (wait : Wait)
  /-- It is about to ask slot `index` of `count`. -/
  | asking (index count : Nat)
  | votePending (index count : Nat) (participant : Participant)
  | voteHeard (index count : Nat) (vote : Response Vote)
  /-- It is about to ask the only slot. -/
  | askingSole
  | solePending (participant : Participant) (exchange : Exchange)
  | soleHeard (vote : Response CombinedVote)
  /-- Nobody is left to ask. -/
  | deciding
  /-- The decision is to commit. -/
  | rollingForward
  | commitPending (delivery : Delivery)
  | pausing (delivery : Delivery)
  | reporting (report : CommitReport)
  /-- The decision is to abort. -/
  | abandoning
  /-- It tells a participant to abort, then `rest`, and then ends with `answer`. If it also
  collected the votes (`owner`), a panic makes it settle the record. -/
  | abortPending (owner : Bool) (claim : Claim) (rest : List Claim) (answer : Answer)
  /-- A call panicked while the operation was responsible for the decision. -/
  | unwinding (message : String)
  | finished (answer : Answer)
  | panicked (message : String)
deriving DecidableEq

/-- A call that is out. -/
structure Call where
  position : Nat
  participant : Participant
  verb : Verb
deriving DecidableEq

namespace Stage

/-- The call that an operation has out. -/
def call? : Stage → Option Call
  | .votePending index _ p => some { position := index, participant := p, verb := .prepare }
  | .solePending p exchange => some { position := 0, participant := p, verb := exchange.verb }
  | .commitPending d =>
    some { position := d.claim.position, participant := d.claim.participant, verb := .commit }
  | .abortPending _ claim _ _ =>
    some { position := claim.position, participant := claim.participant, verb := .abort }
  | _ => none

/-- Whether the operation is over. -/
def isOver : Stage → Bool
  | .finished _ | .panicked _ => true
  | _ => false

/-- The operation once it has slot `index` of `count` before it. -/
def ask (index count : Nat) : Stage := if index < count then .asking index count else .deciding

/-- The operation that has the decision of its own vote. -/
def afterDecision : Outcome → Stage
  | .committed => .rollingForward
  | .aborted => .abandoning

/-- The operation that has aborts to deliver before it answers. -/
def deliverAborts (owner : Bool) (owed : List Claim) (answer : Answer) : Stage :=
  match owed with
  | [] => .finished answer
  | claim :: rest => .abortPending owner claim rest answer

/-- The operation that has commits to deliver before it reports. -/
def deliverCommits (id : TransactionId) (participants : Nat) (owed : List Claim)
    (failures : List CommitFailure) : Stage :=
  match owed with
  | [] => .reporting { id := id, participants := participants, failures := failures }
  | claim :: rest =>
    .commitPending
      { participants := participants, claim := claim, attempts := 1, rest := rest
        failures := failures }

/-! ## Hearing from a participant

Each function gives the stage after a call has returned, and nothing for a stage that has no
such call out. -/

/-- The end of the exchange with the only participant. -/
def hearSole : Reply CombinedVote → Stage
  | .returned response => .soleHeard response
  | .panicked message => .unwinding message

/-- A vote has come in. -/
def hearVote (reply : Reply Vote) : Stage → Option Stage
  | .votePending index count _ =>
    match reply with
    | .returned response => some (.voteHeard index count response)
    | .panicked message => some (.unwinding message)
  | .solePending p .voting =>
    match Exchange.afterVote reply with
    | .inl exchange => some (.solePending p exchange)
    | .inr reply => some (hearSole reply)
  | _ => none

/-- The answer to a combined call has come in. -/
def hearCombined (reply : Reply CombinedVote) : Stage → Option Stage
  | .solePending _ .combined => some (hearSole reply)
  | _ => none

/-- A commit or abort call has returned. Failed aborts are not repeated. -/
def hearDone (policy : RollForwardPolicy) (id : TransactionId) (reply : Reply Unit) :
    Stage → Option Stage
  | .solePending _ .committing => some (hearSole (Exchange.afterCommit reply))
  | .commitPending d =>
    match reply with
    | .returned (.answered ()) => some (deliverCommits id d.participants d.rest d.failures)
    | .returned (.failed error) =>
      if policy.repeats error d.attempts then some (.pausing d)
      else
        let failure : CommitFailure :=
          { position := d.claim.position, error := error, attempts := d.attempts }
        some (deliverCommits id d.participants d.rest (d.failures ++ [failure]))
    | .panicked message => some (.unwinding message)
  | .abortPending owner _ rest answer =>
    match reply with
    | .returned _ => some (deliverAborts owner rest answer)
    | .panicked message => some (if owner then .unwinding message else .panicked message)
  | _ => none

/-- The pause before a repeated commit call is over. -/
def resume : Stage → Option Stage
  | .pausing d => some (.commitPending { d with attempts := d.attempts + 1 })
  | _ => none

end Stage

end LeasedCommit
