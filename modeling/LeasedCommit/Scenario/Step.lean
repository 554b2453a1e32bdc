import LeasedCommit.Manager.LeaseHandle
import LeasedCommit.Scenario.Script

set_option autoImplicit false

/-! # Steps of a scenario and what they find

A scenario is a list of `Step`s. Each gives a `StepAnswer`: its `Finding`, the calls to
participants that it made, and what the manager or the record looks like afterwards. Steps that
run while a call is out are answered inside the entry of that call. -/

namespace LeasedCommit.Scenario

/-- So many arrivals at a gate. -/
structure Arrivals where
  gate : String
  count : Nat
deriving DecidableEq

/-- One step. Names are those of participants, leases, gates and threads. -/
inductive Step
  /-- A new participant; an older one of that name stays where it has joined. -/
  | introduce (name : String) (script : Script Step)
  | rescript (name : String) (script : Script Step)
  | call (name : String) (id : TransactionId) (verb : Verb)
  | callsFor (name : String) (id : TransactionId)
  | allCalls (name : String)
  /-- Wait until a participant has received so many calls. -/
  | awaitCalls (name : String) (count : Nat)
  | join (id : TransactionId) (name : String)
  /-- Introduce participants `stem0`, `stem1`, … with one script, and let each join. -/
  | joinMany (id : TransactionId) (count : Nat) (stem : String) (script : Script Step)
  | commit (id : TransactionId)
  | abort (id : TransactionId)
  | renew (id : TransactionId) (request : LeaseRequest)
  | cancel (id : TransactionId)
  | phase (id : TransactionId)
  | awaitPhase (id : TransactionId) (target : Phase) (timeout : Option Duration)
  | report (id : TransactionId)
  | advance (span : Duration)
  | setClock (instant : Timestamp)
  | create (request : LeaseRequest) (count : Nat)
  | sweep
  | metrics
  | renewLease (lease : String) (request : LeaseRequest)
  | cancelLease (lease : String)
  | inspectLease (lease : String)
  | cloneLease (lease copy : String)
  | dropManager
  /-- Wait until the table holds so many transactions. -/
  | awaitTracked (count : Nat)
  | openRecord (id : TransactionId) (request : LeaseRequest)
  | expire (id : TransactionId)
  | evictable (id : TransactionId) (now : Timestamp) (retention : Duration)
  | startCommit (id : TransactionId) (thread : String) (awaited : Option Arrivals)
  | startWait (id : TransactionId) (target : Phase) (timeout : Option Duration) (thread : String)
  | openGate (gate : String) (awaited : Option Arrivals)
  | collect (thread : String)

/-- The transaction that a step names. -/
def Step.id? : Step → Option TransactionId
  | .call _ id _ | .callsFor _ id | .join id _ | .joinMany id _ _ _ | .commit id | .abort id
  | .renew id _ | .cancel id | .phase id | .awaitPhase id _ _ | .report id | .openRecord id _
  | .expire id | .evictable id _ _ | .startCommit id _ _ | .startWait id _ _ _ => some id
  | _ => none

/-- Whether a step works on the manager itself, not through a lease. -/
def Step.usesManager : Step → Bool
  | .join .. | .joinMany .. | .commit _ | .abort _ | .renew .. | .cancel _ | .phase _
  | .awaitPhase .. | .report _ | .create .. | .sweep | .metrics | .dropManager => true
  | _ => false

/-- A call to a participant that was made during a step. -/
structure CallEntry (α : Type) where
  name : String
  id : TransactionId
  verb : Verb
  reply : CallReply
  /-- The answers of the steps that ran while the call was out. -/
  during : List α

/-- What a step finds. -/
inductive Finding (α : Type)
  | nothing
  | flag (value : Bool)
  | answered (answer : Answer)
  | replied (reply : CallReply)
  | panicked (message : String)
  | calls (verbs : List Verb) (decisions : Nat)
  | allCalls (name : String) (calls : List (TransactionId × Verb))
  | report (report : Option CommitReport)
  | instant (t : Timestamp)
  | created (lease : LeaseHandle)
  | swept (stats : SweepStats)
  | metrics (metrics : Metrics)
  | lease (lease : LeaseHandle) (connected : Bool)
  | opened (id : TransactionId) (createdAt : Timestamp)
  /-- The awaited arrivals have happened. -/
  | arrived
  /-- A started commit waits for the decision of another. -/
  | waiting
  /-- A started commit has ended. -/
  | ended
  | collected (finding : Finding α) (log : List (CallEntry α))

/-- What there is to see after a step. -/
inductive Snapshot
  | manager (metrics : Metrics)
  | coordinator (counts : OutcomeCounts) (record : Option Record)

/-- The answer of a step. -/
inductive StepAnswer
  | mk (finding : Finding StepAnswer) (log : List (CallEntry StepAnswer))
      (snapshot : Option Snapshot)

namespace StepAnswer

/-- What the step found. -/
def finding : StepAnswer → Finding StepAnswer
  | .mk finding _ _ => finding

/-- The calls that the step made, in the order in which they ended. -/
def log : StepAnswer → List (CallEntry StepAnswer)
  | .mk _ log _ => log

/-- What there was to see after the step. -/
def snapshot : StepAnswer → Option Snapshot
  | .mk _ _ snapshot => snapshot

end StepAnswer

end LeasedCommit.Scenario
