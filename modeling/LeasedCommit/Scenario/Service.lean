import LeasedCommit.Scenario.Step

set_option autoImplicit false

/-! # What a scenario works on

A scenario works on a manager or on a bare coordinator. `Service.drive` makes the next move of
a job (an errand of the manager, or an operation on a record), and says when the job cannot
move by itself: it has a call out, sleeps, pauses, or has ended. The clock stands still during
each move. -/

namespace LeasedCommit.Scenario

/-- The object of a scenario. -/
inductive Service
  /-- A coordinator, and the record that each number names. -/
  | coordinator (c : Coordinator) (names : List Entry)
  /-- A manager, and whether its owner still has it. -/
  | manager (m : Manager) (owned : Bool)

/-- Something that is being done for a step. -/
inductive Job
  | errand (number : Nat)
  | operation (place number : Nat)

/-- What comes next for a job. -/
inductive Need
  /-- It has moved. -/
  | moved (s : Service)
  /-- A call is out, for a transaction. -/
  | call (id : TransactionId) (call : Call)
  /-- An operation sleeps until its record changes. -/
  | sleep (place operation : Nat)
  | pause (span : Duration)
  | ended (result : Result)
  | panicked (message : String)

namespace Service

/-- The coordinator behind the service. -/
def base : Service → Coordinator
  | .coordinator c _ => c
  | .manager m _ => m.coordinator

/-- An operation on the record at a place makes a move; one that it cannot make changes
nothing. -/
def act (s : Service) (place : Nat) (action : Action) : Service :=
  match s with
  | .coordinator c names => .coordinator ((c.step place action).getD c) names
  | .manager m owned => .manager ((m.step (.act place action)).getD m) owned

/-- The record that a number names. -/
def record? (s : Service) (id : TransactionId) : Option Record :=
  match s with
  | .coordinator c names =>
    (names.find? fun e => e.id = id).bind fun e => c.record? e.place
  | .manager m _ => m.record? id

/-- Ask the manager for something. -/
def ask (s : Service) (task : Task) : Option (Service × Job) :=
  match s with
  | .coordinator .. => none
  | .manager m owned =>
    (m.step (.ask task)).map fun asked => (.manager asked owned, .errand m.errands.length)

/-- Ask something of a record, through the manager if there is one. -/
def request (s : Service) (id : TransactionId) (task : Task) : Option (Service × Job) :=
  match s with
  | .manager .. => s.ask task
  | .coordinator c names =>
    (names.find? fun e => e.id = id).bind fun e =>
      c.transactions[e.place]?.bind fun x =>
        task.request?.bind fun request =>
          (c.step e.place (.begin request)).map fun asked =>
            (.coordinator asked names, .operation e.place x.operations.length)

/-- The operation that runs for a job. -/
def operation? (s : Service) : Job → Option (Nat × Nat)
  | .operation place number => some (place, number)
  | .errand number =>
    match s with
    | .coordinator .. => none
    | .manager m _ =>
      match m.errand? number with
      | some (.underway _ place operation) => some (place, operation)
      | some (.expiring _ entry operation) => some (entry.place, operation)
      | _ => none

/-- The stage of the operation that runs for a job. -/
def stage? (s : Service) (job : Job) : Option Stage :=
  (s.operation? job).bind fun (place, operation) => s.base.stage? place operation

/-- The next move of an operation. -/
def driveOperation (s : Service) (now : Timestamp) (place operation : Nat) : Need :=
  match s.base.transactions[place]? with
  | none => .panicked "no such record"
  | some x =>
    match x.stage? operation with
    | none => .panicked "no such operation"
    | some (.finished answer) => .ended (.answered answer)
    | some (.panicked message) => .panicked message
    | some (.pausing _) => .pause s.base.rules.rollForward.backoff
    | some stage =>
      match stage.call? with
      | some call => .call x.record.id call
      | none =>
        if operation ∈ x.asleep then .sleep place operation
        else .moved (s.act place (.visit operation (Readings.steady now)))

/-- The next move of an errand that waits for no operation. -/
def driveErrand (m : Manager) (owned : Bool) (now : Timestamp) (number : Nat) : Need :=
  match m.errand? number with
  | some (.finished result) => .ended result
  | some (.panicked message) => .panicked message
  | some (.begun .sweep) => .moved (.manager ((m.step (.survey number now m.table)).getD m) owned)
  | _ => .moved (.manager ((m.step (.proceed number now)).getD m) owned)

/-- The next move of a job. -/
def drive (s : Service) (now : Timestamp) (job : Job) : Need :=
  match job, s with
  | .operation place number, _ => s.driveOperation now place number
  | .errand _, .coordinator .. => .panicked "no manager"
  | .errand number, .manager m owned =>
    match s.operation? job, s.stage? job with
    | some (place, operation), some stage =>
      if stage.isOver then driveErrand m owned now number
      else s.driveOperation now place operation
    | _, _ => driveErrand m owned now number

/-- The move of a job whose call has returned. -/
def hear (s : Service) (job : Job) (reply : CallReply) : Service :=
  match s.operation? job with
  | none => s
  | some (place, operation) =>
    match reply with
    | .vote reply => s.act place (.vote operation reply)
    | .combined reply => s.act place (.combinedVote operation reply)
    | .done reply => s.act place (.acknowledge operation reply)

/-- The move of a job whose pause is over. -/
def resume (s : Service) (job : Job) : Service :=
  match s.operation? job with
  | none => s
  | some (place, operation) => s.act place (.resume operation)

/-- The move of a job that has waited long enough. -/
def giveUp (s : Service) (job : Job) : Service :=
  match s.operation? job with
  | none => s
  | some (place, operation) => s.act place (.giveUp operation)

/-- Open a record under a number, which may have named another one. -/
def openRecord (s : Service) (id : TransactionId) (request : LeaseRequest) (now : Timestamp) :
    Service :=
  match s with
  | .coordinator c names =>
    let (c, place) := c.openTransaction id request now
    .coordinator c ({ id := id, place := place } :: names)
  | .manager .. => s

/-- What there is to see after a step. -/
def snapshot (s : Service) (step : Step) : Option Snapshot :=
  match step, s with
  | .openGate .., _ | _, .manager _ false => none
  | _, .manager m true => some (.manager m.metrics)
  | _, .coordinator c _ => step.id?.map fun id => .coordinator c.counts (s.record? id)

end Service

end LeasedCommit.Scenario
