import LeasedCommit.Scenario.Gate
import LeasedCommit.Scenario.Service
import LeasedCommit.Time.Clock

set_option autoImplicit false

/-! # The world of a scenario

The `World` holds the service with its clock, the actors, gates and lease handles, and the
threads. A thread is a stack of `Frame`s: a list of steps, the step at work, the job that the
step waits for, the call that the job has out, the steps that run during that call, and so on.
A thread runs until it is blocked; time passes only while all threads are blocked.

A manager is held by its owner and by every step that works on it. The last one to let go of it
stops the background sweeper, which ends after the sweep that it is in. Leases do not hold the
manager, but it exists as long as it is held or has an errand to end. -/

namespace LeasedCommit.Scenario

/-- How far a step is. -/
inductive Progress
  | fresh
  /-- It waits for a job or a call whose outcome is its finding. -/
  | running
  /-- It waits for a renewal through a lease handle. -/
  | renewing (lease : String)
  /-- The participants below a number have joined or are joining. -/
  | joining (next : Nat)
  /-- So many transactions are still to be created. -/
  | creating (left : Nat)
  /-- It makes a combined request to an actor. -/
  | asking (participant : Participant) (exchange : Exchange)
  /-- It is blocked, and finds one thing or another when that ends in time or late. -/
  | waiting (inTime late : Finding StepAnswer)
  /-- It has started a thread and waits until that waits or ends. -/
  | starting (thread : Nat)
  /-- It waits for the end of a thread. -/
  | collecting (thread : Nat)
  /-- It has let go of the manager as the last one, and waits for the end of the sweeper. -/
  | leaving (finding : Finding StepAnswer)

/-- How far a call is. -/
inductive CallPoint
  /-- The steps of the call are running. -/
  | during
  /-- It has been received and waits at its gate. -/
  | received
  /-- It has passed its gate and takes its time. -/
  | admitted

/-- A call that an actor is busy with. -/
structure PendingCall where
  actor : Nat
  id : TransactionId
  verb : Verb
  /-- The number of the call since the script was set. -/
  number : Nat
  script : Script Step
  during : List StepAnswer
  point : CallPoint

/-- One level of what a thread is doing. -/
inductive Frame
  /-- Steps to do, and the answers of those done, the latest first. -/
  | steps (rest : List Step) (answers : List StepAnswer)
  /-- A step, and the calls that it has made, the latest first. -/
  | step (step : Step) (log : List (CallEntry StepAnswer)) (progress : Progress)
  /-- A job, and when it gives up waiting. -/
  | job (job : Job) (deadline : Option Nat)
  | call (call : PendingCall)
  /-- Sweeping the table again and again. -/
  | sweeper (interval : Duration)

/-- Whether a thread holds the manager by being at this level. -/
def Frame.holdsManager : Frame → Bool
  | .step _ _ (.leaving _) => false
  | .step working _ _ => working.usesManager
  | _ => false

/-- Whether a thread waits at this level for the manager to end an errand. -/
def Frame.awaitsErrand : Frame → Bool
  | .job (.errand _) _ => true
  | _ => false

/-- What a blocked thread waits for. -/
inductive Block
  /-- A time. -/
  | time (t : Nat)
  /-- The time of the next sweep, or that nobody holds the manager. -/
  | sweepTime (t : Nat)
  /-- An open gate. -/
  | gate (name : String)
  | arrivals (awaited : Arrivals)
  /-- The end of an operation's sleep. -/
  | wake (place operation : Nat) (deadline : Option Nat)
  | threadEnd (thread : Nat)
  /-- The end of a thread, or that it waits for somebody else's decision. -/
  | threadRest (thread : Nat)
  | calls (actor count deadline : Nat)
  | tracked (count deadline : Nat)

/-- What the level above hands down to a frame. -/
inductive Signal
  | go
  /-- A block has ended. -/
  | woken
  /-- A block has ended by its deadline. -/
  | late
  | answers (answers : List StepAnswer)
  | answer (answer : StepAnswer)
  | reply (reply : CallReply)
  | ended (result : Result)
  | panicked (message : String)

/-- A thread. -/
structure Thread where
  frames : List Frame
  signal : Signal
  block : Option Block
  /-- Its answers, once it has ended. -/
  outcome : Option (List StepAnswer)

/-- When a block ends at the latest, if there is such a time. -/
def Block.deadline? : Block → Option Nat
  | .time t | .sweepTime t => some t
  | .wake _ _ deadline => deadline
  | .calls _ _ deadline | .tracked _ deadline => some deadline
  | .gate _ | .arrivals _ | .threadEnd _ | .threadRest _ => none

namespace Thread

/-- Whether this is the thread of the background sweeper. -/
def isSweeper (t : Thread) : Bool :=
  match t.frames.getLast? with
  | some (.sweeper _) => true
  | _ => false

/-- A thread that starts with one frame. -/
def start (frame : Frame) : Thread :=
  { frames := [frame], signal := .go, block := none, outcome := none }

/-- Begin a new level. -/
def push (t : Thread) (frame : Frame) : Thread :=
  { t with frames := frame :: t.frames, signal := .go }

/-- Go on at the level at work, changed to `frame`. -/
def become (t : Thread) (frame : Frame) (signal : Signal) : Thread :=
  { t with frames := frame :: t.frames.tail, signal := signal }

/-- Wait at the level at work. -/
def await (t : Thread) (block : Block) : Thread := { t with block := some block }

/-- Leave the level at work, with a signal for the one below. -/
def pop (t : Thread) (signal : Signal) : Thread :=
  { t with frames := t.frames.tail, signal := signal }

/-- End the thread. -/
def finish (t : Thread) (answers : List StepAnswer) : Thread :=
  { t with frames := [], outcome := some answers }

/-- Add a call to the log of the innermost step. -/
def record (t : Thread) (entry : CallEntry StepAnswer) : Thread :=
  let rec add : List Frame → List Frame
    | [] => []
    | .step step log progress :: rest => .step step (entry :: log) progress :: rest
    | frame :: rest => frame :: add rest
  { t with frames := add t.frames }

end Thread

/-- Everything there is in a scenario. -/
structure World where
  service : Service
  clock : ManualClock
  /-- Nanoseconds since the scenario began. -/
  time : Nat
  actors : Array (Actor Step)
  /-- Which actor a name stands for, the latest first. -/
  names : List (String × Nat)
  gates : List (String × Gate)
  leases : List (String × LeaseHandle)
  threads : Array Thread
  threadNames : List (String × Nat)

namespace World

/-- A world with one thread that has steps to do, and with a background thread if the manager
sweeps by itself. -/
def create (service : Service) (start : Timestamp) (steps : List Step) : World :=
  let interval :=
    match service with
    | .manager m _ => m.config.sweepInterval?
    | .coordinator .. => none
  let sweeper (interval : Duration) : Thread :=
    { Thread.start (.sweeper interval) with block := some (.sweepTime interval.nanos) }
  { service := service, clock := ⟨start⟩, time := 0, actors := #[], names := [], gates := []
    leases := [], threadNames := []
    threads := #[Thread.start (.steps steps [])] ++ interval.toArray.map sweeper }

/-- The gate of a name; every gate is closed at first. -/
def gate (w : World) (name : String) : Gate := (w.gates.lookup name).getD Gate.closed

/-- Change the gate of a name. -/
def setGate (w : World) (name : String) (g : Gate) : World :=
  { w with gates := (name, g) :: w.gates.filter fun e => e.1 ≠ name }

/-- Change the lease handle of a name. -/
def setLease (w : World) (name : String) (h : LeaseHandle) : World :=
  { w with leases := (name, h) :: w.leases.filter fun e => e.1 ≠ name }

/-- Bring an actor onto the stage. -/
def introduce (w : World) (name : String) (script : Script Step) : World :=
  { w with
    actors := w.actors.push (Actor.create name script)
    names := (name, w.actors.size) :: w.names }

/-- The participant that an actor of a name is now. -/
def participant? (w : World) (name : String) : Option Participant :=
  (w.names.lookup name).bind fun key =>
    w.actors[key]?.map fun actor => { key := key, combines := actor.script.combines }

/-- Change an actor. -/
def modifyActor (w : World) (key : Nat) (f : Actor Step → Actor Step) : World :=
  { w with actors := w.actors.modify key f }

/-- Add a thread. -/
def spawn (w : World) (name : String) (t : Thread) : World × Nat :=
  ({ w with
      threads := w.threads.push t
      threadNames := (name, w.threads.size) :: w.threadNames }, w.threads.size)

/-- Whether a thread waits for the decision of a commit that is not its own. -/
def awaitsDecision (w : World) (t : Thread) : Bool :=
  match t.block with
  | some (.wake place operation _) =>
    w.service.base.stage? place operation == some (.awaiting .decision)
  | _ => false

/-- How many transactions the table holds. -/
def tracked (w : World) : Nat :=
  match w.service with
  | .manager m _ => m.table.length
  | .coordinator _ names => names.length

/-- How many steps hold the manager. -/
def holders (w : World) : Nat :=
  w.threads.foldl (fun n t => n + t.frames.countP Frame.holdsManager) 0

/-- Whether somebody holds the manager. -/
def isManagerHeld (w : World) : Bool :=
  match w.service with
  | .manager _ owned => owned || w.holders != 0
  | .coordinator .. => false

/-- Whether the manager exists. -/
def hasManager (w : World) : Bool :=
  w.isManagerHeld || w.threads.any fun t => t.frames.any Frame.awaitsErrand

/-- The sweeper for whose end a thread waits when it ends a step: if this is the last step that
holds the manager, and not one of the sweeper's own thread. -/
def sweeperToAwait? (w : World) (t : Thread) (step : Step) : Option Nat :=
  match w.service with
  | .manager _ false =>
    if step.usesManager && w.holders == 1 && !t.isSweeper then
      w.threads.findIdx? Thread.isSweeper
    else none
  | _ => none

/-- Whether an operation sleeps. -/
def isAsleep (w : World) (place operation : Nat) : Bool :=
  w.service.base.transactions[place]?.any fun x => operation ∈ x.asleep

/-- The end of a block, if it has come. -/
def release? (w : World) (b : Block) : Option Signal :=
  let byDeadline (deadline : Option Nat) : Option Signal :=
    deadline.bind fun d => if d ≤ w.time then some .late else none
  match b with
  | .time t => if t ≤ w.time then some .woken else none
  | .sweepTime t => if t ≤ w.time || !w.isManagerHeld then some .woken else none
  | .gate name => if (w.gate name).isOpen then some .woken else none
  | .arrivals a => if a.count ≤ (w.gate a.gate).arrived then some .woken else none
  | .wake place operation deadline =>
    if w.isAsleep place operation then byDeadline deadline else some .woken
  | .threadEnd k => if w.threads[k]?.any fun t => t.outcome.isSome then some .woken else none
  | .threadRest k =>
    if w.threads[k]?.any fun t => t.outcome.isSome || w.awaitsDecision t then some .woken else none
  | .calls actor count deadline =>
    if w.actors[actor]?.any fun a => count ≤ a.received.length then some .woken
    else byDeadline (some deadline)
  | .tracked count deadline =>
    if w.tracked = count then some .woken else byDeadline (some deadline)

end World

end LeasedCommit.Scenario
