import LeasedCommit.Scenario.World

set_option autoImplicit false

/-! # Running a scenario

`World.tick` lets one thread make one move; `Scenario.run` schedules the threads until the
first one, which has the steps of the scenario, has ended. A thread keeps the turn until it is
blocked; then the first thread that can go on gets it, and if there is none, time passes until
a deadline. A panic unwinds a thread up to the step that it is in. -/

namespace LeasedCommit.Scenario

namespace World

/-- A thread together with the world around it, during a move. -/
abbrev Move := World × Thread

/-! ## Steps -/

/-- The answer of a step with a finding. A sweep visits transactions in no particular order, so its
calls are listed by transaction. -/
def answerOf (w : World) (step : Step) (log : List (CallEntry StepAnswer))
    (finding : Finding StepAnswer) : StepAnswer :=
  let log :=
    match step with
    | .sweep => log.reverse.mergeSort fun a b => a.id.value ≤ b.id.value
    | _ => log.reverse
  .mk finding log (w.service.snapshot step)

/-- A step ends with a finding, after the end of the sweeper if it has to wait for that. -/
def finishStep (w : World) (t : Thread) (step : Step) (log : List (CallEntry StepAnswer))
    (finding : Finding StepAnswer) : Move :=
  match w.sweeperToAwait? t step with
  | some k => (w, (t.become (.step step log (.leaving finding)) .go).await (.threadEnd k))
  | none =>
    let answer := w.answerOf step log finding
    if t.frames.tail.isEmpty then (w, t.finish [answer]) else (w, t.pop (.answer answer))

/-- What a step finds whose job has ended. -/
def found : Result → Finding StepAnswer
  | .created id expiration => .created { id := id, expiration := expiration }
  | .answered answer => .answered answer
  | .report report => .report report
  | .swept stats => .swept stats

/-- What a step finds whose call has returned. -/
def heard (reply : CallReply) : Finding StepAnswer :=
  match reply.panic? with
  | some message => .panicked message
  | none => .replied reply

/-- The deadline of a wait that begins now. -/
def deadline (w : World) (timeout : Option Duration) : Option Nat :=
  timeout.map fun d => w.time + d.nanos

/-- A step waits for a job, or finds nothing if there can be no such job. -/
def runJob (w : World) (t : Thread) (step : Step) (log : List (CallEntry StepAnswer))
    (progress : Progress) (timeout : Option Duration) (job : Option (Service × Job)) : Move :=
  match job with
  | none => w.finishStep t step log .nothing
  | some (service, job) =>
    ({ w with service := service },
      (t.become (.step step log progress) .go).push (.job job (w.deadline timeout)))

/-- Call an actor. -/
def callActor (w : World) (t : Thread) (p : Participant) (id : TransactionId) (verb : Verb) :
    Move :=
  match w.actors[p.key]? with
  | none => (w, { t with signal := .panicked "no such participant" })
  | some actor =>
    let number := actor.begun.get verb
    let steps := ((actor.script.during.get verb)[number]?).getD []
    let call : PendingCall :=
      { actor := p.key, id := id, verb := verb, number := number, script := actor.script
        during := [], point := .during }
    (w.modifyActor p.key fun a => a.beginCall verb, (t.push (.call call)).push (.steps steps []))

/-- The next participant of many joins. -/
def joinNext (w : World) (t : Thread) (step : Step) (log : List (CallEntry StepAnswer))
    (id : TransactionId) (count : Nat) (stem : String) (script : Script Step) (next : Nat)
    (last : Finding StepAnswer) : Move :=
  if next < count then
    let name := stem ++ toString next
    let w := w.introduce name script
    match w.participant? name with
    | none => w.finishStep t step log .nothing
    | some p => w.runJob t step log (.joining (next + 1)) none (w.service.request id (.join id p))
  else w.finishStep t step log last

/-- The next of many transactions is created. -/
def createNext (w : World) (t : Thread) (step : Step) (log : List (CallEntry StepAnswer))
    (request : LeaseRequest) (left : Nat) : Move :=
  match left with
  | 0 => w.finishStep t step log .nothing
  | left + 1 => w.runJob t step log (.creating left) none (w.service.ask (.create request))

/-- A step goes on with a lease handle, if its manager exists. -/
def runLease (w : World) (t : Thread) (step : Step) (log : List (CallEntry StepAnswer))
    (progress : Progress) (h : LeaseHandle) (task : Task) : Move :=
  if w.hasManager then w.runJob t step log progress none (w.service.ask task)
  else w.finishStep t step log (.answered h.orphaned)

/-- How long a scenario waits for calls and for the background sweeper. -/
def patience : Duration := Duration.ofSecs 5

/-- A step begins. -/
def beginStep (w : World) (t : Thread) (step : Step) (log : List (CallEntry StepAnswer)) : Move :=
  let now := w.clock.reading
  let finish (w : World) (finding : Finding StepAnswer) : Move := w.finishStep t step log finding
  let waitFor (inTime late : Finding StepAnswer) (b : Block) : Move :=
    (w, (t.become (.step step log (.waiting inTime late)) .go).await b)
  let request (id : TransactionId) (task : Task) : Move :=
    w.runJob t step log .running none (w.service.request id task)
  match step with
  | .introduce name script => finish (w.introduce name script) .nothing
  | .rescript name script =>
    match w.names.lookup name with
    | none => finish w .nothing
    | some key => finish (w.modifyActor key fun a => a.follow script) .nothing
  | .call name id verb =>
    match w.participant? name with
    | none => finish w .nothing
    | some p =>
      match verb with
      | .prepareAndCommit =>
        let exchange := Exchange.first p
        w.callActor (t.become (.step step log (.asking p exchange)) .go) p id exchange.verb
      | verb => w.callActor (t.become (.step step log .running) .go) p id verb
  | .callsFor name id =>
    match (w.names.lookup name).bind fun key => w.actors[key]? with
    | none => finish w .nothing
    | some actor => finish w (.calls (actor.callsFor id) (actor.decisionsFor id))
  | .allCalls name =>
    match (w.names.lookup name).bind fun key => w.actors[key]? with
    | none => finish w .nothing
    | some actor =>
      finish w (.allCalls name
        (actor.received.reverse.mergeSort fun a b => a.1.value ≤ b.1.value))
  | .awaitCalls name count =>
    match w.names.lookup name with
    | none => finish w (.flag false)
    | some key =>
      waitFor (.flag true) (.flag false) (.calls key count (w.time + patience.nanos))
  | .join id name =>
    match w.participant? name with
    | none => finish w .nothing
    | some p => request id (.join id p)
  | .joinMany id count stem script => w.joinNext t step log id count stem script 0 .nothing
  | .commit id => request id (.commit id)
  | .abort id => request id (.abort id)
  | .renew id length => request id (.renew id length)
  | .cancel id => request id (.cancel id)
  | .phase id =>
    match w.service with
    | .manager .. => request id (.phase id)
    | .coordinator .. =>
      finish w ((w.service.record? id).elim .nothing fun r => .answered (.reached r.phase))
  | .awaitPhase id target timeout =>
    w.runJob t step log .running timeout
      (w.service.request id (.awaitPhase id target (timeout.getD Duration.longest)))
  | .report id =>
    match w.service with
    | .manager .. => request id (.report id)
    | .coordinator .. => finish w (.report ((w.service.record? id).bind Record.report))
  | .advance span =>
    let clock := w.clock.advance span
    finish { w with clock := clock } (.instant clock.reading)
  | .setClock instant =>
    let clock := w.clock.set instant
    finish { w with clock := clock } (.instant clock.reading)
  | .create length count => w.createNext t step log length count
  | .sweep => w.runJob t step log .running none (w.service.ask .sweep)
  | .metrics =>
    match w.service with
    | .manager m _ => finish w (.metrics m.metrics)
    | .coordinator .. => finish w .nothing
  | .renewLease name length =>
    match w.leases.lookup name with
    | none => finish w .nothing
    | some h => w.runLease t step log (.renewing name) h (h.renew length)
  | .cancelLease name =>
    match w.leases.lookup name with
    | none => finish w .nothing
    | some h => w.runLease t step log .running h h.cancel
  | .inspectLease name =>
    finish w ((w.leases.lookup name).elim .nothing fun h => .lease h w.hasManager)
  | .cloneLease name copy =>
    match w.leases.lookup name with
    | none => finish w .nothing
    | some h => finish (w.setLease copy h) .nothing
  | .dropManager =>
    match w.service with
    | .manager m _ => finish { w with service := .manager m false } .nothing
    | .coordinator .. => finish w .nothing
  | .awaitTracked count =>
    waitFor (.flag true) (.flag false) (.tracked count (w.time + patience.nanos))
  | .openRecord id length =>
    finish { w with service := w.service.openRecord id length now } (.opened id now)
  | .expire id => request id (.phase id)
  | .evictable id at' retention =>
    finish w ((w.service.record? id).elim .nothing fun r => .flag (r.isEvictable at' retention))
  | .startCommit id name awaited =>
    let (w, k) := w.spawn name (Thread.start (.step (.commit id) [] .fresh))
    match awaited with
    | some arrivals =>
      (w, (t.become (.step step log (.waiting .arrived .nothing)) .go).await (.arrivals arrivals))
    | none => (w, (t.become (.step step log (.starting k)) .go).await (.threadRest k))
  | .startWait id target timeout name =>
    let (w, _) := w.spawn name (Thread.start (.step (.awaitPhase id target timeout) [] .fresh))
    finish w .nothing
  | .openGate name awaited =>
    let w := w.setGate name (w.gate name).opened
    match awaited with
    | some arrivals =>
      (w, (t.become (.step step log (.waiting .arrived .nothing)) .go).await (.arrivals arrivals))
    | none => finish w .nothing
  | .collect name =>
    match w.threadNames.lookup name with
    | none => finish w .nothing
    | some k => (w, (t.become (.step step log (.collecting k)) .go).await (.threadEnd k))

/-- A step goes on. -/
def goOnStep (w : World) (t : Thread) (step : Step) (log : List (CallEntry StepAnswer))
    (progress : Progress) (signal : Signal) : Move :=
  let finish (finding : Finding StepAnswer) : Move := w.finishStep t step log finding
  match progress, signal with
  | .fresh, _ => w.beginStep t step log
  | _, .panicked message => finish (.panicked message)
  | .running, .ended result => finish (found result)
  | .running, .reply reply => finish (heard reply)
  | .renewing name, .ended (.answered answer) =>
    let w := (w.leases.lookup name).elim w fun h => w.setLease name (h.told answer)
    w.finishStep t step log (.answered answer)
  | .joining next, .ended result =>
    match step with
    | .joinMany id count stem script =>
      w.joinNext t step log id count stem script next (found result)
    | _ => finish .nothing
  | .creating left, .ended (.created id expiration) =>
    let handle : LeaseHandle := { id := id, expiration := expiration }
    let w := w.setLease (toString id.value) handle
    match step, left with
    | .create request _, left + 1 => w.createNext t step log request (left + 1)
    | _, _ => w.finishStep t step log (.created handle)
  | .asking p .voting, .reply (.vote reply) =>
    match Exchange.afterVote reply with
    | .inr reply => finish (heard (.combined reply))
    | .inl exchange =>
      match step with
      | .call _ id _ =>
        w.callActor (t.become (.step step log (.asking p exchange)) .go) p id exchange.verb
      | _ => finish .nothing
  | .asking _ .committing, .reply (.done reply) =>
    finish (heard (.combined (Exchange.afterCommit reply)))
  | .asking _ .combined, .reply reply => finish (heard reply)
  | .leaving finding, _ => finish finding
  | .waiting inTime late, signal =>
    match signal with
    | .late => finish late
    | _ => finish inTime
  | .starting k, _ =>
    finish (if w.threads[k]?.any fun t => t.outcome.isSome then .ended else .waiting)
  | .collecting k, _ =>
    match w.threads[k]?.bind Thread.outcome with
    | some (answer :: _) => finish (.collected answer.finding answer.log)
    | _ => finish .nothing
  | _, _ => finish .nothing

/-! ## Jobs and calls -/

/-- A job goes on. -/
def goOnJob (w : World) (t : Thread) (job : Job) (deadline : Option Nat) (signal : Signal) :
    Move :=
  let again := t.become (.job job deadline) .go
  match signal with
  | .reply reply => ({ w with service := w.service.hear job reply }, again)
  | .late => ({ w with service := w.service.giveUp job }, again)
  | .woken => ({ w with service := w.service.resume job }, again)
  | _ =>
    match w.service.drive w.clock.reading job with
    | .moved service => ({ w with service := service }, again)
    | .call id call => w.callActor again call.participant id call.verb
    | .sleep place operation => (w, again.await (.wake place operation deadline))
    | .pause span => (w, again.await (.time (w.time + span.nanos)))
    | .ended result => (w, t.pop (.ended result))
    | .panicked message => (w, t.pop (.panicked message))

/-- A call goes on: after its steps it is received, waits at its gate, takes its time, and is
answered. -/
def goOnCall (w : World) (t : Thread) (call : PendingCall) (signal : Signal) : Move :=
  let become (call : PendingCall) : Thread := t.become (.call call) .go
  match call.point, signal with
  | .during, .answers answers =>
    let w := w.modifyActor call.actor fun a => a.receive call.id call.verb
    let t := become { call with during := answers, point := .received }
    match call.script.gate? call.verb with
    | none => (w, t)
    | some name => (w.setGate name (w.gate name).arrive, t.await (.gate name))
  | .during, _ => (w, t.pop (.answers []))
  | .received, _ =>
    let t := become { call with point := .admitted }
    if call.script.latency.nanos = 0 then (w, t)
    else (w, t.await (.time (w.time + call.script.latency.nanos)))
  | .admitted, _ =>
    let reply := call.script.reply call.verb call.number
    let name := (w.actors[call.actor]?).elim "" Actor.name
    let entry : CallEntry StepAnswer :=
      { name := name, id := call.id, verb := call.verb, reply := reply, during := call.during }
    (w.modifyActor call.actor fun a => a.answer call.id reply, (t.pop (.reply reply)).record entry)

/-! ## Threads -/

/-- One move of a thread. -/
def move (w : World) (t : Thread) : Move :=
  match t.frames with
  | [] => (w, t.finish [])
  | .steps [] answers :: rest =>
    if rest.isEmpty then (w, t.finish answers.reverse) else (w, t.pop (.answers answers.reverse))
  | .steps (step :: left) answers :: _ =>
    match t.signal with
    | .answer answer => (w, t.become (.steps left (answer :: answers)) .go)
    | _ => (w, t.push (.step step [] .fresh))
  | .step step log progress :: _ => w.goOnStep t step log progress t.signal
  | .job job deadline :: _ => w.goOnJob t job deadline t.signal
  | .call call :: _ => w.goOnCall t call t.signal
  | .sweeper interval :: _ =>
    match t.signal with
    | .woken =>
      if w.isManagerHeld then
        match w.service.ask .sweep with
        | some (service, job) => ({ w with service := service }, t.push (.job job none))
        | none => (w, t.finish [])
      else (w, t.finish [])
    | .panicked _ => (w, t.finish [])
    | _ => (w, t.await (.sweepTime (w.time + interval.nanos)))

/-- One move of the thread with a number, which can move. -/
def tick (w : World) (k : Nat) : World :=
  match w.threads[k]? with
  | none => w
  | some t =>
    let t :=
      match t.block.bind w.release? with
      | some signal => { t with block := none, signal := signal }
      | none => t
    let (w, t) := w.move t
    { w with threads := w.threads.set! k t }

/-- Whether a thread can move. -/
def canMove (w : World) (t : Thread) : Bool :=
  t.outcome.isNone &&
    match t.block with
    | none => true
    | some b => (w.release? b).isSome

/-- The thread that gets the turn: the one that has it, if it can move, or the first that can. -/
def turn? (w : World) (current : Nat) : Option Nat :=
  if w.threads[current]?.any w.canMove then some current else w.threads.findIdx? w.canMove

/-- The next time at which a blocked thread can go on by itself. -/
def nextDeadline? (w : World) : Option Nat :=
  (w.threads.filterMap fun t => if t.outcome.isSome then none else t.block.bind Block.deadline?).foldl
    (fun least d => some (least.elim d (min d))) none

/-- The answers of the first thread; those that it has so far, if it has not ended. -/
def answers (w : World) : List StepAnswer :=
  match w.threads[0]? with
  | none => []
  | some t =>
    match t.outcome, t.frames.getLast? with
    | some answers, _ => answers
    | none, some (.steps _ answers) => answers.reverse
    | none, _ => []

/-- Let the threads make at most so many moves. -/
def run : Nat → Nat → World → World
  | 0, _, w => w
  | fuel + 1, current, w =>
    if w.threads[0]?.any fun t => t.outcome.isSome then w
    else
      match w.turn? current with
      | some k => run fuel k (w.tick k)
      | none =>
        match w.nextDeadline? with
        | some time => run fuel 0 { w with time := max time w.time }
        | none => w

end World

/-- More moves than a scenario makes. -/
def moveLimit : Nat := 5000000

/-- The answers of a scenario on a service whose clock shows `start` at first. -/
def run (service : Service) (start : Timestamp) (steps : List Step) : List StepAnswer :=
  (World.run moveLimit 0 (World.create service start steps)).answers

end LeasedCommit.Scenario
