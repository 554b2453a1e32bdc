import LeasedCommit.Coordinator.Operation

set_option autoImplicit false

/-! # Visits to a record

`Stage.visit?` is what an operation does in one undisturbed visit: it reads the clock up to
three times, changes the record, and leaves with its next stage. A visit also says what it
adds to the coordinator's totals and whether it wakes those who wait for the record.

Two rules carry the protocol. The first decision wins: whoever finds the record decided takes
that decision (`Record.decide`). And a lapsed lease aborts an undecided record on sight
(`Record.expire?`), also at the moment of the decision itself. -/

namespace LeasedCommit

/-- The clock readings of one visit, in the order in which they are taken. -/
structure Readings where
  first : Timestamp
  second : Timestamp
  third : Timestamp
deriving DecidableEq

/-- Readings of a clock that stands still. -/
def Readings.steady (now : Timestamp) : Readings := { first := now, second := now, third := now }

/-- How many transactions were decided, and how many commits could not be delivered. -/
structure OutcomeCounts where
  committed : Nat
  aborted : Nat
  /-- Aborts because of a lapsed lease. -/
  expired : Nat
  rollForwardFailures : Nat
deriving DecidableEq

namespace OutcomeCounts

/-- Nothing counted. -/
def zero : OutcomeCounts :=
  { committed := 0, aborted := 0, expired := 0, rollForwardFailures := 0 }

/-- Two counts together. -/
def add (a b : OutcomeCounts) : OutcomeCounts :=
  { committed := a.committed + b.committed, aborted := a.aborted + b.aborted
    expired := a.expired + b.expired
    rollForwardFailures := a.rollForwardFailures + b.rollForwardFailures }

/-- One transaction committed. -/
def commit : OutcomeCounts := { zero with committed := 1 }

/-- One transaction aborted for a cause. -/
def abort (cause : AbortCause) : OutcomeCounts :=
  { zero with aborted := 1, expired := if cause = .leaseExpired then 1 else 0 }

/-- Commits that could not be delivered. -/
def undelivered (n : Nat) : OutcomeCounts := { zero with rollForwardFailures := n }

end OutcomeCounts

/-- The outcome of a visit. -/
structure Visit where
  record : Record
  /-- What the visit adds to the totals. -/
  counts : OutcomeCounts
  /-- Whether it wakes everybody who waits for the record. -/
  wakes : Bool
  next : Stage
deriving DecidableEq

namespace Record

/-! ## Aborting and deciding -/

/-- An abort made during a visit: the record after it, and the participants to be told. -/
structure Abort where
  record : Record
  counts : OutcomeCounts
  wakes : Bool
  owed : List Claim
deriving DecidableEq

/-- Abort for `cause`, and claim every participant that can be told now. One whose question is
open is left to the operation that asked. -/
def abortFor (r : Record) (cause : AbortCause) (now : Timestamp) : Abort :=
  match r.move? .aborted now with
  -- a decision stands
  | none => { record := r, counts := .zero, wakes := false, owed := [] }
  | some moved =>
    let (registry, owed) := moved.registry.claimAll .abort
    { record := { moved with abortCause := some cause, registry := registry }
      counts := .abort cause, wakes := true, owed := owed }

/-- The abort of an undecided record whose lease has lapsed. -/
def expire? (r : Record) (t : Readings) : Option Abort :=
  if r.phase.isTerminal || !r.lease.hasLapsed t.first then none
  else some ({ r with lease := r.lease.markExpired }.abortFor .leaseExpired t.second)

/-- A decision met or made during a visit. -/
structure Decision where
  record : Record
  counts : OutcomeCounts
  wakes : Bool
  outcome : Outcome
deriving DecidableEq

/-- The decision that a record has already taken. -/
def decisionMet (r : Record) : Decision :=
  -- only an abort can come between a vote and its decision
  { record := r, counts := .zero, wakes := false, outcome := r.phase.outcome?.getD .aborted }

/-- Decide to abort, unless the record is decided. -/
def decideAbort (r : Record) (cause : AbortCause) (now : Timestamp) : Decision :=
  if r.phase = .voting then
    { record := { r.moved .aborted now with abortCause := some cause }
      counts := .abort cause, wakes := true, outcome := .aborted }
  else r.decisionMet

/-- Decide to commit, unless the record is decided or its lease has lapsed. -/
def decideCommit (r : Record) (t : Readings) : Decision :=
  if r.phase = .voting then
    if r.lease.hasLapsed t.first then
      { r with lease := r.lease.markExpired }.decideAbort .leaseExpired t.second
    else
      { record := r.moved .committed t.first, counts := .commit, wakes := true
        outcome := .committed }
  else r.decisionMet

/-! ## The visits -/

/-- Leave the record as it is. -/
def leave (r : Record) (next : Stage) : Visit :=
  { record := r, counts := .zero, wakes := false, next := next }

/-- Leave with a refusal. -/
def refuse (r : Record) (error : TransactionError) : Visit := r.leave (.finished (.refused error))

/-- Leave after an abort, deliver it, and then answer. -/
def Abort.visit (a : Abort) (answer : Answer) : Visit :=
  { record := a.record, counts := a.counts, wakes := a.wakes
    next := .deliverAborts false a.owed answer }

/-- Leave after a decision. -/
def Decision.visit (d : Decision) : Visit :=
  { record := d.record, counts := d.counts, wakes := d.wakes, next := .afterDecision d.outcome }

/-- A participant joins an active record. -/
def join (r : Record) (p : Participant) (t : Readings) : Visit :=
  match r.expire? t with
  | some abort => abort.visit (.refused (.cannotJoin r.id abort.record.phase))
  | none =>
    if r.phase ≠ .active then r.refuse (.cannotJoin r.id r.phase)
    else
      match r.registry.join? p with
      | some (registry, position) =>
        { r with registry := registry }.leave (.finished (.joined position))
      | none => r.refuse (.cannotJoin r.id r.phase)

/-- The first question of a vote among `count` participants. -/
def firstQuestion : Nat → Stage
  | 0 => .deciding
  | 1 => .askingSole
  | count => .asking 0 count

/-- A commit opens the vote, or waits for the one that is open. -/
def openVote (r : Record) (t : Readings) : Visit :=
  match r.expire? t with
  | some abort => abort.visit (.refused (.cannotCommit r.id .leaseExpired))
  | none =>
    match r.phase with
    | .active =>
      let moved := r.moved .voting t.second
      { record := { moved with registry := moved.registry.freeze }, counts := .zero, wakes := true
        next := firstQuestion moved.registry.size }
    | .voting => r.leave (.awaiting .decision)
    | .committed => r.refuse (.notModifiable r.id .committed)
    | .aborted => r.refuse r.cannotCommit

/-- An abort is accepted until the record commits. -/
def abort (r : Record) (t : Readings) : Visit :=
  match r.phase with
  | .aborted => r.leave (.finished .done)
  | .committed => r.refuse (.cannotAbort r.id .committed)
  | .active | .voting =>
    if r.lease.hasLapsed t.first then
      ({ r with lease := r.lease.markExpired }.abortFor .leaseExpired t.second).visit .done
    else (r.abortFor .requested t.second).visit .done

/-- A lease is renewed while the record is undecided and the lease valid. -/
def renew (r : Record) (policy : LeasePolicy) (request : LeaseRequest) (t : Readings) : Visit :=
  match r.expire? t with
  | some abort => abort.visit (.refused (.unknownLease r.id))
  | none =>
    if r.phase.isTerminal then r.refuse (.unknownLease r.id)
    else
      match r.lease.renew policy request t.second with
      | (some expiration, lease) =>
        { r with lease := lease }.leave (.finished (.renewed expiration))
      | (none, lease) => { r with lease := lease }.refuse (.unknownLease r.id)

/-- Giving up the lease of an undecided record aborts it. -/
def cancel (r : Record) (t : Readings) : Visit :=
  match r.expire? t with
  | some abort => abort.visit (.refused (.unknownLease r.id))
  | none =>
    if r.phase.isTerminal then r.refuse (.unknownLease r.id)
    else
      match r.lease.cancel t.second with
      | (true, lease) => ({ r with lease := lease }.abortFor .leaseCancelled t.third).visit .done
      | (false, lease) => { r with lease := lease }.refuse (.unknownLease r.id)

/-- A lapsed lease aborts an undecided record. -/
def expire (r : Record) (t : Readings) : Visit :=
  match r.expire? t with
  | some abort => abort.visit (.expired true)
  | none => r.leave (.finished (.expired false))

/-- Mark the only slot as asked. -/
def askSole (r : Record) (t : Readings) : Visit :=
  if r.phase ≠ .voting then r.leave .abandoning
  else
    match r.registry.ask? 0 with
    | some (registry, p) =>
      { r with registry := registry }.leave (.solePending p (Exchange.first p))
    -- out of reach: only an abort sends anything to the slot before it is asked
    | none => (r.decideAbort .requested t.first).visit

/-- Mark a slot as asked. -/
def askSlot (r : Record) (index count : Nat) : Visit :=
  if r.phase ≠ .voting then r.leave .abandoning
  else
    match r.registry.ask? index with
    | some (registry, p) => { r with registry := registry }.leave (.votePending index count p)
    -- a slot that cannot be asked is passed over
    | none => r.leave (.ask (index + 1) count)

/-- Record that slot `index` has answered. -/
def resolved (r : Record) (index : Nat) (p : Progress) : Record :=
  { r with registry := r.registry.resolve index p }

/-- The only participant has answered. One that has committed after an abort is owed the abort
like one that is prepared. -/
def countSole (r : Record) (vote : Response CombinedVote) (t : Readings) : Visit :=
  match vote with
  | .answered .committed =>
    let decision := r.decideCommit t
    let progress : Progress :=
      match decision.outcome with
      | .committed => .settled .committedInPrepare
      | .aborted => .prepared
    { decision with record := decision.record.resolved 0 progress }.visit
  | .answered .abort =>
    ((r.resolved 0 (.settled .selfAborted)).decideAbort (.votedAbort 0) t.first).visit
  | .failed error =>
    ((r.resolved 0 .unresolved).decideAbort (.prepareFailed 0 error) t.first).visit

/-- One of several participants has answered. -/
def countVote (r : Record) (index count : Nat) (vote : Response Vote)
    (t : Readings) : Visit :=
  match vote with
  | .answered .prepared => (r.resolved index .prepared).leave (.ask (index + 1) count)
  | .answered .abort =>
    ((r.resolved index (.settled .selfAborted)).decideAbort (.votedAbort index) t.first).visit
  | .failed error =>
    ((r.resolved index .unresolved).decideAbort (.prepareFailed index error) t.first).visit

/-- Claim everybody who is to be told to commit. -/
def rollForward (r : Record) : Visit :=
  let (registry, owed) := r.registry.claimAll .commit
  { r with registry := registry }.leave (.deliverCommits r.id r.registry.size owed [])

/-- File the report. -/
def file (r : Record) (report : CommitReport) : Visit :=
  { record := { r with report := some report }, counts := .undelivered report.failures.length
    wakes := true, next := .finished (.committed report) }

/-- Claim everybody who is still to be told to abort. -/
def abandon (r : Record) : Visit :=
  let (registry, owed) := r.registry.claimAll .abort
  { r with registry := registry }.leave (.deliverAborts true owed (.refused r.cannotCommit))

/-- The failure filed for a commit that was not confirmed when the roll-forward broke off. -/
def unconfirmed (position : Nat) : CommitFailure :=
  { position := position, error := .communication "roll-forward interrupted", attempts := 0 }

/-- Settle a record whose vote or roll-forward broke off. Nobody is called. -/
def settleInterrupted (r : Record) (message : String) (t : Readings) : Visit :=
  match r.phase, r.report with
  | .voting, _ =>
    { record := { r.moved .aborted t.first with abortCause := some .interrupted }
      counts := .abort .interrupted, wakes := true, next := .panicked message }
  | .committed, none =>
    let failures := r.registry.toldToCommit.map unconfirmed
    let report : CommitReport :=
      { id := r.id, participants := r.registry.size, failures := failures }
    { record := { r with report := some report }, counts := .undelivered failures.length
      wakes := true, next := .panicked message }
  -- an abort came first, or the report is there
  | _, _ => r.leave (.panicked message)

end Record

/-! ## Waiting -/

namespace Wait

/-- Whether the wait can end. -/
def isOver (w : Wait) (r : Record) : Bool :=
  match w with
  | .decision => r.phase == .aborted || r.report.isSome
  | .phase target => r.phase.settlesWaitFor target

/-- What the waiting operation answers once its wait is over. -/
def answer (w : Wait) (r : Record) : Answer :=
  match w with
  | .decision =>
    match r.phase, r.report with
    | .committed, some report => .committed report
    | _, _ => .refused r.cannotCommit
  | .phase _ => .reached r.phase

/-- Look at the record and go on waiting or not. -/
def look (w : Wait) (r : Record) : Visit :=
  r.leave (if w.isOver r then .finished (w.answer r) else .awaiting w)

end Wait

/-! ## All visits -/

/-- The next visit of an operation, if it is not waiting for a participant or over. -/
def Stage.visit? (policy : LeasePolicy) (r : Record) (t : Readings) : Stage → Option Visit
  | .requested (.join p) => some (r.join p t)
  | .requested .commit => some (r.openVote t)
  | .requested .abort => some (r.abort t)
  | .requested (.renew request) => some (r.renew policy request t)
  | .requested .cancel => some (r.cancel t)
  | .requested .expire => some (r.expire t)
  | .requested (.awaitPhase target) => some (Wait.look (.phase target) r)
  | .awaiting w => some (w.look r)
  | .asking index count => some (r.askSlot index count)
  | .voteHeard index count vote => some (r.countVote index count vote t)
  | .askingSole => some (r.askSole t)
  | .soleHeard vote => some (r.countSole vote t)
  | .deciding => some (r.decideCommit t).visit
  | .rollingForward => some r.rollForward
  | .reporting report => some (r.file report)
  | .abandoning => some r.abandon
  | .unwinding message => some (r.settleInterrupted message t)
  | .votePending .. | .solePending .. | .commitPending _ | .pausing _ | .abortPending ..
  | .finished _ | .panicked _ => none

end LeasedCommit
