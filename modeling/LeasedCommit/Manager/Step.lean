import LeasedCommit.Manager.Errand

set_option autoImplicit false

/-! # The manager

A `Manager` numbers transactions, keeps them in a table, and runs errands on them. A decided
transaction stays in the table for the retention time and is then evicted by a sweep; after
that its number is unknown. The transactions themselves are the coordinator's, so operations
that began before an eviction are not disturbed by it.

`Manager.step` makes one move of one errand, or one move of an operation that an errand
runs. -/

namespace LeasedCommit

/-- What can happen to a manager. An errand is named by its number in the order of asking. -/
inductive Move
  | ask (task : Task)
  /-- An errand goes on. `now` is what the clock shows if the errand reads it. -/
  | proceed (errand : Nat) (now : Timestamp)
  /-- A sweep reads the clock and the table. The table has no order of its own, so any order of
  its entries may come up. -/
  | survey (errand : Nat) (now : Timestamp) (order : List Entry)
  /-- An operation on the transaction at a place makes a move. -/
  | act (place : Nat) (action : Action)
deriving DecidableEq

/-- Transactions by number, and the errands on them. -/
structure Manager where
  config : Config
  coordinator : Coordinator
  table : List Entry
  /-- The number of the next transaction. -/
  nextId : UInt64
  /-- How many transactions were created, in a word that wraps around like every total. -/
  created : UInt64
  /-- How many were evicted by sweeps that have ended. -/
  evicted : UInt64
  errands : List Errand
deriving DecidableEq

/-- A summary of what a manager has done. The totals are below `2 ^ 64`. -/
structure Metrics where
  /-- Transactions without a decision. -/
  active : Nat
  /-- Transactions in the table. -/
  tracked : Nat
  created : Nat
  committed : Nat
  aborted : Nat
  /-- Aborts because of a lapsed lease. -/
  expired : Nat
  evicted : Nat
  rollForwardFailures : Nat
deriving DecidableEq

namespace Metrics

/-- Transactions with a decision, as a number of 64 bits. -/
def completed (m : Metrics) : Nat := (m.committed + m.aborted) % UInt64.size

/-- The share of aborted transactions among the created ones; zero if there are none. -/
def abortRate (m : Metrics) : Float :=
  if m.created = 0 then 0 else Float.ofNat m.aborted / Float.ofNat m.created

end Metrics

namespace Manager

/-- A manager without transactions. -/
def create (config : Config) : Manager :=
  { config := config, coordinator := Coordinator.create config.rules, table := [], nextId := 1
    created := 0, evicted := 0, errands := [] }

/-- A manager with the given settings, if they can be used. -/
def ofConfig (config : Config) : Except TransactionError Manager := config.validate.map create

/-- The entry of a number. -/
def entry? (m : Manager) (id : TransactionId) : Option Entry :=
  m.table.find? fun entry => entry.id = id

/-- The record of a number. -/
def record? (m : Manager) (id : TransactionId) : Option Record :=
  (m.entry? id).bind fun entry => m.coordinator.record? entry.place

/-- The errand with a number. -/
def errand? (m : Manager) (errand : Nat) : Option Errand := m.errands[errand]?

/-- Put an errand where it stands now. -/
def put (m : Manager) (errand : Nat) (e : Errand) : Manager :=
  { m with errands := m.errands.set errand e }

/-- Name a transaction in the table. -/
def insert (m : Manager) (entry : Entry) : Manager :=
  { m with table := m.table.filter (fun e => e.id ≠ entry.id) ++ [entry] }

/-- Take a number out of the table if its transaction is past its retention. -/
def evict? (m : Manager) (id : TransactionId) (now : Timestamp) : Option Manager :=
  match m.record? id with
  | some record =>
    if record.isEvictable now m.config.retention then
      some { m with table := m.table.filter fun e => e.id ≠ id }
    else none
  | none => none

/-- Begin an operation on the transaction at a place. -/
def begin? (m : Manager) (place : Nat) (request : Request) : Option (Manager × Nat) :=
  m.coordinator.transactions[place]?.bind fun x =>
    (m.coordinator.step place (.begin request)).map fun c =>
      ({ m with coordinator := c }, x.operations.length)

/-- The result of a task whose operation has ended. -/
def conclude (m : Manager) (task : Task) (place : Nat) (answer : Answer) : Result :=
  match task, answer with
  | .phase _, _ =>
    .answered ((m.coordinator.record? place).elim answer fun record => .reached record.phase)
  | .awaitPhase id _ timeout, .timedOut => .refused (.timeout id timeout)
  | _, _ => .answered answer

/-- A task looks up its transaction and begins its operation. -/
def lookUp (m : Manager) (errand : Nat) (task : Task) (id : TransactionId) : Option Manager :=
  match m.entry? id with
  | none => some (m.put errand (.finished (.refused (task.unknown id))))
  | some entry =>
    match task.request? with
    | none => some (m.put errand (.reading entry.place))
    | some request =>
      (m.begin? entry.place request).map fun (m, operation) =>
        m.put errand (.underway task entry.place operation)

/-- An errand makes its next move. Nothing if it is over or waits for an operation. -/
def proceed (m : Manager) (errand : Nat) (now : Timestamp) : Errand → Option Manager
  | .begun (.create request) =>
    let id : TransactionId := ⟨m.nextId⟩
    let (c, place) := m.coordinator.openTransaction id request now
    some ({ m with coordinator := c, nextId := m.nextId + 1 }.put errand
      (.storing { id := id, place := place }))
  | .begun .sweep => none
  | .begun task => task.id?.bind fun id => m.lookUp errand task id
  | .underway task place operation =>
    match m.coordinator.stage? place operation with
    | some (.finished answer) =>
      some (m.put errand (.finished (m.conclude task place answer)))
    | some (.panicked message) => some (m.put errand (.panicked message))
    | _ => none
  | .reading place =>
    (m.coordinator.record? place).map fun record =>
      m.put errand (.finished (.report record.report))
  | .storing entry =>
    (m.coordinator.record? entry.place).map fun record =>
      (m.insert entry).put errand (.counting entry.id record.lease.expiration)
  | .counting id expiration =>
    some ({ m with created := m.created + 1 }.put errand (.finished (.created id expiration)))
  | .sweeping sweep =>
    match sweep.rest with
    | [] =>
      some ({ m with evicted := m.evicted + UInt64.ofNat sweep.stats.evicted }.put errand
        (.finished (.swept sweep.stats)))
    | entry :: rest =>
      (m.begin? entry.place .expire).map fun (m, operation) =>
        m.put errand (.expiring { sweep with rest := rest } entry operation)
  | .expiring sweep entry operation =>
    match m.coordinator.stage? entry.place operation with
    | some (.finished (.expired true)) => some (m.put errand (.sweeping sweep.expireOne))
    | some (.finished _) =>
      match m.evict? entry.id sweep.now with
      | some m => some (m.put errand (.sweeping sweep.evictOne))
      | none => some (m.put errand (.sweeping sweep))
    | some (.panicked message) => some (m.put errand (.panicked message))
    | _ => none
  | .finished _ | .panicked _ => none

/-- One move. Nothing for a move that cannot happen. -/
def step (m : Manager) : Move → Option Manager
  | .ask task => some { m with errands := m.errands ++ [.begun task] }
  | .proceed errand now => (m.errand? errand).bind fun e => m.proceed errand now e
  | .survey errand now order =>
    match m.errand? errand with
    | some (.begun .sweep) =>
      if order.isPerm m.table then
        some (m.put errand
          (.sweeping { now := now, rest := order, stats := { expired := 0, evicted := 0 } }))
      else none
    | _ => none
  | .act _ (.begin _) => none
  | .act place action => (m.coordinator.step place action).map fun c => { m with coordinator := c }

/-- The number of transactions in the table that have no decision. -/
def activeCount (m : Manager) : Nat :=
  m.table.countP fun entry =>
    (m.coordinator.record? entry.place).any fun record => !record.phase.isTerminal

/-- What the manager has done so far. -/
def metrics (m : Manager) : Metrics :=
  let counts := m.coordinator.counts
  { active := m.activeCount, tracked := m.table.length, created := m.created.toNat
    committed := counts.committed, aborted := counts.aborted, expired := counts.expired
    evicted := m.evicted.toNat, rollForwardFailures := counts.rollForwardFailures }

end Manager

end LeasedCommit
