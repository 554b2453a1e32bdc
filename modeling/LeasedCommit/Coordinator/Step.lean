import LeasedCommit.Coordinator.Visit

set_option autoImplicit false

/-! # Transactions and the coordinator

A `Transaction` is a record with every operation ever begun on it. `Transaction.step` makes one
move of one operation: a visit, a returned call, the end of a pause or of a patience. An
operation that has to wait goes to sleep, and the next visit that wakes the record lets all
sleepers look again.

The `Coordinator` holds many transactions under one set of rules. A step of one of them leaves
the others alone; the only thing they share are the `Totals`, which are counted in words of 64 bits
and wrap around. -/

namespace LeasedCommit

/-- What can happen to the operations of one transaction. An operation is named by its number,
counted from zero in the order in which operations begin. -/
inductive Action
  | begin (request : Request)
  /-- An operation makes its next visit. -/
  | visit (operation : Nat) (readings : Readings)
  | vote (operation : Nat) (reply : Reply Vote)
  | combinedVote (operation : Nat) (reply : Reply CombinedVote)
  /-- A commit or abort call returns. -/
  | acknowledge (operation : Nat) (reply : Reply Unit)
  /-- A pause is over. -/
  | resume (operation : Nat)
  /-- An operation that waits for a phase loses patience. Nobody gives up on a decision. -/
  | giveUp (operation : Nat)
deriving DecidableEq

/-- What the operations of a coordinator are bound by. -/
structure Rules where
  lease : LeasePolicy
  rollForward : RollForwardPolicy
deriving DecidableEq

/-- A record and the operations on it. -/
structure Transaction where
  record : Record
  /-- The operations in the order in which they began. -/
  operations : List Stage
  /-- The operations that sleep until the record changes. -/
  asleep : List Nat
deriving DecidableEq

namespace Transaction

/-- A transaction that nothing has been asked of. -/
def create (r : Record) : Transaction := { record := r, operations := [], asleep := [] }

/-- A new active transaction, whose lease is granted at `now`. -/
def opened (policy : LeasePolicy) (id : TransactionId) (request : LeaseRequest)
    (now : Timestamp) : Transaction :=
  create (Record.create id (Lease.grant policy request now) now)

/-- The stage of an operation. -/
def stage? (x : Transaction) (operation : Nat) : Option Stage := x.operations[operation]?

/-- Put an operation at a stage. -/
def put (x : Transaction) (operation : Nat) (s : Stage) : Transaction :=
  { x with operations := x.operations.set operation s }

/-- An operation makes a visit. -/
def visit (x : Transaction) (operation : Nat) (v : Visit) : Transaction :=
  let awake := if v.wakes then [] else x.asleep
  { record := v.record
    operations := x.operations.set operation v.next
    asleep :=
      match v.next with
      | .awaiting _ => operation :: awake
      | _ => awake }

/-- One move of one operation, with what it adds to the totals. Nothing for a move that cannot
happen. -/
def step (rules : Rules) (x : Transaction) : Action → Option (Transaction × OutcomeCounts)
  | .begin request =>
    some ({ x with operations := x.operations ++ [.requested request] }, .zero)
  | .visit i t =>
    if i ∈ x.asleep then none
    else (x.stage? i).bind fun s =>
      (s.visit? rules.lease x.record t).map fun v => (x.visit i v, v.counts)
  | .vote i reply =>
    (x.stage? i).bind fun s => (s.hearVote reply).map fun s => (x.put i s, .zero)
  | .combinedVote i reply =>
    (x.stage? i).bind fun s => (s.hearCombined reply).map fun s => (x.put i s, .zero)
  | .acknowledge i reply =>
    (x.stage? i).bind fun s =>
      (s.hearDone rules.rollForward x.record.id reply).map fun s => (x.put i s, .zero)
  | .resume i => (x.stage? i).bind fun s => s.resume.map fun s => (x.put i s, .zero)
  | .giveUp i =>
    match x.stage? i with
    | some (.awaiting (.phase target)) =>
      let w : Wait := .phase target
      let answer := if w.isOver x.record then w.answer x.record else .timedOut
      some ({ x.put i (.finished answer) with asleep := x.asleep.filter (· ≠ i) }, .zero)
    | _ => none

end Transaction

/-- Running totals, each in a word of 64 bits that wraps around. -/
structure Totals where
  committed : UInt64
  aborted : UInt64
  expired : UInt64
  rollForwardFailures : UInt64
deriving DecidableEq

namespace Totals

/-- Nothing counted so far. -/
def zero : Totals := { committed := 0, aborted := 0, expired := 0, rollForwardFailures := 0 }

/-- The totals after something more is counted. -/
def add (t : Totals) (a : OutcomeCounts) : Totals :=
  { committed := t.committed + UInt64.ofNat a.committed
    aborted := t.aborted + UInt64.ofNat a.aborted
    expired := t.expired + UInt64.ofNat a.expired
    rollForwardFailures := t.rollForwardFailures + UInt64.ofNat a.rollForwardFailures }

/-- The totals as they are read. -/
def read (t : Totals) : OutcomeCounts :=
  { committed := t.committed.toNat, aborted := t.aborted.toNat, expired := t.expired.toNat
    rollForwardFailures := t.rollForwardFailures.toNat }

end Totals

/-- Transactions under common rules. -/
structure Coordinator where
  rules : Rules
  /-- All transactions ever opened, also those that nobody can name any more. -/
  transactions : List Transaction
  /-- Totals since the coordinator was created. -/
  totals : Totals
deriving DecidableEq

namespace Coordinator

/-- A coordinator without transactions. -/
def create (rules : Rules) : Coordinator :=
  { rules := rules, transactions := [], totals := .zero }

/-- What the totals say. -/
def counts (c : Coordinator) : OutcomeCounts := c.totals.read

/-- Open an active transaction with a fresh lease, and give its place. -/
def openTransaction (c : Coordinator) (id : TransactionId) (request : LeaseRequest)
    (now : Timestamp) : Coordinator × Nat :=
  let transaction := Transaction.opened c.rules.lease id request now
  ({ c with transactions := c.transactions ++ [transaction] }, c.transactions.length)

/-- The record at a place. -/
def record? (c : Coordinator) (place : Nat) : Option Record :=
  c.transactions[place]?.map Transaction.record

/-- The stage of an operation on the transaction at a place. -/
def stage? (c : Coordinator) (place operation : Nat) : Option Stage :=
  c.transactions[place]?.bind fun x => x.stage? operation

/-- One move of one operation on the transaction at a place. -/
def step (c : Coordinator) (place : Nat) (action : Action) : Option Coordinator :=
  c.transactions[place]?.bind fun x => (x.step c.rules action).map fun (y, counts) =>
    { c with transactions := c.transactions.set place y, totals := c.totals.add counts }

end Coordinator

end LeasedCommit
