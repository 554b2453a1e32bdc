set_option autoImplicit false

/-! # Identity and phase of a transaction

A transaction is `active` while parties join, `voting` while they are asked, and then
`committed` or `aborted` for good. `Phase.canBecome` lists the four legal moves. -/

namespace LeasedCommit

/-- The number of a transaction. One manager hands out each number once. -/
structure TransactionId where
  value : UInt64
deriving DecidableEq

/-- The text of a transaction number. -/
def TransactionId.shown (id : TransactionId) : String := "txn:" ++ toString id.value

/-- The decision of a transaction. -/
inductive Outcome
  | committed
  | aborted
deriving DecidableEq

/-- Where a transaction is in its life. -/
inductive Phase
  /-- Parties may join; nobody has asked for a decision. -/
  | active
  /-- Votes are being collected. -/
  | voting
  | committed
  | aborted
deriving DecidableEq

namespace Phase

/-- Whether the phase is a decision. -/
def isTerminal : Phase → Bool
  | .committed | .aborted => true
  | .active | .voting => false

/-- How far a phase is on the way to a decision. The two decisions are equally far. -/
def rank : Phase → Nat
  | .active => 0
  | .voting => 1
  | .committed | .aborted => 2

/-- Whether `next` may follow a phase directly. -/
def canBecome : Phase → Phase → Bool
  | .active, .voting | .active, .aborted | .voting, .committed | .voting, .aborted => true
  | _, _ => false

/-- Whether a transaction in this phase is at or past `target`. A decision is reached only by
that decision. -/
def hasReached (p target : Phase) : Bool :=
  if target.isTerminal then p == target else target.rank ≤ p.rank

/-- Whether somebody waiting for `target` can stop waiting: it is reached, or the decision is
made and it never will be. -/
def settlesWaitFor (p target : Phase) : Bool := p.hasReached target || p.isTerminal

/-- The decision that a phase stands for. -/
def outcome? : Phase → Option Outcome
  | .committed => some .committed
  | .aborted => some .aborted
  | .active | .voting => none

/-- The text of a phase. -/
def shown : Phase → String
  | .active => "ACTIVE"
  | .voting => "VOTING"
  | .committed => "COMMITTED"
  | .aborted => "ABORTED"

end Phase

namespace Outcome

/-- The phase in which a decision leaves a transaction. -/
def phase : Outcome → Phase
  | .committed => .committed
  | .aborted => .aborted

/-- A decision is shown as its phase. -/
def shown (o : Outcome) : String := o.phase.shown

end Outcome

end LeasedCommit
