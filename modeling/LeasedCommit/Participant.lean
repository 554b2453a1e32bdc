import LeasedCommit.Transaction.Error

set_option autoImplicit false

/-! # Participants

A participant is a party outside the library that answers four calls. Two of them collect
votes (`prepare`, `prepareAndCommit`), two deliver a decision (`commit`, `abort`). A call may
also fail, or end in a panic that unwinds through its caller.

A party without a combined call of its own is asked to prepare and, if it is prepared, told to
commit. `Exchange` is that conversation, one call at a time, because other work can happen
between its two calls. -/

namespace LeasedCommit

/-- The calls that reach a participant. -/
inductive Verb
  | prepare
  | prepareAndCommit
  | commit
  | abort
deriving DecidableEq

/-- The answer to `prepare`. -/
inductive Vote
  /-- The participant can commit and waits for the decision. -/
  | prepared
  /-- The participant has aborted its part. -/
  | abort
deriving DecidableEq

/-- The answer to `prepareAndCommit`. -/
inductive CombinedVote
  /-- The participant has committed its part. -/
  | committed
  /-- The participant has aborted its part. -/
  | abort
deriving DecidableEq

/-- What a call returns. -/
inductive Response (α : Type)
  | answered (answer : α)
  | failed (error : ParticipantError)
deriving DecidableEq

/-- How a call ends. -/
inductive Reply (α : Type)
  | returned (response : Response α)
  | panicked (message : String)
deriving DecidableEq

/-- A party that can join transactions. Two handles are the same party iff they are equal. -/
structure Participant where
  key : Nat
  /-- Whether the party answers `prepareAndCommit` itself. -/
  combines : Bool
deriving DecidableEq

/-- The calls that make up one combined request to a party. -/
inductive Exchange
  /-- The party's own combined call. -/
  | combined
  /-- Asking for the vote first. -/
  | voting
  /-- Telling the party to commit after a prepared vote. -/
  | committing
deriving DecidableEq

namespace Exchange

/-- How the combined request to a party begins. -/
def first (p : Participant) : Exchange := if p.combines then .combined else .voting

/-- The call that is made now. -/
def verb : Exchange → Verb
  | .combined => .prepareAndCommit
  | .voting => .prepare
  | .committing => .commit

/-- What follows an answered vote: the call to commit, or the end of the exchange. -/
def afterVote : Reply Vote → Exchange ⊕ Reply CombinedVote
  | .returned (.answered .prepared) => .inl .committing
  | .returned (.answered .abort) => .inr (.returned (.answered .abort))
  | .returned (.failed error) => .inr (.returned (.failed error))
  | .panicked message => .inr (.panicked message)

/-- The end of an exchange whose commit call returned. -/
def afterCommit : Reply Unit → Reply CombinedVote
  | .returned (.answered ()) => .returned (.answered .committed)
  | .returned (.failed error) => .returned (.failed error)
  | .panicked message => .panicked message

end Exchange

end LeasedCommit
