import LeasedCommit.Proofs.Run

set_option autoImplicit false

/-! # Two-phase commit as a script

What a commit calls and answers when nothing comes in its way, written down without records,
slots and stages. A `Script` is a program that makes calls one after the other; its state is what
has passed so far. The parties reply as they like (`Replies`), but every call returns.

`twoPhase` is the script of a commit among given parties. The loops in it, `poll`, `abortEach`
and `commitEach`, go through the slots in join order. -/

namespace LeasedCommit

/-- The end of the exchange with a party that is told to commit after its vote. -/
def Response.confirmed : Response Unit → Response CombinedVote
  | .answered () => .answered .committed
  | .failed error => .failed error

/-- How the parties reply to the calls of one operation. A reply may depend on everything that has
passed before it. -/
structure Replies where
  vote : List Event → Nat → Response Vote
  combined : List Event → Response CombinedVote
  told : List Event → Nat → Verb → Response Unit

namespace Replies

/-- The reply of the only party to the combined request, from where the exchange stands. -/
def sole (ρ : Replies) (past : List Event) : Exchange → Response CombinedVote
  | .combined => ρ.combined past
  | .voting =>
    match ρ.vote past 0 with
    | .answered .prepared => (ρ.told past 0 .commit).confirmed
    | .answered .abort => .answered .abort
    | .failed error => .failed error
  | .committing => (ρ.told past 0 .commit).confirmed

/-- A call comes back with the reply of the party. -/
def Gives (ρ : Replies) (past : List Event) (c : Call) : Action → Prop
  | .vote _ reply => reply = .returned (ρ.vote past c.position)
  | .combinedVote _ reply => reply = .returned (ρ.combined past)
  | .acknowledge _ reply => reply = .returned (ρ.told past c.position c.verb)
  | .begin _ | .visit .. | .resume _ | .giveUp _ => True

end Replies

/-- A program that makes calls. Its state is what has passed so far. -/
abbrev Script (α : Type) := StateM (List Event) α

namespace Script

/-- A call goes out. -/
def call (position : Nat) (verb : Verb) : Script Unit :=
  modify fun past => past ++ [.called position verb]

/-- A call comes back. -/
def receive {α : Type} (reply : List Event → α) (event : α → Event) : Script α := do
  let past ← get
  set (past ++ [event (reply past)])
  return reply past

theorem run_bind {α β : Type} (first : Script α) (next : α → Script β) (past : List Event) :
    (first >>= next).run past = (next (first.run past).1).run (first.run past).2 := rfl

theorem run_pure {α : Type} (a : α) (past : List Event) :
    (pure a : Script α).run past = (a, past) := rfl

theorem run_receive_bind {α β : Type} (reply : List Event → α) (event : α → Event)
    (next : α → Script β) (past : List Event) :
    (receive reply event >>= next).run past =
      (next (reply past)).run (past ++ [event (reply past)]) := rfl

variable (ρ : Replies)

/-- The vote of a slot comes in. -/
def receiveVote (position : Nat) : Script (Response Vote) :=
  receive (ρ.vote · position) fun vote => .voted position (.returned vote)

/-- The combined request to the only slot comes back. -/
def receiveSole (exchange : Exchange) : Script (Response CombinedVote) :=
  receive (ρ.sole · exchange) fun vote => .soleVoted (.returned vote)

/-- A commit or abort call comes back. -/
def receiveDone (position : Nat) (verb : Verb) : Script (Response Unit) :=
  receive (ρ.told · position verb) fun response => .told position verb (.returned response)

end Script

/-- Why the vote of a slot does not allow a commit, if it does not. -/
def Response.refusal? (position : Nat) : Response Vote → Option AbortCause
  | .answered .prepared => none
  | .answered .abort => some (.votedAbort position)
  | .failed error => some (.prepareFailed position error)

namespace Script

section Phases

variable (ρ : Replies)

/-! ## The first phase -/

/-- Ask the next `left` slots, from `position` on, up to the first refusal. -/
def poll (position : Nat) : Nat → Script (Option AbortCause)
  | 0 => return none
  | left + 1 => do
    call position .prepare
    match (← receiveVote ρ position).refusal? position with
    | some cause => return some cause
    | none => poll (position + 1) left

/-! ## The second phase -/

/-- Tell slots to abort. What they reply does not matter. -/
def abortEach : List Nat → Script Unit
  | [] => return ()
  | position :: rest => do
    call position .abort
    let _ ← receiveDone ρ position .abort
    abortEach rest

/-- Commit call number `attempt` to a slot is out. If it is lost it is repeated, at most `left`
times. -/
def confirm (position attempt : Nat) : Nat → Script (Option CommitFailure)
  | 0 => do
    match ← receiveDone ρ position .commit with
    | .answered () => return none
    | .failed error => return some ⟨position, error, .ofNat attempt⟩
  | left + 1 => do
    match ← receiveDone ρ position .commit with
    | .answered () => return none
    | .failed (.protocol message) => return some ⟨position, .protocol message, .ofNat attempt⟩
    | .failed (.communication _) =>
      call position .commit
      confirm position (attempt + 1) left

/-- Tell slots to commit, each of them with that many repetitions, and list those that could not
be told. -/
def commitEach (retries : Nat) : List Nat → Script (List CommitFailure)
  | [] => return []
  | position :: rest => do
    call position .commit
    let failure ← confirm ρ position 1 retries
    let failures ← commitEach retries rest
    return failure.toList ++ failures

/-! ## Both phases -/

variable (retries : Nat) (id : TransactionId)

/-- Carry out the decision among `count` slots: abort for a cause, or commit. A slot that has voted
to abort is not told. -/
def conclude (count : Nat) : Option AbortCause → Script Answer
  | some cause => do
    abortEach ρ ((List.range count).filter fun position => cause ≠ .votedAbort position)
    return .refused (.cannotCommit id cause)
  | none => do
    let failures ← commitEach ρ retries (List.range count)
    return .committed { id := id, participants := count, failures := failures }

/-- Carry out what the only party has answered. If it has committed, nothing is left to do. -/
def concludeSole : Response CombinedVote → Script Answer
  | .answered .committed => return .committed { id := id, participants := 1, failures := [] }
  | .answered .abort => conclude ρ retries id 1 (some (.votedAbort 0))
  | .failed error => conclude ρ retries id 1 (some (.prepareFailed 0 error))

/-- **Two-phase commit** among parties: nothing to do for nobody, one combined request to a single
party, and otherwise a vote and the delivery of its outcome. -/
def twoPhase : List Participant → Script Answer
  | [] => return .committed { id := id, participants := 0, failures := [] }
  | [p] => do
    call 0 .prepareAndCommit
    concludeSole ρ retries id (← receiveSole ρ (Exchange.first p))
  | parties => do conclude ρ retries id parties.length (← poll ρ 0 parties.length)

theorem twoPhase_of_several {parties : List Participant} {n : Nat}
    (h : parties.length = n + 2) :
    twoPhase ρ retries id parties = (do
      conclude ρ retries id (n + 2) (← poll ρ 0 (n + 2))) := by
  match parties, h with
  | p :: q :: rest, h => rw [← h]; rfl

end Phases

end Script

end LeasedCommit
