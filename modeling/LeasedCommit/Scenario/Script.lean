import LeasedCommit.Participant

set_option autoImplicit false

/-! # Scripted participants

A `Script` says how a participant answers: for each call a list of replies, of which the last
is kept for all later calls, and for each call what happens while it is out (`during`, in steps
of a type `σ` that the scenario chooses). An `Actor` is a participant that follows a script and
remembers the calls it received. -/

namespace LeasedCommit.Scenario

/-- Something for each kind of call. -/
structure PerVerb (α : Type) where
  prepare : α
  prepareAndCommit : α
  commit : α
  abort : α

namespace PerVerb

variable {α : Type}

/-- The same for every kind of call. -/
def all (x : α) : PerVerb α :=
  { prepare := x, prepareAndCommit := x, commit := x, abort := x }

/-- What there is for a kind of call. -/
def get (t : PerVerb α) : Verb → α
  | .prepare => t.prepare
  | .prepareAndCommit => t.prepareAndCommit
  | .commit => t.commit
  | .abort => t.abort

/-- Change what there is for one kind of call. -/
def modify (t : PerVerb α) (verb : Verb) (f : α → α) : PerVerb α :=
  match verb with
  | .prepare => { t with prepare := f t.prepare }
  | .prepareAndCommit => { t with prepareAndCommit := f t.prepareAndCommit }
  | .commit => { t with commit := f t.commit }
  | .abort => { t with abort := f t.abort }

end PerVerb

/-- How a call of any kind ended. -/
inductive CallReply
  | vote (reply : Reply Vote)
  | combined (reply : Reply CombinedVote)
  | done (reply : Reply Unit)
deriving DecidableEq

/-- The text of the panic in which a call ended. -/
def CallReply.panic? : CallReply → Option String
  | .vote (.panicked m) | .combined (.panicked m) | .done (.panicked m) => some m
  | _ => none

/-- How a participant answers. -/
structure Script (σ : Type) where
  /-- Whether the participant has a combined call of its own. -/
  combines : Bool
  prepare : List (Reply Vote)
  /-- Without replies of its own, the combined call follows those to `prepare` and `commit`. -/
  prepareAndCommit : List (Reply CombinedVote)
  commit : List (Reply Unit)
  abort : List (Reply Unit)
  /-- The gate at which calls that collect votes wait. -/
  gate : Option String
  /-- How long every call takes. -/
  latency : Duration
  /-- What happens during the first call, the second, and so on. -/
  during : PerVerb (List (List σ))

namespace Script

variable {σ : Type}

/-- Prepared for everything, at once and quietly. -/
def agreeable : Script σ :=
  { combines := true, prepare := [.returned (.answered .prepared)], prepareAndCommit := []
    commit := [.returned (.answered ())], abort := [.returned (.answered ())], gate := none
    latency := Duration.zero, during := PerVerb.all [] }

/-- The reply to call number `k` from zero. -/
def pick {α : Type} (replies : List (Reply α)) (k : Nat) : Reply α :=
  (replies[min k (replies.length - 1)]?).getD (.panicked "no reply is scripted")

/-- The reply to call number `k` of a kind. -/
def reply (s : Script σ) (verb : Verb) (k : Nat) : CallReply :=
  match verb with
  | .prepare => .vote (pick s.prepare k)
  | .commit => .done (pick s.commit k)
  | .abort => .done (pick s.abort k)
  | .prepareAndCommit =>
    if s.prepareAndCommit.isEmpty then
      match Exchange.afterVote (pick s.prepare k) with
      | .inl _ => .combined (Exchange.afterCommit (pick s.commit k))
      | .inr reply => .combined reply
    else .combined (pick s.prepareAndCommit k)

/-- The gate at which a call waits. -/
def gate? (s : Script σ) : Verb → Option String
  | .prepare | .prepareAndCommit => s.gate
  | .commit | .abort => none

end Script

/-- A participant that follows a script. -/
structure Actor (σ : Type) where
  name : String
  script : Script σ
  /-- How many calls have begun since the script was set. -/
  begun : PerVerb Nat
  /-- The calls received, the latest first. -/
  received : List (TransactionId × Verb)
  /-- Transactions that were committed inside the combined call. -/
  committed : List TransactionId

namespace Actor

variable {σ : Type}

/-- An actor that has not been called. -/
def create (name : String) (script : Script σ) : Actor σ :=
  { name := name, script := script, begun := PerVerb.all 0, received := [], committed := [] }

/-- Follow another script from its beginning. -/
def follow (a : Actor σ) (script : Script σ) : Actor σ :=
  { a with script := script, begun := PerVerb.all 0 }

/-- A call begins. -/
def beginCall (a : Actor σ) (verb : Verb) : Actor σ :=
  { a with begun := a.begun.modify verb (· + 1) }

/-- A call is received. -/
def receive (a : Actor σ) (id : TransactionId) (verb : Verb) : Actor σ :=
  { a with received := (id, verb) :: a.received }

/-- A call is answered. -/
def answer (a : Actor σ) (id : TransactionId) (reply : CallReply) : Actor σ :=
  if reply = .combined (.returned (.answered .committed)) then
    { a with committed := id :: a.committed }
  else a

/-- The calls received for a transaction, in order. -/
def callsFor (a : Actor σ) (id : TransactionId) : List Verb :=
  (a.received.filter fun call => call.1 = id).reverse.map Prod.snd

/-- How many decisions a participant was given for a transaction. -/
def decisionsFor (a : Actor σ) (id : TransactionId) : Nat :=
  let calls := a.callsFor id
  calls.count .commit + calls.count .abort + a.committed.count id

end Actor

end LeasedCommit.Scenario
