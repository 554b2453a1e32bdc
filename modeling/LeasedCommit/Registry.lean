import LeasedCommit.Participant

set_option autoImplicit false

/-! # The participants of one transaction

A `Registry` holds a slot for every join, in join order. A slot knows how far its participant
is in the protocol, so that a participant is asked at most once and then settled at most once,
and never while the question is still open. Joining stops when the registry is frozen. -/

namespace LeasedCommit

/-- How a participant was settled. -/
inductive Settlement
  /-- It was told to commit. -/
  | commit
  /-- It was told to abort. -/
  | abort
  /-- It committed inside the combined call. -/
  | committedInPrepare
  /-- It voted to abort and has rolled itself back. -/
  | selfAborted
deriving DecidableEq

/-- How far a participant is in the protocol. -/
inductive Progress
  /-- Nothing has been sent to it. -/
  | joined
  /-- It has been asked and has not answered. -/
  | preparing
  /-- It is prepared and waits for the decision. -/
  | prepared
  /-- The question failed; its state is unknown. -/
  | unresolved
  /-- No further calls will be made. -/
  | settled (how : Settlement)
deriving DecidableEq

namespace Progress

/-- Whether a deciding call may be made now. -/
def acceptsDecision : Progress → Bool
  | .joined | .prepared | .unresolved => true
  | .preparing | .settled _ => false

/-- Whether no further calls will be made. -/
def isSettled : Progress → Bool
  | .settled _ => true
  | _ => false

end Progress

/-- One join. -/
structure Slot where
  participant : Participant
  progress : Progress
deriving DecidableEq

/-- A participant together with its position in join order. -/
structure Claim where
  position : Nat
  participant : Participant
deriving DecidableEq

/-- The participants of one transaction in join order. -/
structure Registry where
  slots : List Slot
  frozen : Bool
deriving DecidableEq

namespace Registry

/-- No participants, open for joins. -/
def empty : Registry := { slots := [], frozen := false }

/-- The number of joins. -/
def size (r : Registry) : Nat := r.slots.length

/-- Add a slot at the end and give its position, unless the registry is frozen. A participant
that joins twice has two slots. -/
def join? (r : Registry) (p : Participant) : Option (Registry × Nat) :=
  if r.frozen then none
  else some ({ r with slots := r.slots ++ [{ participant := p, progress := .joined }] }, r.size)

/-- Accept no further joins. -/
def freeze (r : Registry) : Registry := { r with frozen := true }

/-- How far the participant at a position is. -/
def progress? (r : Registry) (i : Nat) : Option Progress := r.slots[i]?.map Slot.progress

/-- Set the progress of the slot at a position. -/
def setProgress (r : Registry) (i : Nat) (p : Progress) : Registry :=
  { r with slots := r.slots.modify i fun s => { s with progress := p } }

/-- Mark the participant at a position as asked and give its handle. Only a slot to which
nothing was sent can be asked. -/
def ask? (r : Registry) (i : Nat) : Option (Registry × Participant) :=
  match r.slots[i]? with
  | some { participant, progress := .joined } => some (r.setProgress i .preparing, participant)
  | _ => none

/-- Record what the open question at a position led to. Any other slot is left alone. -/
def resolve (r : Registry) (i : Nat) (p : Progress) : Registry :=
  if r.progress? i = some .preparing then r.setProgress i p else r

/-- Settle the participant at a position and give its handle, unless it is settled or its
question is open. -/
def claim? (r : Registry) (i : Nat) (how : Settlement) : Option (Registry × Participant) :=
  match r.slots[i]? with
  | some slot =>
    if slot.progress.acceptsDecision then
      some (r.setProgress i (.settled how), slot.participant)
    else none
  | none => none

/-- The participants that can be settled now, in join order. -/
def claimable (r : Registry) : List Claim :=
  r.slots.zipIdx.filterMap fun (slot, i) =>
    if slot.progress.acceptsDecision then some { position := i, participant := slot.participant }
    else none

/-- Settle every participant that can be settled now, and give them in join order. -/
def claimAll (r : Registry) (how : Settlement) : Registry × List Claim :=
  let settle (s : Slot) : Slot :=
    if s.progress.acceptsDecision then { s with progress := .settled how } else s
  ({ r with slots := r.slots.map settle }, r.claimable)

/-- The positions that were told to commit, in join order. -/
def toldToCommit (r : Registry) : List Nat :=
  r.slots.zipIdx.filterMap fun (slot, i) =>
    if slot.progress = .settled .commit then some i else none

/-- Whether some question is open. -/
def hasOpenQuestion (r : Registry) : Bool := r.slots.any fun s => s.progress == .preparing

/-- Whether every participant is settled. -/
def isSettled (r : Registry) : Bool := r.slots.all fun s => s.progress.isSettled

end Registry

end LeasedCommit
