import LeasedCommit.Coordinator.Step
import LeasedCommit.Proofs.Slots
import Mathlib.Tactic.Simps.Basic

set_option autoImplicit false

/-! # What records and operations look like between two visits

`Record.Shape` is what holds of a record on its own, and `Stage.Fits` is what an operation may
rely on when it stands at a stage. Both are invariants of every run; this file only states
them, together with the equations that say what a decision does to a record.

* `Stage.leads` marks the stages of the operation that has opened the vote;
* `Answer.TrueOf` says that an answer is borne out by the record;
* `Request.Admits` says which answers a request can get. -/

namespace LeasedCommit

/-! ## Answers -/

/-- What an answer says about the record, if it says anything that lasts. -/
def Answer.TrueOf (r : Record) : Answer → Prop
  | .committed report => r.phase = .committed ∧ r.report = some report
  | .done => r.phase = .aborted
  | .expired aborted => aborted = true → r.phase = .aborted
  | .reached phase => phase.isTerminal = true → r.phase = phase
  | .joined _ | .renewed _ | .timedOut => True
  | .refused (.cannotJoin id phase) =>
    id = r.id ∧ phase ≠ .active ∧ (phase.isTerminal = true → r.phase = phase)
  | .refused (.cannotCommit id cause) =>
    id = r.id ∧ r.phase = .aborted ∧ r.abortCause = some cause
  | .refused (.cannotAbort id outcome) =>
    id = r.id ∧ outcome = .committed ∧ r.phase = .committed
  | .refused (.notModifiable id phase) =>
    id = r.id ∧ phase = .committed ∧ r.phase = .committed
  | .refused (.unknownLease id) => id = r.id
  | .refused _ => False

/-- The position that an answer grants. -/
def Answer.joined? : Answer → Option Nat
  | .joined position => some position
  | _ => none

/-- The answers that a request can get. -/
def Request.Admits : Request → Answer → Prop
  | .join _, .joined _ | .join _, .refused (.cannotJoin ..) => True
  | .commit, .committed _ | .commit, .refused (.cannotCommit ..)
  | .commit, .refused (.notModifiable ..) => True
  | .abort, .done | .abort, .refused (.cannotAbort ..) => True
  | .renew _, .renewed _ | .renew _, .refused (.unknownLease _) => True
  | .cancel, .done | .cancel, .refused (.unknownLease _) => True
  | .expire, .expired _ => True
  | .awaitPhase _, .reached _ | .awaitPhase _, .timedOut => True
  | _, _ => False

/-- The request that leads to a wait. -/
def Wait.request : Wait → Request
  | .decision => .commit
  | .phase target => .awaitPhase target

/-! ## Records -/

/-- The slots below `k` are prepared, slot `k` is as said, and nothing was sent to the slots
above. -/
def Registry.PolledTo (g : Registry) (k : Nat) (here : Progress) : Prop :=
  ∀ i p, g.progress? i = some p →
    p = if i < k then .prepared else if i = k then here else .joined

/-- Nobody has committed or been told to commit, and one slot at most has an open question. -/
def Registry.Uncommitted (g : Registry) : Prop :=
  ∃ k, ∀ i p, g.progress? i = some p →
    p ≠ .settled .commit ∧ p ≠ .settled .committedInPrepare ∧ (p = .preparing → i = k)

namespace Record

/-- The record with another registry. -/
@[simps] def withRegistry (r : Record) (g : Registry) : Record := { r with registry := g }

/-- The record aborted for `cause`, with what has become of its lease. -/
@[simps] def aborted (r : Record) (lease : Lease) (cause : AbortCause) (now : Timestamp) : Record :=
  { r with
    phase := .aborted, registry := r.registry.freeze, lease := lease, abortCause := some cause
    settledAt := some now }

/-- The record committed at `now`. -/
@[simps] def committed (r : Record) (now : Timestamp) : Record :=
  { r with phase := .committed, registry := r.registry.freeze, settledAt := some now }

/-- The record whose vote is open. -/
@[simps] def voting (r : Record) : Record :=
  { r with phase := .voting, registry := r.registry.freeze }

/-- The report of a roll-forward that broke off: nobody who was told to commit has confirmed. -/
def interruptedReport (r : Record) : CommitReport :=
  { id := r.id, participants := r.registry.size
    failures := r.registry.toldToCommit.map unconfirmed }

/-- Slot `k` is next in the vote, unless the record has been aborted. -/
def Polls (r : Record) (k : Nat) (here : Progress) : Prop :=
  r.phase = .aborted ∨ (r.phase = .voting ∧ r.registry.PolledTo k here)

/-- What holds of a record between two visits. -/
structure Shape (r : Record) : Prop where
  cause : r.abortCause.isSome = true ↔ r.phase = .aborted
  settledAt : r.settledAt.isSome = true ↔ r.phase.isTerminal = true
  report : ∀ report, r.report = some report →
    r.phase = .committed ∧ report.id = r.id ∧ report.participants = r.registry.size
  frozen : r.registry.frozen = true ↔ r.phase ≠ .active
  active : r.phase = .active → ∀ i p, r.registry.progress? i = some p → p = .joined
  voting : r.phase = .voting → ∃ k here, (here = .joined ∨ here = .preparing) ∧
    r.registry.PolledTo k here
  committed : r.phase = .committed → ∀ i p, r.registry.progress? i = some p →
    p = .prepared ∨ p = .settled .commit ∨ (p = .settled .committedInPrepare ∧ r.registry.size = 1)
  aborted : r.phase = .aborted → r.registry.Uncommitted

end Record

/-! ## Stages -/

namespace Stage

/-- Whether an operation has opened the vote and is not through with it. -/
def leads : Stage → Bool
  | .asking .. | .votePending .. | .voteHeard .. | .askingSole | .solePending .. | .soleHeard _
  | .deciding | .rollingForward | .commitPending _ | .pausing _ | .reporting _ | .abandoning
  | .abortPending true _ _ _ | .unwinding _ => true
  | .requested _ | .awaiting _ | .abortPending false _ _ _ | .finished _ | .panicked _ => false

/-- What an operation can rely on at a stage. -/
def Fits (r : Record) : Stage → Prop
  | .requested _ | .awaiting _ | .panicked _ => True
  | .asking k n => n = r.registry.size ∧ 2 ≤ n ∧ k < n ∧ r.Polls k .joined
  | .votePending k n _ | .voteHeard k n _ =>
    n = r.registry.size ∧ 2 ≤ n ∧ r.registry.progress? k = some .preparing ∧ r.Polls k .preparing
  | .askingSole => r.registry.size = 1 ∧ r.Polls 0 .joined
  | .solePending _ _ | .soleHeard _ =>
    r.registry.size = 1 ∧ r.registry.progress? 0 = some .preparing ∧ r.Polls 0 .preparing
  | .deciding => r.registry.size ≠ 1 ∧ r.Polls r.registry.size .joined
  | .rollingForward =>
    r.phase = .committed ∧ r.report = none ∧
      ∀ i p, r.registry.progress? i = some p →
        p = if r.registry.size = 1 then .settled .committedInPrepare else .prepared
  | .commitPending d | .pausing d =>
    r.phase = .committed ∧ r.report = none ∧ d.participants = r.registry.size
  | .reporting report =>
    r.phase = .committed ∧ r.report = none ∧ report.id = r.id ∧
      report.participants = r.registry.size
  | .abandoning => r.phase = .aborted
  | .abortPending _ _ _ answer => r.phase = .aborted ∧ answer.TrueOf r
  | .unwinding _ =>
    (∃ k, r.Polls k .preparing) ∨ (r.phase = .committed ∧ r.report = none)
  | .finished answer => answer.TrueOf r

end Stage

end LeasedCommit
