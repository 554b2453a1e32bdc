import LeasedCommit.Proofs.LeaseLife
import LeasedCommit.Proofs.Run
import LeasedCommit.Proofs.Shape

set_option autoImplicit false

/-! # What one operation can do in one move

`Advance rules r action s r' s'` lists the ways in which an operation at stage `s` can change the
record `r` to `r'` and come to stage `s'`. `Transaction.step_cases` shows that a step of a
transaction is a new request or one of these moves; everything that is proved about runs goes
through it, and the functions of `Coordinator/Visit` are opened only here.

The moves are those that can happen in a run, so their list is shorter than the branches of the
visits: `Record.Shape` and `Stage.Fits` exclude, for example, that the only slot has been asked
before. -/

namespace LeasedCommit

/-- How a request aborts an undecided record: what becomes of the lease, the cause, and the time of
the decision. Any request can meet a lapsed lease; an abort on request leaves the lease alone. -/
inductive Lease.Forfeits (l : Lease) (t : Readings) :
    Request → Lease → AbortCause → Timestamp → Prop
  | lapsed {q : Request} : l.hasLapsed t.first = true →
    Forfeits l t q l.markExpired .leaseExpired t.second
  | requested : l.hasLapsed t.first = false → Forfeits l t .abort l .requested t.second
  | cancelled {lease : Lease} : l.hasLapsed t.first = false → l.cancel t.second = (true, lease) →
    Forfeits l t .cancel lease .leaseCancelled t.third

/-- What becomes of slot `k` when the answer that an operation has heard from it does not lead to
a commit. A party that has committed in the combined call is then owed the abort. -/
inductive Stage.Settles : Stage → Nat → Progress → Prop
  | voted {k n : Nat} : Settles (.voteHeard k n (.answered .abort)) k (.settled .selfAborted)
  | failed {k n : Nat} {e : ParticipantError} : Settles (.voteHeard k n (.failed e)) k .unresolved
  | soleVoted : Settles (.soleHeard (.answered .abort)) 0 (.settled .selfAborted)
  | soleFailed {e : ParticipantError} : Settles (.soleHeard (.failed e)) 0 .unresolved
  | soleCommitted : Settles (.soleHeard (.answered .committed)) 0 .prepared

/-- Why the answer that an operation has heard while the vote is open does not lead to a commit,
what becomes of the lease, and when that is decided. -/
inductive Stage.Refuses (l : Lease) (t : Readings) : Stage → Lease → AbortCause → Timestamp → Prop
  | voted {k n : Nat} :
    Refuses l t (.voteHeard k n (.answered .abort)) l (.votedAbort k) t.first
  | failed {k n : Nat} {e : ParticipantError} :
    Refuses l t (.voteHeard k n (.failed e)) l (.prepareFailed k e) t.first
  | soleVoted : Refuses l t (.soleHeard (.answered .abort)) l (.votedAbort 0) t.first
  | soleFailed {e : ParticipantError} :
    Refuses l t (.soleHeard (.failed e)) l (.prepareFailed 0 e) t.first
  | soleLapsed : l.hasLapsed t.first = true →
    Refuses l t (.soleHeard (.answered .committed)) l.markExpired .leaseExpired t.second

/-- The moves of one operation. -/
inductive Advance (rules : Rules) (r : Record) : Action → Stage → Record → Stage → Prop
  -- an operation that does not lead
  | answer {i : Nat} {t : Readings} {q : Request} {a : Answer} : q.Admits a → a.TrueOf r →
    a.joined? = none → Advance rules r (.visit i t) (.requested q) r (.finished a)
  | wait {i : Nat} {t : Readings} {w : Wait} : w.isOver r = false →
    Advance rules r (.visit i t) (.requested w.request) r (.awaiting w)
  | look {i : Nat} {t : Readings} {w : Wait} : w.isOver r = true →
    Advance rules r (.visit i t) (.awaiting w) r (.finished (w.answer r))
  | lookAgain {i : Nat} {t : Readings} {w : Wait} : w.isOver r = false →
    Advance rules r (.visit i t) (.awaiting w) r (.awaiting w)
  | giveUp {i : Nat} {target : Phase} {a : Answer} : Request.Admits (.awaitPhase target) a →
    a.TrueOf r → Advance rules r (.giveUp i) (.awaiting (.phase target)) r (.finished a)
  | join {i : Nat} {t : Readings} {p : Participant} : r.phase = .active →
    Advance rules r (.visit i t) (.requested (.join p)) (r.withRegistry (r.registry.enlist p))
      (.finished (.joined r.registry.size))
  | renew {i : Nat} {t : Readings} {request : LeaseRequest} {lease : Lease} :
    r.phase.isTerminal = false →
    r.lease.renew rules.lease request t.second = (some lease.expiration, lease) →
    Advance rules r (.visit i t) (.requested (.renew request)) { r with lease := lease }
      (.finished (.renewed lease.expiration))
  | abort {i : Nat} {t : Readings} {q : Request} {lease : Lease} {cause : AbortCause}
    {now : Timestamp} {a : Answer} : r.phase.isTerminal = false →
    r.lease.Forfeits t q lease cause now → q.Admits a → a.TrueOf (r.aborted lease cause now) →
    a.joined? = none → Advance rules r (.visit i t) (.requested q)
      ((r.aborted lease cause now).withRegistry (r.registry.freeze.claimAll .abort).1)
      (.deliverAborts false r.registry.claimable a)
  -- the visits of the operation that leads
  | openVote {i : Nat} {t : Readings} : r.phase = .active →
    Advance rules r (.visit i t) (.requested .commit) r.voting
      (Record.firstQuestion r.registry.size)
  | ask {i k n : Nat} {t : Readings} {p : Participant} : r.phase = .voting →
    r.registry.progress? k = some .joined →
    r.registry.ask? k = some (r.registry.setProgress k .preparing, p) →
    Advance rules r (.visit i t) (.asking k n)
      (r.withRegistry (r.registry.setProgress k .preparing)) (.votePending k n p)
  | askSole {i : Nat} {t : Readings} {p : Participant} : r.phase = .voting →
    r.registry.progress? 0 = some .joined →
    r.registry.ask? 0 = some (r.registry.setProgress 0 .preparing, p) →
    Advance rules r (.visit i t) .askingSole
      (r.withRegistry (r.registry.setProgress 0 .preparing)) (.solePending p (Exchange.first p))
  | giveIn {i : Nat} {t : Readings} {s : Stage} :
    (∃ k n, s = .asking k n) ∨ s = .askingSole ∨ s = .deciding → r.phase = .aborted →
    Advance rules r (.visit i t) s r .abandoning
  | prepared {i k n : Nat} {t : Readings} : r.registry.progress? k = some .preparing →
    Advance rules r (.visit i t) (.voteHeard k n (.answered .prepared))
      (r.withRegistry (r.registry.setProgress k .prepared)) (.ask (k + 1) n)
  | refuse {i k : Nat} {t : Readings} {s : Stage} {p : Progress} {lease : Lease}
    {cause : AbortCause} {now : Timestamp} : r.phase = .voting →
    r.registry.progress? k = some .preparing → s.Settles k p → s.Refuses r.lease t lease cause now →
    Advance rules r (.visit i t) s
      ((r.aborted lease cause now).withRegistry (r.registry.freeze.setProgress k p)) .abandoning
  | late {i k : Nat} {t : Readings} {s : Stage} {p : Progress} : r.phase = .aborted →
    r.registry.progress? k = some .preparing → s.Settles k p →
    Advance rules r (.visit i t) s (r.withRegistry (r.registry.setProgress k p)) .abandoning
  | lapse {i : Nat} {t : Readings} : r.phase = .voting → r.lease.hasLapsed t.first = true →
    Advance rules r (.visit i t) .deciding (r.aborted r.lease.markExpired .leaseExpired t.second)
      .abandoning
  | decide {i : Nat} {t : Readings} : r.phase = .voting → r.lease.hasLapsed t.first = false →
    Advance rules r (.visit i t) .deciding (r.committed t.first) .rollingForward
  | decideSole {i : Nat} {t : Readings} : r.phase = .voting →
    r.lease.hasLapsed t.first = false → r.registry.progress? 0 = some .preparing →
    Advance rules r (.visit i t) (.soleHeard (.answered .committed))
      ((r.committed t.first).withRegistry
        (r.registry.freeze.setProgress 0 (.settled .committedInPrepare))) .rollingForward
  | rollForward {i : Nat} {t : Readings} :
    Advance rules r (.visit i t) .rollingForward (r.withRegistry (r.registry.claimAll .commit).1)
      (.deliverCommits r.id r.registry.size r.registry.claimable [])
  | file {i : Nat} {t : Readings} {report : CommitReport} :
    Advance rules r (.visit i t) (.reporting report) { r with report := some report }
      (.finished (.committed report))
  | abandon {i : Nat} {t : Readings} :
    Advance rules r (.visit i t) .abandoning (r.withRegistry (r.registry.claimAll .abort).1)
      (.deliverAborts true r.registry.claimable (.refused r.cannotCommit))
  | interruptVote {i : Nat} {t : Readings} {m : String} : r.phase = .voting →
    Advance rules r (.visit i t) (.unwinding m) (r.aborted r.lease .interrupted t.first)
      (.panicked m)
  | interruptCommit {i : Nat} {t : Readings} {m : String} : r.phase = .committed →
    r.report = none → Advance rules r (.visit i t) (.unwinding m)
      { r with report := some r.interruptedReport } (.panicked m)
  | interruptLate {i : Nat} {t : Readings} {m : String} : r.phase = .aborted →
    Advance rules r (.visit i t) (.unwinding m) r (.panicked m)
  -- a call comes back
  | voteReturns {i k n : Nat} {p : Participant} {vote : Response Vote} :
    Advance rules r (.vote i (.returned vote)) (.votePending k n p) r (.voteHeard k n vote)
  | votePanics {i k n : Nat} {p : Participant} {m : String} :
    Advance rules r (.vote i (.panicked m)) (.votePending k n p) r (.unwinding m)
  | soleGoesOn {i : Nat} {p : Participant} :
    Advance rules r (.vote i (.returned (.answered .prepared))) (.solePending p .voting) r
      (.solePending p .committing)
  | soleReturns {a : Action} {p : Participant} {e : Exchange} {vote : Response CombinedVote} :
    a.ends (.solePending p e) = [.soleVoted (.returned vote)] →
    Advance rules r a (.solePending p e) r (.soleHeard vote)
  | solePanics {a : Action} {p : Participant} {e : Exchange} {m : String} :
    a.ends (.solePending p e) = [.soleVoted (.panicked m)] →
    Advance rules r a (.solePending p e) r (.unwinding m)
  | commitReturns {i : Nat} {d : Delivery} {response : Response Unit}
    {failures : List CommitFailure} :
    (∀ f ∈ failures, f ∈ d.failures ∨ f.position = d.claim.position) →
    Advance rules r (.acknowledge i (.returned response)) (.commitPending d) r
      (.deliverCommits r.id d.participants d.rest failures)
  | commitLost {i : Nat} {d : Delivery} {m : String} :
    Advance rules r (.acknowledge i (.returned (.failed (.communication m)))) (.commitPending d) r
      (.pausing d)
  | commitPanics {i : Nat} {d : Delivery} {m : String} :
    Advance rules r (.acknowledge i (.panicked m)) (.commitPending d) r (.unwinding m)
  | repeatCommit {i : Nat} {d : Delivery} :
    Advance rules r (.resume i) (.pausing d) r
      (.commitPending { d with attempts := d.attempts + 1 })
  | abortReturns {i : Nat} {owner : Bool} {c : Claim} {rest : List Claim} {a : Answer}
    {response : Response Unit} :
    Advance rules r (.acknowledge i (.returned response)) (.abortPending owner c rest a) r
      (.deliverAborts owner rest a)
  | abortPanics {i : Nat} {owner : Bool} {c : Claim} {rest : List Claim} {a : Answer}
    {m : String} :
    Advance rules r (.acknowledge i (.panicked m)) (.abortPending owner c rest a) r
      (if owner then .unwinding m else .panicked m)

/-! ## Aborting and deciding -/

namespace Record

theorem claimable_freeze (g : Registry) : g.freeze.claimable = g.claimable := rfl

/-- The abort of an undecided record, once its lease is as it will stay. -/
theorem abortFor_eq {r : Record} (h : r.phase.isTerminal = false) (lease : Lease)
    (cause : AbortCause) (now : Timestamp) :
    ({ r with lease := lease }.abortFor cause now) =
      { record := (r.aborted lease cause now).withRegistry (r.registry.freeze.claimAll .abort).1
        counts := .abort cause, wakes := true, owed := r.registry.claimable } := by
  unfold abortFor move?
  cases hp : r.phase <;> simp_all [Phase.isTerminal, Phase.canBecome, aborted, withRegistry,
    Registry.claimAll, claimable_freeze]

theorem expire?_eq_some {r : Record} {t : Readings} {a : Abort} (h : r.expire? t = some a) :
    r.phase.isTerminal = false ∧ r.lease.hasLapsed t.first = true ∧
      a = { record := (r.aborted r.lease.markExpired .leaseExpired t.second).withRegistry
              (r.registry.freeze.claimAll .abort).1
            counts := .abort .leaseExpired, wakes := true, owed := r.registry.claimable } := by
  unfold expire? at h
  split at h
  · simp at h
  · rename_i hcond
    simp only [Bool.or_eq_true, Bool.not_eq_true', not_or, Bool.not_eq_true, Bool.not_eq_false]
      at hcond
    refine ⟨hcond.1, hcond.2, ?_⟩
    rw [abortFor_eq hcond.1] at h
    exact (Option.some.inj h).symm

theorem expire?_eq_none {r : Record} {t : Readings} (h : r.expire? t = none) :
    r.phase.isTerminal = true ∨ r.lease.hasLapsed t.first = false := by
  unfold expire? at h
  split at h
  · rename_i hcond
    simpa using hcond
  · simp at h

theorem decideAbort_voting {r : Record} (h : r.phase = .voting) (lease : Lease)
    (cause : AbortCause) (now : Timestamp) :
    { r with lease := lease }.decideAbort cause now =
      { record := r.aborted lease cause now, counts := .abort cause, wakes := true
        outcome := .aborted } := by
  simp [decideAbort, moved, move?, h, Phase.canBecome, Phase.isTerminal, aborted]

theorem decideAbort_aborted {r : Record} (h : r.phase = .aborted) (cause : AbortCause)
    (now : Timestamp) :
    r.decideAbort cause now =
      { record := r, counts := .zero, wakes := false, outcome := .aborted } := by
  simp [decideAbort, decisionMet, h, Phase.outcome?]

theorem decideCommit_aborted {r : Record} (h : r.phase = .aborted) (t : Readings) :
    r.decideCommit t = { record := r, counts := .zero, wakes := false, outcome := .aborted } := by
  simp [decideCommit, decisionMet, h, Phase.outcome?]

theorem decideCommit_lapsed {r : Record} {t : Readings} (h : r.phase = .voting)
    (hl : r.lease.hasLapsed t.first = true) :
    r.decideCommit t =
      { record := r.aborted r.lease.markExpired .leaseExpired t.second
        counts := .abort .leaseExpired, wakes := true, outcome := .aborted } := by
  rw [decideCommit, if_pos h, if_pos hl]
  exact decideAbort_voting h _ _ _

theorem decideCommit_valid {r : Record} {t : Readings} (h : r.phase = .voting)
    (hl : r.lease.hasLapsed t.first = false) :
    r.decideCommit t =
      { record := r.committed t.first, counts := .commit, wakes := true
        outcome := .committed } := by
  simp [decideCommit, h, hl, moved, move?, Phase.canBecome, Phase.isTerminal, committed]

theorem settleInterrupted_aborted {r : Record} {t : Readings} {m : String}
    (h : r.phase = .aborted) : r.settleInterrupted m t = r.leave (.panicked m) := by
  simp [settleInterrupted, h]

theorem settleInterrupted_voting {r : Record} {t : Readings} {m : String}
    (h : r.phase = .voting) :
    r.settleInterrupted m t =
      { record := r.aborted r.lease .interrupted t.first, counts := .abort .interrupted
        wakes := true, next := .panicked m } := by
  simp [settleInterrupted, moved, move?, h, Phase.canBecome, Phase.isTerminal, aborted]

theorem settleInterrupted_committed {r : Record} {t : Readings} {m : String}
    (h : r.phase = .committed) (hreport : r.report = none) :
    r.settleInterrupted m t =
      { record := { r with report := some r.interruptedReport }
        counts := .undelivered r.interruptedReport.failures.length
        wakes := true, next := .panicked m } := by
  simp [settleInterrupted, h, hreport, interruptedReport]

end Record

/-- An active record is open for joins. -/
theorem Record.Shape.open_of_active {r : Record} (h : r.Shape) (hp : r.phase = .active) :
    r.registry.frozen = false := by
  rw [← Bool.not_eq_true, h.frozen, hp]
  simp

/-- Nothing was sent to the slot that is next in the vote. -/
theorem Registry.PolledTo.joined {g : Registry} {k : Nat} (h : g.PolledTo k .joined)
    (hk : k < g.size) : g.progress? k = some .joined := by
  obtain ⟨p, hp⟩ := Registry.lt_size_iff.mp hk
  have hjoined := h k p hp
  rw [if_neg (Nat.lt_irrefl k), if_pos rfl] at hjoined
  rw [hp, hjoined]

/-! ## Every visit is a move -/

section Visits

variable {rules : Rules} {r : Record} {i : Nat} {t : Readings}

theorem join_advance (h : r.Shape) (p : Participant) :
    Advance rules r (.visit i t) (.requested (.join p)) (r.join p t).record (r.join p t).next := by
  unfold Record.join
  split
  · rename_i a ha
    obtain ⟨hu, hl, rfl⟩ := Record.expire?_eq_some ha
    exact .abort hu (.lapsed hl) trivial ⟨rfl, by simp, fun _ => rfl⟩ rfl
  · split
    · rename_i hp
      exact .answer trivial ⟨rfl, hp, fun _ => rfl⟩ rfl
    · rename_i hp
      rw [ne_eq, Decidable.not_not] at hp
      rw [Registry.join?_eq, h.open_of_active hp]
      exact .join hp

theorem openVote_advance (h : r.Shape) :
    Advance rules r (.visit i t) (.requested .commit) (r.openVote t).record
      (r.openVote t).next := by
  unfold Record.openVote
  split
  · rename_i a ha
    obtain ⟨hu, hl, rfl⟩ := Record.expire?_eq_some ha
    exact .abort hu (.lapsed hl) trivial ⟨rfl, rfl, rfl⟩ rfl
  · cases hp : r.phase with
    | active =>
        have hm : r.moved .voting t.second = { r with phase := .voting } := by
          simp [Record.moved, Record.move?, hp, Phase.canBecome, Phase.isTerminal]
        simp only [hm]
        exact .openVote hp
    | voting =>
        have hr : r.report = none := by
          cases hrep : r.report with
          | none => rfl
          | some report =>
              have := (h.report report hrep).1
              rw [hp] at this
              exact absurd this (by decide)
        exact .wait (w := .decision) (by simp [Wait.isOver, hp, hr])
    | committed => exact .answer trivial ⟨rfl, rfl, hp⟩ rfl
    | aborted =>
        obtain ⟨cause, hc⟩ := Option.isSome_iff_exists.mp (h.cause.mpr hp)
        exact .answer trivial ⟨rfl, hp, by simp [Record.statedCause, hc]⟩ rfl

theorem abort_advance :
    Advance rules r (.visit i t) (.requested .abort) (r.abort t).record (r.abort t).next := by
  unfold Record.abort
  cases hp : r.phase with
  | aborted => exact .answer trivial hp rfl
  | committed => exact .answer trivial ⟨rfl, rfl, hp⟩ rfl
  | active | voting =>
      have hu : r.phase.isTerminal = false := by rw [hp]; rfl
      by_cases hl : r.lease.hasLapsed t.first
      · simp only [hl, if_true, Record.abortFor_eq hu]
        exact .abort hu (.lapsed hl) trivial rfl rfl
      · simp only [hl, Bool.false_eq_true, if_false, Record.abortFor_eq hu]
        exact .abort hu (.requested (by simpa using hl)) trivial rfl rfl

theorem renew_advance (request : LeaseRequest) :
    Advance rules r (.visit i t) (.requested (.renew request))
      (r.renew rules.lease request t).record (r.renew rules.lease request t).next := by
  unfold Record.renew
  split
  · rename_i a ha
    obtain ⟨hu, hl, rfl⟩ := Record.expire?_eq_some ha
    exact .abort hu (.lapsed hl) trivial rfl rfl
  · split
    · exact .answer trivial rfl rfl
    · rename_i hu
      split
      · rename_i expiration lease hlease
        obtain ⟨-, rfl, rfl⟩ := Lease.renew_eq_some hlease
        exact .renew (by simpa using hu) hlease
      · rename_i lease hlease
        obtain rfl := Lease.renew_eq_none hlease
        exact .answer trivial rfl rfl

theorem cancel_advance :
    Advance rules r (.visit i t) (.requested .cancel) (r.cancel t).record (r.cancel t).next := by
  unfold Record.cancel
  split
  · rename_i a ha
    obtain ⟨hu, hl, rfl⟩ := Record.expire?_eq_some ha
    exact .abort hu (.lapsed hl) trivial rfl rfl
  · rename_i hnone
    split
    · exact .answer trivial rfl rfl
    · rename_i hu
      rw [Bool.not_eq_true] at hu
      have hl : r.lease.hasLapsed t.first = false := by
        rcases Record.expire?_eq_none hnone with h | h
        · rw [hu] at h
          exact absurd h (by decide)
        · exact h
      split
      · rename_i lease hlease
        rw [Record.abortFor_eq hu]
        exact .abort hu (.cancelled hl hlease) trivial rfl rfl
      · rename_i lease hlease
        obtain rfl := Lease.cancel_eq_false hlease
        exact .answer trivial rfl rfl

theorem expire_advance :
    Advance rules r (.visit i t) (.requested .expire) (r.expire t).record (r.expire t).next := by
  unfold Record.expire
  split
  · rename_i a ha
    obtain ⟨hu, hl, rfl⟩ := Record.expire?_eq_some ha
    exact .abort hu (.lapsed hl) trivial (fun _ => rfl) rfl
  · exact .answer trivial (by simp [Answer.TrueOf]) rfl

/-- What a wait for a phase answers is true. -/
theorem trueOf_reached (r : Record) : (Answer.reached r.phase).TrueOf r := fun _ => rfl

theorem awaitPhase_advance (target : Phase) :
    Advance rules r (.visit i t) (.requested (.awaitPhase target))
      ((Wait.phase target).look r).record ((Wait.phase target).look r).next := by
  unfold Wait.look
  split
  · exact .answer trivial (trueOf_reached r) rfl
  · rename_i hw
    exact .wait (w := .phase target) (by simpa using hw)

theorem look_advance (w : Wait) :
    Advance rules r (.visit i t) (.awaiting w) (w.look r).record (w.look r).next := by
  unfold Wait.look
  split
  · rename_i hw
    exact .look hw
  · rename_i hw
    exact .lookAgain (by simpa using hw)

theorem askSlot_advance {k n : Nat} (h : (Stage.asking k n).Fits r) :
    Advance rules r (.visit i t) (.asking k n) (r.askSlot k n).record (r.askSlot k n).next := by
  obtain ⟨rfl, -, hk, hpoll⟩ := h
  unfold Record.askSlot
  rcases hpoll with hp | ⟨hp, hpolled⟩
  · rw [if_pos (by rw [hp]; decide)]
    exact .giveIn (.inl ⟨k, _, rfl⟩) hp
  · rw [if_neg (by simp [hp])]
    have hprogress := hpolled.joined hk
    obtain ⟨party, hask⟩ := Registry.ask?_of_joined hprogress
    rw [hask]
    exact .ask hp hprogress hask

theorem askSole_advance (h : Stage.askingSole.Fits r) :
    Advance rules r (.visit i t) .askingSole (r.askSole t).record (r.askSole t).next := by
  obtain ⟨hsize, hpoll⟩ := h
  unfold Record.askSole
  rcases hpoll with hp | ⟨hp, hpolled⟩
  · rw [if_pos (by rw [hp]; decide)]
    exact .giveIn (.inr (.inl rfl)) hp
  · rw [if_neg (by simp [hp])]
    have hprogress := hpolled.joined (by omega)
    obtain ⟨party, hask⟩ := Registry.ask?_of_joined hprogress
    rw [hask]
    exact .askSole hp hprogress hask

/-- An answer that does not lead to a commit settles its slot and, if the vote is still open,
aborts the record. -/
theorem refusal_advance {s : Stage} {k : Nat} {p : Progress} {lease : Lease} {cause : AbortCause}
    {now : Timestamp} {d : Record.Decision} (hprogress : r.registry.progress? k = some .preparing)
    (hpoll : r.Polls k .preparing) (hs : s.Settles k p)
    (hvoting : r.phase = .voting → s.Refuses r.lease t lease cause now ∧
      d.record = (r.aborted lease cause now).withRegistry (r.registry.freeze.setProgress k p))
    (haborted : r.phase = .aborted → d.record = r.withRegistry (r.registry.setProgress k p))
    (hd : d.outcome = .aborted) :
    Advance rules r (.visit i t) s d.visit.record d.visit.next := by
  have hnext : d.visit.next = .abandoning := by
    simp [Record.Decision.visit, hd, Stage.afterDecision]
  have hrecord : d.visit.record = d.record := rfl
  rw [hnext, hrecord]
  rcases hpoll with hp | ⟨hp, -⟩
  -- an abort came while the question was open
  · rw [haborted hp]
    exact .late hp hprogress hs
  · rw [(hvoting hp).2]
    exact .refuse hp hprogress hs (hvoting hp).1

theorem resolved_decideAbort {k : Nat} {p : Progress}
    (hprogress : r.registry.progress? k = some .preparing) (cause : AbortCause) (now : Timestamp) :
    (r.phase = .voting → (r.resolved k p).decideAbort cause now =
      { record := (r.aborted r.lease cause now).withRegistry (r.registry.freeze.setProgress k p)
        counts := .abort cause, wakes := true, outcome := .aborted }) ∧
    (r.phase = .aborted → (r.resolved k p).decideAbort cause now =
      { record := r.withRegistry (r.registry.setProgress k p)
        counts := .zero, wakes := false, outcome := .aborted }) := by
  have hr : r.resolved k p = r.withRegistry (r.registry.setProgress k p) := by
    rw [Record.resolved, Registry.resolve_of_preparing hprogress, Record.withRegistry]
  rw [hr]
  constructor
  · intro hp
    exact Record.decideAbort_voting (r := r.withRegistry (r.registry.setProgress k p)) hp
      r.lease cause now
  · intro hp
    exact Record.decideAbort_aborted (r := r.withRegistry (r.registry.setProgress k p)) hp
      cause now

theorem polls_outcome {k : Nat} {p : Progress} (hpoll : r.Polls k .preparing)
    (hprogress : r.registry.progress? k = some .preparing) (cause : AbortCause) (now : Timestamp) :
    ((r.resolved k p).decideAbort cause now).outcome = .aborted := by
  obtain ⟨hv, ha⟩ := resolved_decideAbort (p := p) hprogress cause now
  rcases hpoll with hp | ⟨hp, -⟩
  · rw [ha hp]
  · rw [hv hp]

theorem countVote_advance {k n : Nat} {vote : Response Vote}
    (h : (Stage.voteHeard k n vote).Fits r) :
    Advance rules r (.visit i t) (.voteHeard k n vote) (r.countVote k n vote t).record
      (r.countVote k n vote t).next := by
  obtain ⟨-, -, hprogress, hpoll⟩ := h
  unfold Record.countVote
  split
  · simp only [Record.leave, Record.resolved, Registry.resolve_of_preparing hprogress]
    exact .prepared hprogress
  · obtain ⟨hv, ha⟩ := resolved_decideAbort (p := .settled .selfAborted) hprogress
      (.votedAbort k) t.first
    exact refusal_advance hprogress hpoll .voted (fun hp => ⟨.voted, by rw [hv hp]⟩)
      (fun hp => by rw [ha hp]) (polls_outcome hpoll hprogress _ _)
  · rename_i e
    obtain ⟨hv, ha⟩ := resolved_decideAbort (p := .unresolved) hprogress
      (.prepareFailed k e) t.first
    exact refusal_advance hprogress hpoll .failed (fun hp => ⟨.failed, by rw [hv hp]⟩)
      (fun hp => by rw [ha hp]) (polls_outcome hpoll hprogress _ _)

theorem countSole_advance {vote : Response CombinedVote} (h : (Stage.soleHeard vote).Fits r) :
    Advance rules r (.visit i t) (.soleHeard vote) (r.countSole vote t).record
      (r.countSole vote t).next := by
  obtain ⟨-, hprogress, hpoll⟩ := h
  have hfreeze : r.registry.freeze.progress? 0 = some .preparing := hprogress
  unfold Record.countSole
  split
  · -- the party has committed; a decision that was met or a lapsed lease outweighs that
    rcases hpoll with hp | ⟨hp, -⟩
    · simp only [Record.decideCommit_aborted hp, Record.Decision.visit, Record.resolved,
        Registry.resolve_of_preparing hprogress]
      exact .late hp hprogress .soleCommitted
    · by_cases hl : r.lease.hasLapsed t.first
      · simp only [Record.decideCommit_lapsed hp hl, Record.Decision.visit, Record.resolved,
          Record.aborted_registry, Registry.resolve_of_preparing hfreeze]
        exact .refuse hp hprogress .soleCommitted (.soleLapsed hl)
      · rw [Bool.not_eq_true] at hl
        simp only [Record.decideCommit_valid hp hl, Record.Decision.visit, Record.resolved,
          Record.committed_registry, Registry.resolve_of_preparing hfreeze]
        exact .decideSole hp hl hprogress
  · obtain ⟨hv, ha⟩ := resolved_decideAbort (p := .settled .selfAborted) hprogress
      (.votedAbort 0) t.first
    exact refusal_advance hprogress hpoll .soleVoted (fun hp => ⟨.soleVoted, by rw [hv hp]⟩)
      (fun hp => by rw [ha hp]) (polls_outcome hpoll hprogress _ _)
  · rename_i e
    obtain ⟨hv, ha⟩ := resolved_decideAbort (p := .unresolved) hprogress
      (.prepareFailed 0 e) t.first
    exact refusal_advance hprogress hpoll .soleFailed (fun hp => ⟨.soleFailed, by rw [hv hp]⟩)
      (fun hp => by rw [ha hp]) (polls_outcome hpoll hprogress _ _)

theorem decide_advance (h : Stage.deciding.Fits r) :
    Advance rules r (.visit i t) .deciding (r.decideCommit t).visit.record
      (r.decideCommit t).visit.next := by
  obtain ⟨-, hp | ⟨hp, -⟩⟩ := h
  · rw [Record.decideCommit_aborted hp]
    exact .giveIn (.inr (.inr rfl)) hp
  · by_cases hl : r.lease.hasLapsed t.first
    · rw [Record.decideCommit_lapsed hp hl]
      exact .lapse hp hl
    · rw [Bool.not_eq_true] at hl
      rw [Record.decideCommit_valid hp hl]
      exact .decide hp hl

theorem settleInterrupted_advance {m : String} (h : (Stage.unwinding m).Fits r) :
    Advance rules r (.visit i t) (.unwinding m) (r.settleInterrupted m t).record
      (r.settleInterrupted m t).next := by
  rcases h with ⟨k, hp | ⟨hp, -⟩⟩ | ⟨hp, hreport⟩
  · rw [Record.settleInterrupted_aborted hp]
    exact .interruptLate hp
  · rw [Record.settleInterrupted_voting hp]
    exact .interruptVote hp
  · rw [Record.settleInterrupted_committed hp hreport]
    exact .interruptCommit hp hreport

theorem visit_advance {s : Stage} {v : Visit} (hr : r.Shape) (hs : s.Fits r)
    (h : s.visit? rules.lease r t = some v) : Advance rules r (.visit i t) s v.record v.next := by
  cases s with
  | requested q =>
      cases q <;> cases h
      · exact join_advance hr _
      · exact openVote_advance hr
      · exact abort_advance
      · exact renew_advance _
      · exact cancel_advance
      · exact expire_advance
      · exact awaitPhase_advance _
  | awaiting w => cases h; exact look_advance w
  | asking k n => cases h; exact askSlot_advance hs
  | voteHeard k n vote => cases h; exact countVote_advance hs
  | askingSole => cases h; exact askSole_advance hs
  | soleHeard vote => cases h; exact countSole_advance hs
  | deciding => cases h; exact decide_advance hs
  | rollingForward => cases h; exact .rollForward
  | reporting report => cases h; exact .file
  | abandoning => cases h; exact .abandon
  | unwinding m => cases h; exact settleInterrupted_advance hs
  | votePending | solePending | commitPending | pausing | abortPending | finished | panicked =>
      cases h

end Visits

/-! ## Every call that comes back is a move -/

section Calls

variable {rules : Rules} {r : Record} {i : Nat} {s s' : Stage}

theorem hearVote_advance {reply : Reply Vote} (h : s.hearVote reply = some s') :
    Advance rules r (.vote i reply) s r s' := by
  cases s <;> simp only [Stage.hearVote, reduceCtorEq] at h
  · cases reply <;> cases h
    · exact .voteReturns
    · exact .votePanics
  · rename_i p e
    cases e <;> simp only [reduceCtorEq] at h
    rcases reply with ((vote | _) | _) | m
    · cases h; exact .soleGoesOn
    · cases h; exact .soleReturns rfl
    · cases h; exact .soleReturns rfl
    · cases h; exact .solePanics rfl

theorem hearSole_advance {a : Action} {p : Participant} {e : Exchange} {reply : Reply CombinedVote}
    (h : a.ends (.solePending p e) = [.soleVoted reply]) :
    Advance rules r a (.solePending p e) r (Stage.hearSole reply) := by
  cases reply with
  | returned vote => exact .soleReturns h
  | panicked m => exact .solePanics h

theorem hearCombined_advance {reply : Reply CombinedVote} (h : s.hearCombined reply = some s') :
    Advance rules r (.combinedVote i reply) s r s' := by
  cases s <;> simp only [Stage.hearCombined, reduceCtorEq] at h
  rename_i p e
  cases e <;> simp only [reduceCtorEq] at h
  cases h
  exact hearSole_advance rfl

theorem hearDone_advance {reply : Reply Unit}
    (h : s.hearDone rules.rollForward r.id reply = some s') :
    Advance rules r (.acknowledge i reply) s r s' := by
  cases s <;> simp only [Stage.hearDone, reduceCtorEq] at h
  · rename_i p e
    cases e <;> simp only [reduceCtorEq] at h
    cases h
    exact hearSole_advance rfl
  · rename_i d
    rcases reply with (⟨⟩ | error) | m
    · cases h; exact .commitReturns fun f hf => .inl hf
    · simp only at h
      split at h
      · rename_i hrepeat
        cases h
        -- only a lost call is repeated
        cases error with
        | communication m => exact .commitLost
        | protocol m =>
            simp [RollForwardPolicy.repeats, ParticipantError.isCommunication] at hrepeat
      · cases h
        refine .commitReturns fun f hf => ?_
        rw [List.mem_append, List.mem_singleton] at hf
        exact hf.imp_right fun hf => by rw [hf]
    · cases h; exact .commitPanics
  -- an abort call is made once, whatever it returns
  · cases reply <;> cases h
    · exact .abortReturns
    · exact .abortPanics

theorem resume_advance (h : s.resume = some s') : Advance rules r (.resume i) s r s' := by
  cases s <;> simp only [Stage.resume, reduceCtorEq] at h
  cases h
  exact .repeatCommit

end Calls

/-! ## Every step is a move -/

namespace Transaction

/-- What can be relied on at every stage of a transaction. -/
def AllFit (x : Transaction) : Prop := ∀ i s, x.stage? i = some s → s.Fits x.record

/-- The transaction with one more operation. -/
def begun (x : Transaction) (q : Request) : Transaction :=
  { x with operations := x.operations ++ [.requested q] }

/-- Operation `i` goes from `s` to `s'`, and the record becomes `r'`. -/
structure Moved (x : Transaction) (i : Nat) (s : Stage) (r' : Record) (s' : Stage)
    (y : Transaction) : Prop where
  stage : x.stage? i = some s
  record : y.record = r'
  operations : y.operations = x.operations.set i s'

/-- **Inversion of a step**: a new request, or a move of one operation. -/
theorem step_cases {rules : Rules} {x y : Transaction} {action : Action} {counts : OutcomeCounts}
    (hr : x.record.Shape) (hs : x.AllFit) (h : x.step rules action = some (y, counts)) :
    (∃ q, action = .begin q ∧ y = x.begun q) ∨
    ∃ i s r' s', action.operation? = some i ∧ Advance rules x.record action s r' s' ∧
      x.Moved i s r' s' y := by
  cases action with
  | begin q =>
      simp only [step, Option.some.injEq, Prod.mk.injEq] at h
      exact .inl ⟨q, rfl, h.1.symm⟩
  | visit i t =>
      simp only [step] at h
      split at h
      · simp at h
      · simp only [Option.bind_eq_some_iff, Option.map_eq_some_iff, Prod.mk.injEq] at h
        obtain ⟨s, hstage, v, hv, rfl, -⟩ := h
        exact .inr ⟨i, s, _, _, rfl, visit_advance hr (hs i s hstage) hv, hstage, rfl, rfl⟩
  | vote i reply =>
      simp only [step, Option.bind_eq_some_iff, Option.map_eq_some_iff, Prod.mk.injEq] at h
      obtain ⟨s, hstage, s', hs', rfl, -⟩ := h
      exact .inr ⟨i, s, _, _, rfl, hearVote_advance hs', hstage, rfl, rfl⟩
  | combinedVote i reply =>
      simp only [step, Option.bind_eq_some_iff, Option.map_eq_some_iff, Prod.mk.injEq] at h
      obtain ⟨s, hstage, s', hs', rfl, -⟩ := h
      exact .inr ⟨i, s, _, _, rfl, hearCombined_advance hs', hstage, rfl, rfl⟩
  | acknowledge i reply =>
      simp only [step, Option.bind_eq_some_iff, Option.map_eq_some_iff, Prod.mk.injEq] at h
      obtain ⟨s, hstage, s', hs', rfl, -⟩ := h
      exact .inr ⟨i, s, _, _, rfl, hearDone_advance hs', hstage, rfl, rfl⟩
  | resume i =>
      simp only [step, Option.bind_eq_some_iff, Option.map_eq_some_iff, Prod.mk.injEq] at h
      obtain ⟨s, hstage, s', hs', rfl, -⟩ := h
      exact .inr ⟨i, s, _, _, rfl, resume_advance hs', hstage, rfl, rfl⟩
  | giveUp i =>
      simp only [step] at h
      split at h
      · rename_i target hstage
        simp only [Option.some.injEq, Prod.mk.injEq] at h
        obtain ⟨rfl, -⟩ := h
        -- it has lost patience, but may find that its wait is over all the same
        refine .inr ⟨i, _, x.record, _, rfl, .giveUp ?_ ?_, hstage, rfl, rfl⟩
        · split <;> trivial
        · split
          · exact trueOf_reached x.record
          · trivial
      · simp at h

end Transaction

end LeasedCommit
