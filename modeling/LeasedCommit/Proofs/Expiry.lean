import LeasedCommit.Manager.Step
import LeasedCommit.Proofs.Isolation
import LeasedCommit.Proofs.LeaseInForce
import LeasedCommit.Proofs.OwnMoves
import Mathlib.Data.List.Pairwise

set_option autoImplicit false

/-! # Whoever meets a lapsed lease

The first request to an undecided record whose lease has lapsed aborts it, whichever request it is
(`Stage.visit?_lapsed`). The record becomes `Record.expired`, and the operation then tells every
participant that it has claimed, in join order, before it gives the answer that belongs to its
request. What it has said and what it still owes are always the same calls together
(`Stage.Delivers`), so others may move in between. -/

namespace LeasedCommit

/-! ## What becomes of the record -/

/-- The record whose lease was found lapsed at `now`. -/
def Record.expired (r : Record) (now : Timestamp) : Record :=
  { r with
    phase := .aborted, registry := (r.registry.freeze.claimAll .abort).1
    lease := { r.lease with status := .expired }, abortCause := some .leaseExpired
    settledAt := some now }

/-- The call that tells a claimed participant to abort. -/
def Claim.abortCall (c : Claim) : Call :=
  { position := c.position, participant := c.participant, verb := .abort }

/-- The abort calls to everybody who can be told now, in join order. -/
def Registry.abortCalls (g : Registry) : List Call := g.claimable.map Claim.abortCall

/-- What is answered to a request that finds an undecided record with a lapsed lease. A wait does
not look at the lease. -/
def Request.lapsedAnswer? (id : TransactionId) : Request → Option Answer
  | .join _ => some (.refused (.cannotJoin id .aborted))
  | .commit => some (.refused (.cannotCommit id .leaseExpired))
  | .abort => some .done
  | .renew _ | .cancel => some (.refused (.unknownLease id))
  | .expire => some (.expired true)
  | .awaitPhase _ => none

theorem Lease.markExpired_of_hasLapsed {l : Lease} {now : Timestamp}
    (h : l.hasLapsed now = true) : l.markExpired = { l with status := .expired } := by
  simp only [hasLapsed, Bool.and_eq_true, beq_iff_eq] at h
  exact if_pos h.1

/-- An abort call goes to whoever can be told: nothing has been decided for the slot, and no
question to it is open. -/
theorem Registry.mem_abortCalls {g : Registry} {j : Nat} :
    j ∈ g.abortCalls.map Call.position ↔
      ∃ p, g.progress? j = some p ∧ p ≠ .preparing ∧ p.isSettled = false := by
  have hpositions : g.abortCalls.map Call.position = g.claimable.map Claim.position := by
    rw [abortCalls, List.map_map]
    rfl
  rw [hpositions, mem_claimable_iff, canClaim_iff]
  refine exists_congr fun p => and_congr_right fun _ => ?_
  cases p <;> simp [Progress.acceptsDecision, Progress.isSettled]

/-- The abort calls are in join order. -/
theorem Registry.pairwise_abortCalls (g : Registry) :
    (g.abortCalls.map Call.position).Pairwise (· < ·) := by
  have hpositions : g.abortCalls.map Call.position = (List.range g.size).filter g.canClaim := by
    rw [← positions_claimable, abortCalls, List.map_map]
    rfl
  rw [hpositions]
  exact List.pairwise_lt_range.filter _

/-- The abort calls go to the parties of their slots. -/
theorem Registry.participants_of_mem_abortCalls {g : Registry} {call : Call}
    (h : call ∈ g.abortCalls) :
    call.verb = .abort ∧ g.participants[call.position]? = some call.participant := by
  obtain ⟨c, hc, rfl⟩ := List.mem_map.mp h
  exact ⟨rfl, participants_of_mem_claimable hc⟩

section Visits

variable {r : Record} {t : Readings}

theorem Record.expire?_of_lapsed (hu : r.phase.isTerminal = false)
    (hl : r.lease.hasLapsed t.first = true) :
    r.expire? t = some
      { record := r.expired t.second, counts := .abort .leaseExpired, wakes := true
        owed := r.registry.claimable } := by
  rw [expire?, if_neg (by simp [hu, hl]), abortFor_eq hu, Lease.markExpired_of_hasLapsed hl]
  rfl

/-- **A lapsed lease is met alike by every request**: with the same abort, and an answer of its
own. -/
theorem Stage.visit?_lapsed (hu : r.phase.isTerminal = false)
    (hl : r.lease.hasLapsed t.first = true) {q : Request} {answer : Answer}
    (hq : q.lapsedAnswer? r.id = some answer) (policy : LeasePolicy) :
    (Stage.requested q).visit? policy r t = some
      { record := r.expired t.second, counts := .abort .leaseExpired, wakes := true
        next := .deliverAborts false r.registry.claimable answer } := by
  have hexpire := Record.expire?_of_lapsed hu hl
  cases q with
  | join p =>
      obtain rfl := Option.some.inj hq
      simp only [visit?, Record.join, hexpire]
      rfl
  | commit =>
      obtain rfl := Option.some.inj hq
      simp only [visit?, Record.openVote, hexpire]
      rfl
  | abort =>
      obtain rfl := Option.some.inj hq
      have habort : { r with lease := r.lease.markExpired }.abortFor .leaseExpired t.second =
          { record := r.expired t.second, counts := .abort .leaseExpired, wakes := true
            owed := r.registry.claimable } := by
        rw [Record.abortFor_eq hu, Lease.markExpired_of_hasLapsed hl]
        rfl
      have hvisit : r.abort t = Record.Abort.visit
          ({ r with lease := r.lease.markExpired }.abortFor .leaseExpired t.second) .done := by
        unfold Record.abort
        split <;> rename_i hp
        · rw [hp] at hu
          cases hu
        · rw [hp] at hu
          cases hu
        · exact if_pos hl
        · exact if_pos hl
      rw [visit?, hvisit, habort]
      rfl
  | renew request =>
      obtain rfl := Option.some.inj hq
      simp only [visit?, Record.renew, hexpire]
      rfl
  | cancel =>
      obtain rfl := Option.some.inj hq
      simp only [visit?, Record.cancel, hexpire]
      rfl
  | expire =>
      obtain rfl := Option.some.inj hq
      simp only [visit?, Record.expire, hexpire]
      rfl
  | awaitPhase target => cases hq

end Visits

/-! ## Telling the participants -/

/-- An operation that tells participants to abort and then answers: what it has said and what it
still owes are `all` its calls together. -/
def Stage.Delivers (all : List Call) (answer : Answer) (calls : List Call) (s : Stage) : Prop :=
  ∃ owed, s = .deliverAborts false owed answer ∧ calls ++ owed.tail.map Claim.abortCall = all

namespace Stage.Delivers

variable {all calls : List Call} {answer : Answer} {s s' : Stage} {rules : Rules} {r r' : Record}
  {a : Action} {i : Nat}

theorem call?_deliverAborts (owner : Bool) (owed : List Claim) (answer : Answer) :
    (Stage.deliverAborts owner owed answer).call?.toList =
      (owed.take 1).map Claim.abortCall := by
  cases owed <;> rfl

/-- Whoever is claimed is told first of all. -/
theorem start (g : Registry) (answer : Answer) :
    Stage.Delivers g.abortCalls answer
      (Stage.deliverAborts false g.claimable answer).call?.toList
      (.deliverAborts false g.claimable answer) := by
  refine ⟨g.claimable, rfl, ?_⟩
  rw [call?_deliverAborts, ← List.map_append, Registry.abortCalls]
  cases g.claimable <;> rfl

theorem not_awaiting (h : s.Delivers all answer calls) (w : Wait) : s ≠ .awaiting w := by
  obtain ⟨owed, rfl, -⟩ := h
  cases owed <;> exact nofun

theorem isPrefix (h : s.Delivers all answer calls) : calls <+: all := by
  obtain ⟨owed, -, rfl⟩ := h
  exact List.prefix_append ..

/-- At its end the operation has said everything and gives the answer. -/
theorem eq_of_finished {answer' : Answer}
    (h : Stage.Delivers all answer calls (.finished answer')) :
    answer' = answer ∧ calls = all := by
  obtain ⟨owed, heq, rfl⟩ := h
  cases owed with
  | nil => exact ⟨Stage.finished.inj heq, (List.append_nil _).symm⟩
  | cons c rest => cases heq

/-- While an abort call is out the operation moves when it comes back, and the next one goes out. -/
theorem go (h : s.Delivers all answer calls) (hi : a.operation? = some i)
    (hgo : s.go? rules r a = some (r', s')) :
    ∃ reply, a = .acknowledge i reply ∧ r' = r ∧
      ((∃ response, reply = .returned response) →
        s'.Delivers all answer (calls ++ s'.call?.toList)) := by
  obtain ⟨owed, rfl, hall⟩ := h
  cases owed with
  | nil => cases a <;> cases hgo
  | cons c rest =>
      cases a with
      | acknowledge j reply =>
          obtain rfl : j = i := Option.some.inj hi
          obtain ⟨s, hs, heq⟩ := Option.map_eq_some_iff.mp hgo
          obtain ⟨rfl, rfl⟩ := Prod.mk.inj heq
          refine ⟨reply, rfl, rfl, ?_⟩
          rintro ⟨response, rfl⟩
          obtain rfl := Option.some.inj hs
          refine ⟨rest, rfl, ?_⟩
          rw [call?_deliverAborts, List.append_assoc, ← List.map_append, ← hall]
          cases rest <;> rfl
      | _ => cases hgo

end Stage.Delivers

/-- The first visit of an operation that meets a lapsed lease. -/
theorem Transaction.step_lapsed (rules : Rules) {x : Transaction} {i : Nat} {t : Readings}
    {q : Request} {answer : Answer} (hrested : x.Rested) (hi : x.stage? i = some (.requested q))
    (hu : x.record.phase.isTerminal = false) (hl : x.record.lease.hasLapsed t.first = true)
    (hq : q.lapsedAnswer? x.record.id = some answer) :
    ∃ y, x.step rules (.visit i t) = some (y, .abort .leaseExpired) ∧
      y.record = x.record.expired t.second ∧
      y.stage? i = some (.deliverAborts false x.record.registry.claimable answer) := by
  have hvisit := Stage.visit?_lapsed hu hl hq rules.lease
  refine ⟨_, step_visit hi (hrested.awake hi fun w => nofun) hvisit, rfl, ?_⟩
  rw [stage?_visit hi, if_pos rfl]

section Runs

variable {rules : Rules} {x y : Transaction} {i : Nat} {s : Stage} {turns : List Turn}
  {all said : List Call} {answer : Answer}

/-- No call panics. -/
def AllReturned (heard : List (Reply Unit)) : Prop :=
  ∀ reply ∈ heard, ∃ response, reply = .returned response

/-- An operation goes on telling participants whatever the others do. -/
theorem Run.delivers (hx : x.Sound) (hi : x.stage? i = some s) (hs : s.Delivers all answer said)
    (h : Run rules x turns y) (hreturned : AllReturned (heardBy i turns)) :
    ∃ s', y.stage? i = some s' ∧ s'.Delivers all answer (said ++ callsOf i turns) := by
  refine Run.follow (H := AllReturned)
    (P := fun _ calls s => s.Delivers all answer (said ++ calls)) hx hi ?_ ?_ ?_ ?_ h hreturned
  · exact fun heard more hall reply hreply => hall reply (List.mem_append_left _ hreply)
  · rwa [List.append_nil]
  · exact fun hs w => hs.not_awaiting w
  · intro heard calls s a r r' s' hs _ hown hgo hreturned
    obtain ⟨reply, rfl, -, hnext⟩ := hs.go hown hgo
    have hheard : (Action.acknowledge i reply).heard? i = some reply := if_pos rfl
    rw [← List.append_assoc]
    exact hnext (hreturned reply (by simp [hheard]))

/-- An operation that tells participants can come to its end. -/
theorem Transaction.finishes_deliverAborts (owed : List Claim) {x : Transaction}
    (hi : x.stage? i = some (.deliverAborts false owed answer)) :
    ∃ turns y, Run rules x turns y ∧ AllReturned (heardBy i turns) ∧
      y.stage? i = some (.finished answer) := by
  induction owed generalizing x with
  | nil => exact ⟨[], x, .start, fun reply hreply => (nomatch hreply), hi⟩
  | cons c rest ih =>
      have hstep := step_acknowledge rules (.returned (.answered ())) hi rfl
      obtain ⟨turns, y, hrun, hreturned, hy⟩ := ih ((stage?_put hi).trans (if_pos rfl))
      refine ⟨_, y, (Run.start.next hstep).trans hrun, fun reply hreply => ?_, hy⟩
      rw [heardBy_append, List.nil_append, heardBy_singleton] at hreply
      rcases List.mem_append.mp hreply with hreply | hreply
      · exact ⟨.answered (), by simpa [Action.heard?] using hreply⟩
      · exact hreturned reply hreply

end Runs

/-! ## The main result -/

/-- **Whoever meets a lapsed lease first aborts the transaction.** A request to join, to commit, to
abort, to renew in any way, to cancel or to expire makes its visit to a record in any state that a
run can reach. The record is undecided and its lease has lapsed at the first reading of the clock.

* The visit takes place, and its effect does not depend on the request: the record is aborted
  because of its lease, whose expiration stays, the registry is frozen with the same parties, and
  the totals count one more abort and one more expiry.
* However others move from then on, if no call of the operation panics: the record keeps its
  decision and its lease for good, the operation makes abort calls in join order to those slots
  that are not settled and have no open question, at most one to each, and it can come to its end.
  At its end it has called all of them and gives the answer that belongs to its request.
* If it was begun to tell the phase, the phase that is told is `aborted`. -/
theorem expiry_on_access {c : Coordinator} {id : TransactionId} {request : LeaseRequest}
    {now : Timestamp} {past : List Turn} {x : Transaction} {place i : Nat} {q : Request}
    {answer : Answer} {t : Readings}
    (hrun : Run c.rules (Transaction.opened c.rules.lease id request now) past x)
    (hx : c.transactions[place]? = some x) (hi : x.stage? i = some (.requested q))
    (hu : x.record.phase.isTerminal = false) (hl : x.record.lease.hasLapsed t.first = true)
    (hq : q.lapsedAnswer? id = some answer) :
    ∃ d y, c.step place (.visit i t) = some d ∧ d.transactions[place]? = some y ∧
      y.record = x.record.expired t.second ∧ y.record.registry.frozen = true ∧
      y.record.registry.participants = x.record.registry.participants ∧
      d.totals =
        { c.totals with aborted := c.totals.aborted + 1, expired := c.totals.expired + 1 } ∧
      (∀ j, j ∈ x.record.registry.abortCalls.map Call.position ↔
        ∃ p, x.record.registry.progress? j = some p ∧ p ≠ .preparing ∧ p.isSettled = false) ∧
      (x.record.registry.abortCalls.map Call.position).Pairwise (· < ·) ∧
      (∀ call ∈ x.record.registry.abortCalls, call.verb = .abort ∧
        x.record.registry.participants[call.position]? = some call.participant) ∧
      ∀ turns z, Run c.rules y turns z → AllReturned (heardBy i turns) →
        z.record.phase = .aborted ∧ z.record.abortCause = some .leaseExpired ∧
        z.record.lease = { x.record.lease with status := .expired } ∧
        callsOf i ({ before := x, action := .visit i t, after := y } :: turns) <+:
          x.record.registry.abortCalls ∧
        (∀ answer', z.stage? i = some (.finished answer') → answer' = answer ∧
          callsOf i ({ before := x, action := .visit i t, after := y } :: turns) =
            x.record.registry.abortCalls) ∧
        (∃ more w, Run c.rules z more w ∧ AllReturned (heardBy i more) ∧
          w.stage? i = some (.finished answer)) ∧
        ∀ m : Manager, m.coordinator.record? place = some z.record →
          m.conclude (.phase id) place answer = .answered (.reached .aborted) := by
  have hsound := hrun.sound (Transaction.sound_opened c.rules.lease id request now)
  have hrested := hrun.rested (Transaction.sound_opened c.rules.lease id request now)
    (Transaction.rested_opened c.rules.lease id request now)
  have hid : x.record.id = id := hrun.id_eq (Transaction.sound_opened c.rules.lease id request now)
  obtain ⟨y, hstep, hrecord, hi'⟩ :=
    Transaction.step_lapsed c.rules hrested hi hu hl (hid.symm ▸ hq)
  have hfrozen : y.record.registry.frozen = true := hrecord ▸ rfl
  refine ⟨_, y, Coordinator.step_eq_some_iff.mpr ⟨x, y, _, hx, hstep, rfl⟩,
    Coordinator.getElem?_moved_self hx y _, hrecord, hfrozen, ?_, ?_,
    fun j => Registry.mem_abortCalls, Registry.pairwise_abortCalls _,
    fun call hcall => Registry.participants_of_mem_abortCalls hcall,
    fun turns z hturns hreturned => ?_⟩
  · rw [hrecord]
    exact (Registry.participants_claimAll _ _).trans (Registry.participants_freeze _)
  · simp [Coordinator.moved, Totals.add, OutcomeCounts.abort, OutcomeCounts.zero]
  -- the run after the visit
  have hsound' := (Run.start.next hstep).sound hsound
  have haborted : y.record.phase = .aborted := hrecord ▸ rfl
  obtain ⟨s, hs, hdelivers⟩ :=
    hturns.delivers hsound' hi' (.start x.record.registry answer) hreturned
  obtain ⟨hphase, hcause, -, hlease, -⟩ := hturns.decided hsound' (by rw [haborted]; rfl)
  rw [haborted] at hphase
  rw [hrecord] at hcause hlease
  rw [← callsOf_own (x := x) (a := .visit i t) rfl hi', ← callsOf_append,
    List.singleton_append] at hdelivers
  refine ⟨hphase, hcause, hlease, hdelivers.isPrefix, fun answer' hfinished => ?_, ?_,
    fun m hm => ?_⟩
  · obtain rfl := Option.some.inj (hs.symm.trans hfinished)
    exact hdelivers.eq_of_finished
  · obtain ⟨owed, rfl, -⟩ := hdelivers
    exact Transaction.finishes_deliverAborts owed hs
  · rw [Manager.conclude, hm]
    exact congrArg (fun phase => Result.answered (.reached phase)) hphase

/-- A renewal meets a lease that has lapsed during the vote, while the first of two parties has not
answered: only the second one is told, and the renewal is refused. -/
theorem expiry_on_access_voting :
    ∃ past x d y turns z,
      Run { lease := .standard, rollForward := .standard }
        (.opened .standard ⟨1⟩ (.bounded (.ofMillis 1)) .epoch) past x ∧
      x.record.phase = .voting ∧ x.record.registry.progress? 0 = some .preparing ∧
      ({ rules := { lease := .standard, rollForward := .standard }, transactions := [x]
         totals := .zero } : Coordinator).step 0 (.visit 3 (.steady (.ofSecs 1))) = some d ∧
      d.transactions[0]? = some y ∧ y.record.phase = .aborted ∧
      d.totals = { committed := 0, aborted := 1, expired := 1, rollForwardFailures := 0 } ∧
      Run { lease := .standard, rollForward := .standard } y turns z ∧
      z.stage? 3 = some (.finished (.refused (.unknownLease ⟨1⟩))) ∧
      callsOf 3 ({ before := x, action := .visit 3 (.steady (.ofSecs 1)), after := y } :: turns) =
        [{ position := 1, participant := { key := 1, combines := true }, verb := .abort }] := by
  have hplay : (Transaction.opened .standard ⟨1⟩ (.bounded (.ofMillis 1)) .epoch).play
      { lease := .standard, rollForward := .standard }
      (twoPartyCommit.take 7 ++ [.begin (.renew .forever)]) = some (_, _) := rfl
  have hrun := Run.of_play _ hplay
  obtain ⟨d, y, hstep, hy, hrecord, -, -, htotals, -, -, -, hafter⟩ := expiry_on_access
    (c := { rules := { lease := .standard, rollForward := .standard }, transactions := [_]
            totals := .zero }) (i := 3) (q := .renew .forever) (t := .steady (.ofSecs 1))
    hrun (show ([_] : List Transaction)[0]? = some _ from rfl) rfl rfl rfl rfl
  obtain ⟨-, -, -, -, -, ⟨turns, z, hturns, hreturned, hz⟩, -⟩ :=
    hafter [] y .start fun reply hreply => nomatch hreply
  obtain ⟨-, -, -, -, hends, -, -⟩ := hafter turns z hturns hreturned
  exact ⟨_, _, d, y, turns, z, hrun, rfl, rfl, hstep, hy, hrecord ▸ rfl, htotals, hturns, hz,
    (hends _ hz).2⟩

end LeasedCommit
