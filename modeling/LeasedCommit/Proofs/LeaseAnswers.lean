import LeasedCommit.Proofs.Decided
import LeasedCommit.Proofs.LeaseInForce
import LeasedCommit.Proofs.Service

set_option autoImplicit false

/-! # How requests about the lease are met

A renewal or a cancellation visits the record once. If the clock stands still during the visit, it
is met in one of three ways (`LeaseMet`): it is refused and the record is decided by then, it is
cancelled and that decides the record, or it is renewed. A refusal alone does not show that: the
lease could be refused because it has lapsed since the visit began, and be valid again when the
clock goes back. Afterwards the operation can only deliver the aborts that it owes. -/

namespace LeasedCommit

/-- Requests about the lease. -/
def Request.IsLease : Request → Prop
  | .renew _ | .cancel => True
  | _ => False

/-- The clock readings of a visit agree. -/
def Action.IsSteady : Action → Prop
  | .visit _ t => t = .steady t.first
  | _ => True

instance : DecidablePred Action.IsSteady
  | .visit _ t => inferInstanceAs (Decidable (t = .steady t.first))
  | .begin _ | .vote .. | .combinedVote .. | .acknowledge .. | .resume .. | .giveUp .. =>
    .isTrue trivial

/-- How a request about the lease is met in a visit that changes the record from `r` to `r'` and
leads to stage `s'`. -/
inductive LeaseMet (r r' : Record) : Request → Stage → Prop
  | refused {q : Request} {s' : Stage} : r'.phase.isTerminal = true →
    r'.lease.expiration = r.lease.expiration →
    s'.answer? = some (.refused (.unknownLease r.id)) → LeaseMet r r' q s'
  | cancelled {s' : Stage} : r.phase.isTerminal = false → r'.phase.isTerminal = true →
    r'.lease.expiration = r.lease.expiration → s'.answer? = some .done → LeaseMet r r' .cancel s'
  | renewed {request : LeaseRequest} : r.phase.isTerminal = false →
    LeaseMet r r' (.renew request) (.finished (.renewed r'.lease.expiration))

section Visits

variable {r : Record}

/-- A lapsed lease is met with an abort, whatever is requested about it. -/
theorem LeaseMet.lapsed {q : Request} {t : Readings} {abort : Record.Abort}
    (h : r.expire? t = some abort) :
    LeaseMet r (abort.visit (.refused (.unknownLease r.id))).record q
      (abort.visit (.refused (.unknownLease r.id))).next := by
  obtain ⟨-, -, rfl⟩ := Record.expire?_eq_some h
  exact .refused rfl (Lease.expiration_markExpired r.lease) (Stage.answer?_deliverAborts ..)

/-- The lease of an undecided record is valid, unless it has just been found lapsed. -/
theorem Record.LeaseAgrees.isValid (ha : r.LeaseAgrees) (hr : r.Shape)
    (hu : r.phase.isTerminal = false) {now : Timestamp} (h : r.expire? (.steady now) = none) :
    r.lease.isValid now = true := by
  have hvalid : r.lease.status = .valid := by
    refine ha.status_eq_valid hr fun hp => ?_
    rw [hp] at hu
    cases hu
  have hlapsed : r.lease.hasLapsed now = false := by
    rcases Record.expire?_eq_none h with hd | hlapsed
    · rw [hu] at hd
      cases hd
    · exact hlapsed
  simp [Lease.isValid, hvalid, Lease.hasPassed_eq_false hlapsed hvalid]

theorem Record.renew_met (ha : r.LeaseAgrees) (hr : r.Shape) (policy : LeasePolicy)
    (request : LeaseRequest) (now : Timestamp) :
    LeaseMet r (r.renew policy request (.steady now)).record (.renew request)
      (r.renew policy request (.steady now)).next := by
  unfold Record.renew
  split
  · rename_i abort habort
    exact .lapsed habort
  · rename_i hnone
    split
    · rename_i hd
      exact .refused hd rfl rfl
    · rename_i hu
      rw [Bool.not_eq_true] at hu
      have hvalid := ha.isValid hr hu hnone
      rw [show (Readings.steady now).second = now from rfl, Lease.renew_of_valid hvalid]
      exact .renewed hu

theorem Record.cancel_met (ha : r.LeaseAgrees) (hr : r.Shape) (now : Timestamp) :
    LeaseMet r (r.cancel (.steady now)).record .cancel (r.cancel (.steady now)).next := by
  unfold Record.cancel
  split
  · rename_i abort habort
    exact .lapsed habort
  · rename_i hnone
    split
    · rename_i hd
      exact .refused hd rfl rfl
    · rename_i hu
      rw [Bool.not_eq_true] at hu
      have hvalid := ha.isValid hr hu hnone
      rw [show (Readings.steady now).second = now from rfl, Lease.cancel_of_valid hvalid]
      simp only [Record.abortFor_eq hu]
      exact .cancelled hu rfl rfl (Stage.answer?_deliverAborts ..)

/-- The visit that meets a request about the lease. -/
theorem Stage.visit?_lease {q : Request} (hq : q.IsLease) (ha : r.LeaseAgrees) (hr : r.Shape)
    {policy : LeasePolicy} {now : Timestamp} {v : Visit}
    (h : (Stage.requested q).visit? policy r (.steady now) = some v) :
    LeaseMet r v.record q v.next := by
  cases q with
  | renew request =>
      obtain rfl := Option.some.inj h
      exact Record.renew_met ha hr policy request now
  | cancel =>
      obtain rfl := Option.some.inj h
      exact Record.cancel_met ha hr now
  | join | commit | abort | expire | awaitPhase => exact hq.elim

end Visits

/-- Where an operation on the lease can stand. -/
theorem Stage.Serves.lease_cases {q : Request} {s : Stage} (h : s.Serves q) (hq : q.IsLease) :
    s = .requested q ∨ (∃ claim rest a, s = .abortPending false claim rest a) ∨
      s.isOver = true := by
  have hcommit : q ≠ .commit := by
    rintro rfl
    exact hq
  cases s with
  | requested q' => exact .inl (congrArg _ h)
  | abortPending owner claim rest a =>
      cases owner with
      | false => exact .inr (.inl ⟨claim, rest, a, rfl⟩)
      | true => exact absurd (h.1 rfl) hcommit
  | finished | panicked => exact .inr (.inr rfl)
  | awaiting w =>
      obtain rfl : w.request = q := h
      cases w <;> exact hq.elim
  | _ => exact absurd h hcommit

namespace Transaction

variable {rules : Rules} {x y : Transaction} {i : Nat} {a : Action} {counts : OutcomeCounts}
  {q : Request} {s : Stage}

/-- An operation on the lease visits the record, or an abort has been delivered or has panicked. -/
theorem step_lease_cases (hx : x.Sound) (hs : x.stage? i = some s) (hserves : s.Serves q)
    (hq : q.IsLease) (hi : a.operation? = some i) (h : x.step rules a = some (y, counts)) :
    ∃ s', y.stage? i = some s' ∧
      ((∃ t v, a = .visit i t ∧ s = .requested q ∧
          (Stage.requested q).visit? rules.lease x.record t = some v ∧ y.record = v.record ∧
          s' = v.next) ∨
        (y.record = x.record ∧ s.isOver = false ∧
          (s'.answer? = s.answer? ∨ ∃ message, s' = .panicked message))) := by
  rcases step_cases hx.shape hx.fits h with ⟨q', rfl, -⟩ | ⟨j, t, r', s', hj, hm, hy⟩
  · cases hi
  obtain rfl : j = i := Option.some.inj (hj.symm.trans hi)
  obtain rfl := Option.some.inj (hy.stage.symm.trans hs)
  refine ⟨s', hy.stage?_self, ?_⟩
  rcases hserves.lease_cases hq with rfl | ⟨claim, rest, answer, rfl⟩ | hover
  · -- the visit
    cases a with
    | visit k clock =>
        obtain rfl : k = j := Option.some.inj hj
        simp only [step] at h
        split at h
        · cases h
        · rw [hs, Option.bind_some, Option.map_eq_some_iff] at h
          obtain ⟨v, hv, heq⟩ := h
          obtain ⟨rfl, -⟩ := Prod.mk.inj heq
          have hnext : v.next = s' := by
            have hself := hy.stage?_self
            rw [stage?_visit hs, if_pos rfl] at hself
            exact Option.some.inj hself
          exact .inl ⟨clock, v, rfl, rfl, hv, rfl, hnext.symm⟩
    | _ => cases hm
  · -- an abort comes back
    rw [hy.record]
    cases hm with
    | abortReturns => exact .inr ⟨rfl, rfl, .inl (Stage.answer?_deliverAborts ..)⟩
    | abortPanics => exact .inr ⟨rfl, rfl, .inr ⟨_, rfl⟩⟩
    | giveIn hask => rcases hask with ⟨k, n, h⟩ | h | h <;> cases h
    | refuse _ _ hsettles | late _ _ hsettles => cases hsettles
  · rw [hm.isOver_eq_false] at hover
    cases hover

/-- **What an operation on the lease does in one move**: its request is met, or an abort has been
delivered or has panicked. -/
theorem step_lease (hx : x.Sound) (ha : x.record.LeaseAgrees) (hs : x.stage? i = some s)
    (hserves : s.Serves q) (hq : q.IsLease) (hi : a.operation? = some i) (hsteady : a.IsSteady)
    (h : x.step rules a = some (y, counts)) :
    ∃ s', y.stage? i = some s' ∧
      ((s = .requested q ∧ LeaseMet x.record y.record q s') ∨
        (y.record = x.record ∧ s.isOver = false ∧
          (s'.answer? = s.answer? ∨ ∃ message, s' = .panicked message))) := by
  obtain ⟨s', hs', ⟨t, v, rfl, rfl, hv, hrecord, rfl⟩ | hdelivers⟩ :=
    step_lease_cases hx hs hserves hq hi h
  · rw [show t = .steady t.first from hsteady] at hv
    rw [hrecord]
    exact ⟨v.next, hs', .inl ⟨rfl, Stage.visit?_lease hq ha hx.shape hv⟩⟩
  · exact ⟨s', hs', .inr hdelivers⟩

/-- A decided record meets every request in one visit. -/
theorem step_decided (hd : x.record.phase.isTerminal = true) (hs : x.stage? i = some (.requested q))
    (hi : a.operation? = some i) (h : x.step rules a = some (y, counts)) :
    y.stage? i = some (.finished (x.record.decidedAnswer q)) := by
  cases a with
  | begin q' => cases hi
  | visit j t =>
      obtain rfl : j = i := Option.some.inj hi
      simp only [step] at h
      split at h
      · cases h
      · rw [hs, Option.bind_some, Stage.visit?_decided hd] at h
        obtain ⟨rfl, -⟩ := Prod.mk.inj (Option.some.inj h)
        rw [stage?_visit hs, if_pos rfl]
        rfl
  | vote j | combinedVote j | acknowledge j | resume j =>
      obtain rfl : j = i := Option.some.inj hi
      simp only [step, hs, Option.bind_some, Option.map_eq_some_iff] at h
      obtain ⟨s', hs', -⟩ := h
      cases hs'
  | giveUp j =>
      obtain rfl : j = i := Option.some.inj hi
      simp only [step, hs] at h
      cases h

end Transaction

theorem Record.decidedAnswer_lease {q : Request} (hq : q.IsLease) (r : Record) :
    r.decidedAnswer q = .refused (.unknownLease r.id) := by
  cases q with
  | renew | cancel => rfl
  | join | commit | abort | expire | awaitPhase => exact hq.elim

/-- The leases of all transactions of a coordinator are in the status that their aborts have left
them in. -/
theorem Coordinator.Reached.leaseAgrees {rules : Rules} {c : Coordinator} (h : Reached rules c)
    {place : Nat} {x : Transaction} (hx : c.transactions[place]? = some x) :
    x.record.LeaseAgrees := by
  obtain ⟨id, request, now, turns, hrun⟩ := h.run hx
  exact hrun.leaseAgrees (Transaction.sound_opened rules.lease id request now) rfl

/-- In all transactions of a coordinator only those sleep who wait. -/
theorem Coordinator.Reached.rested {rules : Rules} {c : Coordinator} (h : Reached rules c)
    {place : Nat} {x : Transaction} (hx : c.transactions[place]? = some x) : x.Rested := by
  obtain ⟨id, request, now, turns, hrun⟩ := h.run hx
  exact hrun.rested (Transaction.sound_opened rules.lease id request now)
    (Transaction.rested_opened rules.lease id request now)

end LeasedCommit
