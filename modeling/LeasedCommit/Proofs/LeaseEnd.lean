import LeasedCommit.Proofs.LeaseAnswers
import LeasedCommit.Proofs.Tasks

set_option autoImplicit false

/-! # The end of a lease

A renewal or a cancellation that is refused says that the lease is unknown, and that is final: by
then the transaction is decided (`Manager.refused_of_step`), whichever way the refusal has come
about, and a decided transaction refuses everything about its lease (`Manager.Declines`). At most
one cancellation is accepted, since accepting it decides the transaction (`Manager.done_of_step`),
and only a renewal that succeeds changes an expiration (`Manager.expiration_of_step`). -/

namespace LeasedCommit

/-- The task renews or cancels the lease of a transaction. -/
def Task.IsLease (id : TransactionId) : Task → Prop
  | .renew id' _ | .cancel id' => id' = id
  | _ => False

namespace Task.IsLease

variable {id : TransactionId} {task : Task}

theorem id? (h : task.IsLease id) : task.id? = some id := by
  cases task with
  | renew | cancel => exact congrArg some h
  | create | join | commit | abort | phase | awaitPhase | report | sweep => exact h.elim

theorem unknown (h : task.IsLease id) : task.unknown id = .unknownLease id := by
  cases task with
  | renew | cancel => rfl
  | create | join | commit | abort | phase | awaitPhase | report | sweep => exact h.elim

theorem request? (h : task.IsLease id) : ∃ q, task.request? = some q ∧ q.IsLease := by
  cases task with
  | renew | cancel => exact ⟨_, rfl, trivial⟩
  | create | join | commit | abort | phase | awaitPhase | report | sweep => exact h.elim

theorem conclude (h : task.IsLease id) (m : Manager) (place : Nat) (answer : Answer) :
    m.conclude task place answer = .answered answer := by
  cases task with
  | renew | cancel => cases answer <;> rfl
  | create | join | commit | abort | phase | awaitPhase | report | sweep => exact h.elim

end Task.IsLease

/-- The clock readings of every visit agree. -/
def Move.IsSteady : Move → Prop
  | .act _ action => action.IsSteady
  | _ => True

instance : DecidablePred Move.IsSteady
  | .act _ action => inferInstanceAs (Decidable action.IsSteady)
  | .ask _ | .proceed .. | .survey .. => .isTrue trivial

namespace Manager

/-- The transaction with a number is decided, whether or not it has been evicted. -/
def Settled (m : Manager) (id : TransactionId) : Prop :=
  ∃ place record, numberAt place = id ∧ m.coordinator.record? place = some record ∧
    record.phase.isTerminal = true

/-- The answer that an errand has got, or will get once its operation has delivered its aborts. -/
def answer? (m : Manager) (i : Nat) : Option Answer :=
  match m.errand? i with
  | some (.underway _ place operation) =>
    (m.coordinator.stage? place operation).bind Stage.answer?
  | some (.finished (.answered answer)) => some answer
  | _ => none

variable {config : Config} {rules : Rules} {turns : List Turn} {m m' : Manager}
  {i j place operation : Nat} {e e' : Errand} {move : Move} {id : TransactionId} {task : Task}
  {x y : Transaction} {s : Stage} {q : Request} {answer : Answer}

theorem answer?_underway (he : m.errand? i = some (.underway task place operation))
    (hx : m.coordinator.transactions[place]? = some x) (hs : x.stage? operation = some s) :
    m.answer? i = s.answer? := by
  rw [answer?, he]
  show (m.coordinator.stage? place operation).bind Stage.answer? = _
  rw [Coordinator.stage?, hx, Option.bind_some, hs, Option.bind_some]

theorem answer?_answered (he : m.errand? i = some (.finished (.answered answer))) :
    m.answer? i = some answer := by
  rw [answer?, he]

theorem answer?_begun (he : m.errand? i = some (.begun task)) : m.answer? i = none := by
  rw [answer?, he]

theorem answer?_panicked {message : String} (he : m.errand? i = some (.panicked message)) :
    m.answer? i = none := by
  rw [answer?, he]

/-! ## Decided transactions -/

theorem Settled.step (h : m.Settled id) (hc : Coordinator.Reached rules m.coordinator)
    (hstep : m.step move = some m') : m'.Settled id := by
  obtain ⟨place, record, hnumber, hrecord, hd⟩ := h
  obtain ⟨x, hx, rfl⟩ := Option.map_eq_some_iff.mp hrecord
  obtain ⟨y, hy, rfl | ⟨a, counts, hmove, -⟩⟩ := transaction_of_step hstep hx
  · exact ⟨place, _, hnumber, congrArg (Option.map Transaction.record) hy, hd⟩
  · refine ⟨place, _, hnumber, congrArg (Option.map Transaction.record) hy, ?_⟩
    rw [((hc.sound hx).step_later hmove).phase_eq hd]
    exact hd

/-- The only transaction with a number that is settled is decided. -/
theorem Settled.decided (h : m.Settled id) (hone : m.NumbersOne id)
    (hx : m.coordinator.transactions[place]? = some x) (hnumber : numberAt place = id) :
    x.record.phase.isTerminal = true := by
  obtain ⟨p, record, hp, hrecord, hd⟩ := h
  obtain ⟨x', hx', rfl⟩ := Option.map_eq_some_iff.mp hrecord
  obtain rfl := hone p (List.getElem?_eq_some_iff.mp hx').1 place
    (List.getElem?_eq_some_iff.mp hx).1 hp hnumber
  obtain rfl := Option.some.inj (hx'.symm.trans hx)
  exact hd

theorem settled_of_terminal (hy : m.coordinator.transactions[place]? = some y)
    (hnumber : numberAt place = id) (hd : y.record.phase.isTerminal = true) : m.Settled id :=
  ⟨place, y.record, hnumber, congrArg (Option.map Transaction.record) hy, hd⟩

/-- What has been evicted is decided. -/
theorem Run.evicted_settled (h : Run config turns m) (hone : m.NumbersOne id)
    (hevicted : ∃ t ∈ turns, t.Evicts id) : m.Settled id := by
  induction h with
  | start =>
      obtain ⟨t, ht, -⟩ := hevicted
      cases ht
  | @next turns m m' move hrun hstep ih =>
      have hone' := hone.before hstep
      obtain ⟨t, ht, hevicts⟩ := hevicted
      rcases List.mem_append.mp ht with ht | ht
      · exact (ih hone' ⟨t, ht, hevicts⟩).step hrun.reached hstep
      · obtain rfl := List.mem_singleton.mp ht
        obtain ⟨hpresent, hnone⟩ := hevicts
        rcases entry?_of_step hstep hrun.numbered hrun.apart hone' with
          hsame | ⟨j, entry, -, -, -, hnone', -⟩ | ⟨j, sweep, entry, operation, record, -, -, -,
            hrecord, hd, -, -⟩
        · exact absurd (hsame.symm.trans hnone) hpresent
        · exact absurd hnone' hpresent
        · obtain ⟨entry, hentry, hplace⟩ := Option.bind_eq_some_iff.mp hrecord
          obtain ⟨hmem, rfl⟩ := mem_of_entry?_eq_some hentry
          have hsettled : m.Settled entry.id :=
            ⟨entry.place, record, (hrun.numbered.id entry (.inl hmem)).symm, hplace, hd⟩
          exact hsettled.step hrun.reached hstep

/-- A transaction that has been created is decided if its number leads nowhere. -/
theorem Run.settled_of_absent (h : Run config turns m) (hone : m.NumbersOne id)
    (hi : m.named? i = some id) (hnone : m.entry? id = none) : m.Settled id := by
  rcases h.resolves hone hi with hevicted | ⟨place, -, hentry⟩
  · exact h.evicted_settled hone hevicted
  · rw [hnone] at hentry
    cases hentry

/-! ## The moves of an operation on a lease -/

/-- What the look-up of a lease leads to. -/
theorem lookUp_lease (hlease : task.IsLease id) (h : m.lookUp i task id = some m') :
    (m.entry? id = none ∧ m' = m.put i (.finished (.refused (.unknownLease id)))) ∨
    ∃ place operation q c, task.request? = some q ∧
      m.coordinator.step place (.begin q) = some c ∧
      c.stage? place operation = some (.requested q) ∧
      m' = { m with coordinator := c }.put i (.underway task place operation) := by
  rcases lookUp_cases h with ⟨hnone, rfl⟩ | ⟨entry, -, hnoRequest, -⟩ |
    ⟨entry, q, x, -, hq, hx, c, hc, rfl⟩
  · rw [hlease.unknown]
    exact .inl ⟨hnone, rfl⟩
  · obtain ⟨q, hq, -⟩ := hlease.request?
    rw [hq] at hnoRequest
    cases hnoRequest
  · have hstage : (x.begun q).stage? x.operations.length = some (.requested q) :=
      List.getElem?_concat_length
    exact .inr ⟨entry.place, x.operations.length, q, c, hq, hc,
      Option.bind_eq_some_iff.mpr ⟨_, Coordinator.step_begin hx hc, hstage⟩, rfl⟩

/-- What a move of the manager is to an operation on a lease. -/
theorem lease_stage_of_step (h : m.step move = some m') (hsteady : move.IsSteady)
    (hc : Coordinator.Reached rules m.coordinator)
    (hx : m.coordinator.transactions[place]? = some x) (hs : x.stage? operation = some s)
    (hserves : s.Serves q) (hq : q.IsLease) :
    ∃ y s', m'.coordinator.transactions[place]? = some y ∧ y.stage? operation = some s' ∧
      (s' = s ∨ (∃ a, move = .act place a ∧ a.operation? = some operation) ∧
        ((s = .requested q ∧ LeaseMet x.record y.record q s') ∨
          (y.record = x.record ∧ s.isOver = false ∧
            (s'.answer? = s.answer? ∨ ∃ message, s' = .panicked message)))) := by
  have hsound := hc.sound hx
  obtain ⟨y, hy, rfl | ⟨a, counts, hstep, hmove⟩⟩ := transaction_of_step h hx
  · exact ⟨y, s, hy, hs, .inl rfl⟩
  rw [hc.rules_eq] at hstep
  by_cases hown : a.operation? = some operation
  · rcases hmove with rfl | ⟨q', rfl⟩
    · obtain ⟨s', hs', hgoes⟩ :=
        Transaction.step_lease hsound (hc.leaseAgrees hx) hs hserves hq hown hsteady hstep
      exact ⟨y, s', hy, hs', .inr ⟨⟨a, rfl, hown⟩, hgoes⟩⟩
    · cases hown
  · -- another operation has moved
    exact ⟨y, s, hy, hsound.stage?_of_other hs hown hstep, .inl rfl⟩

/-- The operation of an errand about a lease. -/
theorem Run.lease_operation (hrun : Run config turns m) (hlease : task.IsLease id)
    (he : m.errand? i = some (.underway task place operation)) :
    numberAt place = id ∧ ∃ q x s, task.request? = some q ∧ q.IsLease ∧
      m.coordinator.transactions[place]? = some x ∧ x.stage? operation = some s ∧ s.Serves q := by
  obtain ⟨hid, -, q, x, s, hq, hx, hs, hserves⟩ := hrun.working.runs i task place operation he
  obtain ⟨q', hq', hlease'⟩ := hlease.request?
  obtain rfl := Option.some.inj (hq'.symm.trans hq)
  exact ⟨Option.some.inj (hid.symm.trans hlease.id?), q', x, s, hq, hlease', hx, hs, hserves⟩

/-- What is asked about a lease is pursued. -/
theorem Run.pursuing (hrun : Run config turns m) (htask : (asked turns)[i]? = some task)
    (hlease : task.IsLease id) : ∀ e, m.errand? i = some e → e.Pursues task := by
  intro e he
  obtain ⟨q, hq, -⟩ := hlease.request?
  obtain ⟨e', he', hp⟩ := hrun.pursues htask hq
  exact Option.some.inj (he'.symm.trans he) ▸ hp

/-- How an errand about a lease can have an answer after a move from `m` to `m'`. -/
inductive Answers (m : Manager) (move : Move) (m' : Manager) (id : TransactionId) (task : Task)
    (i : Nat) (answer : Answer) : Prop
  | before : m.answer? i = some answer → Answers m move m' id task i answer
  /-- Its number leads nowhere. -/
  | absent : m.entry? id = none → answer = .refused (.unknownLease id) →
    Answers m move m' id task i answer
  /-- Its request has just been met. -/
  | met {place operation : Nat} {a : Action} {q : Request} {x y : Transaction} {s : Stage} :
    m.errand? i = some (.underway task place operation) → move = .act place a →
    a.operation? = some operation → numberAt place = id →
    m.coordinator.transactions[place]? = some x →
    m'.coordinator.transactions[place]? = some y → LeaseMet x.record y.record q s →
    s.answer? = some answer → Answers m move m' id task i answer

/-- An errand that is asked for has no answer yet. -/
theorem answer?_of_new (h : m.step move = some m') (he : m.errand? i = none) :
    m'.answer? i = none := by
  cases he' : m'.errand? i with
  | none => rw [answer?, he']
  | some e' =>
      rcases errand?_of_step h he' with hold | ⟨task', rfl⟩ | ⟨e, m₁, -, hsome, -⟩
      · rw [he] at hold
        cases hold
      · exact answer?_begun he'
      · rw [he] at hsome
        cases hsome

/-- A look-up leads to an answer only if there is nothing to be found. -/
theorem answers_of_begun (h : m.step move = some m') (hlease : task.IsLease id)
    (he : m.errand? i = some (.begun task)) (ha : m'.answer? i = some answer) :
    Answers m move m' id task i answer := by
  rcases begun_next h he hlease.id? with hsame | hlook
  · rw [answer?_begun hsame] at ha
    cases ha
  · rcases lookUp_lease hlease hlook with ⟨hnone, rfl⟩ |
      ⟨place, operation, q, c, -, -, hstage, rfl⟩
    · have hrefused : Answer.refused (.unknownLease id) = answer :=
        Option.some.inj ((answer?_answered (errand?_put_self he rfl)).symm.trans ha)
      exact .absent hnone hrefused.symm
    · -- the operation has only begun
      have hself : ({ m with coordinator := c }.put i
          (.underway task place operation)).errand? i =
            some (.underway task place operation) := errand?_put_self he rfl
      obtain ⟨y, hy, hs⟩ := Option.bind_eq_some_iff.mp hstage
      cases (answer?_underway hself hy hs).symm.trans ha

theorem answers_of_underway (hrun : Run config turns m) (h : m.step move = some m')
    (hsteady : move.IsSteady) (hlease : task.IsLease id)
    (he : m.errand? i = some (.underway task place operation)) (ha : m'.answer? i = some answer) :
    Answers m move m' id task i answer := by
  obtain ⟨hnumber, q, x, s, -, hq, hx, hs, hserves⟩ := hrun.lease_operation hlease he
  have hbefore := answer?_underway he hx hs
  rcases underway_next h he with hsame | ⟨answer', hstage, rfl⟩ | ⟨message, -, rfl⟩
  · obtain ⟨y, s', hy, hs', hgoes⟩ := lease_stage_of_step h hsteady hrun.reached hx hs hserves hq
    rw [answer?_underway hsame hy hs'] at ha
    rcases hgoes with rfl | ⟨⟨a, hmove, hown⟩, ⟨-, hmet⟩ | ⟨-, -, hanswer | ⟨message, rfl⟩⟩⟩
    · exact .before (hbefore.trans ha)
    · exact .met he hmove hown hnumber hx hy hmet ha
    · exact .before (hbefore.trans (hanswer ▸ ha))
    · cases ha
  · -- the errand takes the answer over
    rw [hlease.conclude, answer?_answered (errand?_put_self he rfl)] at ha
    obtain rfl := Option.some.inj ha
    rw [Coordinator.stage?, hx, Option.bind_some, hs] at hstage
    obtain rfl := Option.some.inj hstage
    exact .before hbefore
  · rw [answer?_panicked (errand?_put_self he rfl)] at ha
    cases ha

/-- **Where an answer about a lease comes from.** -/
theorem answers_of_step (hrun : Run config turns m) (h : m.step move = some m')
    (hsteady : move.IsSteady) (hlease : task.IsLease id)
    (hp : ∀ e, m.errand? i = some e → e.Pursues task) (ha : m'.answer? i = some answer) :
    Answers m move m' id task i answer := by
  cases he : m.errand? i with
  | none =>
      rw [answer?_of_new h he] at ha
      cases ha
  | some e =>
      cases hp e he with
      | begun => exact answers_of_begun h hlease he ha
      | underway => exact answers_of_underway hrun h hsteady hlease he ha
      | answered =>
          rw [answer?_answered (over_next h he rfl)] at ha
          exact .before ((answer?_answered he).trans ha)
      | panicked =>
          rw [answer?_panicked (over_next h he rfl)] at ha
          cases ha

/-! ## Refusals -/

/-- **A refusal shows that the transaction is decided.** Once a transaction has been created,
whatever is refused about its lease has been refused before, or it is decided by now. -/
theorem refused_of_step (hrun : Run config turns m) (h : m.step move = some m')
    (hsteady : move.IsSteady) (hone : m'.NumbersOne id) (hnamed : m.named? j = some id)
    (hlease : task.IsLease id) (hp : ∀ e, m.errand? i = some e → e.Pursues task)
    {id' : TransactionId} (ha : m'.answer? i = some (.refused (.unknownLease id'))) :
    m.answer? i = some (.refused (.unknownLease id')) ∨ m'.Settled id := by
  cases answers_of_step hrun h hsteady hlease hp ha with
  | before hbefore => exact .inl hbefore
  | absent hnone =>
      exact .inr ((hrun.settled_of_absent (hone.before h) hnamed hnone).step hrun.reached h)
  | met _ _ _ hnumber _ hy hmet hanswer =>
      cases hmet with
      | refused hd => exact .inr (settled_of_terminal hy hnumber hd)
      | cancelled _ hd => exact .inr (settled_of_terminal hy hnumber hd)
      | renewed => cases hanswer

/-- What is asked about the lease of a transaction after its creation is refused only if the
transaction is decided. -/
theorem Run.refused_settled {past rest : List Turn} {m₀ : Manager} {id' : TransactionId}
    (h : Run config (past ++ rest) m) (hpast : Run config past m₀)
    (hsteady : ∀ t ∈ rest, t.move.IsSteady) (hone : m.NumbersOne id)
    (hnamed : m₀.named? j = some id) (hi : m₀.errands.length ≤ i)
    (htask : (asked (past ++ rest))[i]? = some task) (hlease : task.IsLease id)
    (ha : m.answer? i = some (.refused (.unknownLease id'))) : m.Settled id := by
  have hall : m.named? j = some id ∧ (m.NumbersOne id → ∀ task,
      (asked (past ++ rest))[i]? = some task → task.IsLease id →
      m.answer? i = some (.refused (.unknownLease id')) → m.Settled id) := by
    refine h.since (P := fun turns m => m.named? j = some id ∧ (m.NumbersOne id → ∀ task,
      (asked turns)[i]? = some task → task.IsLease id →
      m.answer? i = some (.refused (.unknownLease id')) → m.Settled id)) hpast
      ⟨hnamed, fun _ task htask => ?_⟩ (fun turns t ht hrun ih hstep => ?_)
    · -- nothing has been asked since
      rw [List.getElem?_eq_none (by rw [hpast.asked_length]; exact hi)] at htask
      cases htask
    · refine ⟨named?_stays hstep ih.1, fun hone task htask hlease ha => ?_⟩
      rcases asked_before hrun hstep htask with hearlier | ⟨-, hnew⟩
      · rcases refused_of_step hrun hstep (hsteady t ht) hone ih.1 hlease
          (hrun.pursuing hearlier hlease) ha with hbefore | hsettled
        · exact (ih.2 (hone.before hstep) task hearlier hlease hbefore).step hrun.reached hstep
        · exact hsettled
      · rw [answer?_begun hnew] at ha
        cases ha
  exact hall.2 hone task htask hlease ha

/-! ## After the decision -/

/-- Where an errand about the lease of a decided transaction can stand. -/
inductive Declines (m : Manager) (id : TransactionId) (task : Task) : Errand → Prop
  | begun : Declines m id task (.begun task)
  | waiting {place operation : Nat} {q : Request} : task.request? = some q →
    m.coordinator.stage? place operation = some (.requested q) →
    Declines m id task (.underway task place operation)
  | refused {place operation : Nat} :
    m.coordinator.stage? place operation = some (.finished (.refused (.unknownLease id))) →
    Declines m id task (.underway task place operation)
  | ended : Declines m id task (.finished (.refused (.unknownLease id)))

theorem Declines.over_eq (hd : m.Declines id task e) (hover : e.isOver = true) :
    e = .finished (.refused (.unknownLease id)) := by
  cases hd with
  | begun | waiting | refused => cases hover
  | ended => rfl

/-- **A decided transaction refuses everything about its lease.** -/
theorem Declines.step (hrun : Run config turns m) (h : m.step move = some m')
    (hone : m.NumbersOne id) (hsettled : m.Settled id) (hlease : task.IsLease id)
    (he : m.errand? i = some e) (hd : m.Declines id task e) :
    ∃ e', m'.errand? i = some e' ∧ m'.Declines id task e' := by
  have hreached := hrun.reached
  cases hd with
  | begun =>
      rcases begun_next h he hlease.id? with hsame | hlook
      · exact ⟨_, hsame, .begun⟩
      · rcases lookUp_lease hlease hlook with ⟨-, rfl⟩ |
          ⟨place, operation, q, c, hq, -, hstage, rfl⟩
        · exact ⟨_, errand?_put_self he rfl, .ended⟩
        · exact ⟨_, errand?_put_self he rfl, .waiting hq hstage⟩
  | @waiting place operation q hq hstage =>
      rcases underway_next h he with hsame | ⟨answer, hover, -⟩ | ⟨message, hover, -⟩
      · obtain ⟨x, hx, hs⟩ := Option.bind_eq_some_iff.mp hstage
        have hnumber := (hrun.lease_operation hlease he).1
        have hdecided := hsettled.decided hone hx hnumber
        obtain ⟨y, hy, rfl | ⟨a, counts, hmove, -⟩⟩ := transaction_of_step h hx
        · exact ⟨_, hsame, .waiting hq (Option.bind_eq_some_iff.mpr ⟨y, hy, hs⟩)⟩
        by_cases hown : a.operation? = some operation
        · -- the visit
          obtain ⟨q', hq', hlease'⟩ := hlease.request?
          obtain rfl := Option.some.inj (hq'.symm.trans hq)
          have hs' := Transaction.step_decided hdecided hs hown hmove
          rw [Record.decidedAnswer_lease hlease', hrun.record_id hx, hnumber] at hs'
          exact ⟨_, hsame, .refused (Option.bind_eq_some_iff.mpr ⟨y, hy, hs'⟩)⟩
        · refine ⟨_, hsame, .waiting hq (Option.bind_eq_some_iff.mpr ⟨y, hy, ?_⟩)⟩
          exact (hreached.sound hx).stage?_of_other hs hown hmove
      · rw [hstage] at hover
        cases hover
      · rw [hstage] at hover
        cases hover
  | @refused place operation hstage =>
      rcases underway_next h he with hsame | ⟨answer, hover, rfl⟩ | ⟨message, hover, -⟩
      · exact ⟨_, hsame, .refused (stage?_stays h hreached hstage rfl)⟩
      · rw [hstage] at hover
        obtain rfl := Stage.finished.inj (Option.some.inj hover)
        rw [hlease.conclude]
        exact ⟨_, errand?_put_self he rfl, .ended⟩
      · rw [hstage] at hover
        cases hover
  | ended => exact ⟨_, over_next h he rfl, .ended⟩

/-- What is asked about the lease of a transaction after its decision is declined. -/
theorem Run.declines {past rest : List Turn} {m₁ : Manager} (h : Run config (past ++ rest) m)
    (hpast : Run config past m₁) (hone : m.NumbersOne id) (hsettled : m₁.Settled id)
    (hi : m₁.errands.length ≤ i) (htask : (asked (past ++ rest))[i]? = some task)
    (hlease : task.IsLease id) : ∃ e, m.errand? i = some e ∧ m.Declines id task e := by
  have hall : m.Settled id ∧ (m.NumbersOne id → ∀ task,
      (asked (past ++ rest))[i]? = some task → task.IsLease id →
      ∃ e, m.errand? i = some e ∧ m.Declines id task e) := by
    refine h.since (P := fun turns m => m.Settled id ∧ (m.NumbersOne id → ∀ task,
      (asked turns)[i]? = some task → task.IsLease id →
      ∃ e, m.errand? i = some e ∧ m.Declines id task e)) hpast
      ⟨hsettled, fun _ task htask => ?_⟩ (fun turns t _ hrun ih hstep => ?_)
    · rw [List.getElem?_eq_none (by rw [hpast.asked_length]; exact hi)] at htask
      cases htask
    · refine ⟨ih.1.step hrun.reached hstep, fun hone task htask hlease => ?_⟩
      have hone' := hone.before hstep
      rcases asked_before hrun hstep htask with hearlier | ⟨-, hnew⟩
      · obtain ⟨e, he, hd⟩ := ih.2 hone' task hearlier hlease
        exact hd.step hrun hstep hone' ih.1 hlease he
      · exact ⟨_, hnew, .begun⟩
  exact hall.2 hone task htask hlease

/-- There are moves after which an errand has been refused as the lease is unknown. -/
def CanRefuse (m : Manager) (id : TransactionId) (i : Nat) : Prop :=
  ∃ moves turns d, m.play moves = some (turns, d) ∧ (∀ t ∈ turns, t.move.IsSteady) ∧
    d.errand? i = some (.finished (.refused (.unknownLease id)))

theorem canRefuse_of_over (he : m.errand? i = some (.finished (.refused (.unknownLease id)))) :
    m.CanRefuse id i :=
  ⟨[], [], m, rfl, fun _ ht => (nomatch ht), he⟩

theorem CanRefuse.before (h : m'.CanRefuse id i) (hstep : m.step move = some m')
    (hsteady : move.IsSteady) : m.CanRefuse id i := by
  obtain ⟨moves, turns, d, hplay, hturns, hd⟩ := h
  refine ⟨move :: moves, { before := m, move := move, after := m' } :: turns, d, ?_,
    List.forall_mem_cons.mpr ⟨hsteady, hturns⟩, hd⟩
  simp only [play, hstep, hplay, Option.bind_some, Option.map_some]

theorem canRefuse_of_refused (hlease : task.IsLease id)
    (he : m.errand? i = some (.underway task place operation))
    (hstage : m.coordinator.stage? place operation =
      some (.finished (.refused (.unknownLease id)))) : m.CanRefuse id i := by
  have hstep : m.step (.proceed i .epoch) =
      some (m.put i (.finished (.refused (.unknownLease id)))) := by
    simp only [step, he, Option.bind_some, proceed, hstage, hlease.conclude]
    rfl
  exact (canRefuse_of_over (errand?_put_self he rfl)).before hstep trivial

theorem canRefuse_of_waiting (hrun : Run config turns m) (hone : m.NumbersOne id)
    (hsettled : m.Settled id) (hlease : task.IsLease id)
    (he : m.errand? i = some (.underway task place operation)) (hq : task.request? = some q)
    (hstage : m.coordinator.stage? place operation = some (.requested q)) : m.CanRefuse id i := by
  have hreached := hrun.reached
  obtain ⟨x, hx, hs⟩ := Option.bind_eq_some_iff.mp hstage
  have hnumber := (hrun.lease_operation hlease he).1
  obtain ⟨q', hq', hlease'⟩ := hlease.request?
  obtain rfl := Option.some.inj (hq'.symm.trans hq)
  have hdecided := hsettled.decided hone hx hnumber
  have hawake := (hreached.rested hx).awake hs (fun w heq => nomatch heq)
  have hvisit := Transaction.step_visit (t := .steady .epoch) hs hawake
    (Stage.visit?_decided hdecided m.coordinator.rules.lease _ q')
  obtain ⟨c, hstep, hy⟩ := step_act_of hx rfl hvisit
  have hanswer : x.record.decidedAnswer q' = .refused (.unknownLease id) := by
    rw [Record.decidedAnswer_lease hlease', hrun.record_id hx, hnumber]
  have hs' := (Transaction.step_decided hdecided hs rfl hvisit).trans
    (congrArg (fun answer => some (Stage.finished answer)) hanswer)
  have hlater : CanRefuse { m with coordinator := c } id i :=
    canRefuse_of_refused hlease he (Option.bind_eq_some_iff.mpr ⟨_, hy, hs'⟩)
  exact hlater.before hstep rfl

/-- A task on a transaction that exists can look it up. -/
theorem exists_lookUp (hm : m.Numbered) (he : m.errand? i = some (.begun task))
    (hid : task.id? = some id) (now : Timestamp) :
    ∃ m', m.step (.proceed i now) = some m' ∧ m.lookUp i task id = some m' := by
  have hlook : ∃ m', m.lookUp i task id = some m' := by
    unfold lookUp
    split
    · exact ⟨_, rfl⟩
    · rename_i entry hentry
      split
      · exact ⟨_, rfl⟩
      · have hplace := hm.place entry (.inl (mem_of_entry?_eq_some hentry).1)
        have hx := List.getElem?_eq_getElem hplace
        simp only [begin?, Coordinator.step, hx, Option.bind_some, Option.map_some,
          Transaction.step]
        exact ⟨_, rfl⟩
  obtain ⟨m', hm'⟩ := hlook
  refine ⟨m', ?_, hm'⟩
  simp only [step, he, Option.bind_some]
  cases task with
  | create | sweep => cases hid
  | _ =>
      obtain rfl := Option.some.inj hid
      exact hm'

/-- **Whoever is declined can go on to the refusal.** -/
theorem Declines.canRefuse (hrun : Run config turns m) (hone : m.NumbersOne id)
    (hsettled : m.Settled id) (hlease : task.IsLease id) (he : m.errand? i = some e)
    (hd : m.Declines id task e) : m.CanRefuse id i := by
  cases hd with
  | begun =>
      obtain ⟨m', hstep, hlook⟩ := exists_lookUp hrun.numbered he hlease.id? .epoch
      refine CanRefuse.before ?_ hstep trivial
      rcases lookUp_lease hlease hlook with ⟨-, rfl⟩ | ⟨place, operation, q, c, hq, hc, hstage, rfl⟩
      · exact canRefuse_of_over (errand?_put_self he rfl)
      · have hissued : c.transactions.length = m.issued := Coordinator.step_length hc
        have hone' : NumbersOne { m with coordinator := c } id :=
          hone.of_le (Nat.le_of_eq hissued)
        exact canRefuse_of_waiting (hrun.next hstep) hone' (hsettled.step hrun.reached hstep) hlease
          (errand?_put_self he rfl) hq hstage
  | waiting hq hstage => exact canRefuse_of_waiting hrun hone hsettled hlease he hq hstage
  | refused hstage => exact canRefuse_of_refused hlease he hstage
  | ended => exact canRefuse_of_over he

/-! ## Cancellations -/

/-- **A cancellation that is accepted decides the transaction.** -/
theorem done_of_step (hrun : Run config turns m) (h : m.step move = some m')
    (hsteady : move.IsSteady) (hone : m'.NumbersOne id) (hlease : task.IsLease id)
    (hp : ∀ e, m.errand? i = some e → e.Pursues task) (ha : m'.answer? i = some .done) :
    m.answer? i = some .done ∨
    (m'.Settled id ∧ ¬ m.Settled id ∧ ∃ place operation a,
      m.errand? i = some (.underway task place operation) ∧ move = .act place a ∧
        a.operation? = some operation) := by
  cases answers_of_step hrun h hsteady hlease hp ha with
  | before hbefore => exact .inl hbefore
  | absent _ hanswer => cases hanswer
  | @met place operation a _ _ _ _ he hmove hown hnumber hx hy hmet hanswer =>
      cases hmet with
      | refused _ _ hrefused =>
          rw [hrefused] at hanswer
          cases hanswer
      | cancelled hu hd =>
          refine .inr ⟨settled_of_terminal hy hnumber hd, fun hsettled => ?_, place, operation, a,
            he, hmove, hown⟩
          rw [hsettled.decided (hone.before h) hx hnumber] at hu
          cases hu
      | renewed => cases hanswer

/-- Of the cancellations of one transaction at most one is accepted, and if one is, the transaction
is decided. -/
theorem Run.cancelled_once (h : Run config turns m) (hsteady : ∀ t ∈ turns, t.move.IsSteady)
    (hone : m.NumbersOne id) :
    (∀ i, (asked turns)[i]? = some (.cancel id) → m.answer? i = some .done → m.Settled id) ∧
    (∀ i j, (asked turns)[i]? = some (.cancel id) → (asked turns)[j]? = some (.cancel id) →
      m.answer? i = some .done → m.answer? j = some .done → i = j) := by
  induction h with
  | start => exact ⟨fun _ hi => (nomatch hi), fun _ _ hi => (nomatch hi)⟩
  | @next turns m m' move hrun hstep ih =>
      have hone' := hone.before hstep
      obtain ⟨hsettles, honce⟩ := ih (fun t ht => hsteady t (List.mem_append_left _ ht)) hone'
      have hmove : move.IsSteady :=
        hsteady { before := m, move := move, after := m' }
          (List.mem_append_right _ (List.mem_singleton_self _))
      have hlease : (Task.cancel id).IsLease id := rfl
      -- whoever is accepted now was accepted before, or decides the transaction in this move
      have hdone : ∀ i, (asked (turns ++ [{ before := m, move := move, after := m' }]))[i]? =
          some (.cancel id) → m'.answer? i = some .done →
          ((asked turns)[i]? = some (.cancel id) ∧ m.answer? i = some .done) ∨
          (m'.Settled id ∧ ¬ m.Settled id ∧ ∃ place operation a,
            m.errand? i = some (.underway (.cancel id) place operation) ∧ move = .act place a ∧
              a.operation? = some operation) := by
        intro i hi ha
        rcases asked_before hrun hstep hi with hearlier | ⟨-, hnew⟩
        · exact (done_of_step hrun hstep hmove hone hlease (hrun.pursuing hearlier hlease)
            ha).imp_left fun hbefore => ⟨hearlier, hbefore⟩
        · rw [answer?_begun hnew] at ha
          cases ha
      refine ⟨fun i hi ha => ?_, fun i j hi hj ha hb => ?_⟩
      · rcases hdone i hi ha with ⟨hi, ha⟩ | ⟨hsettled, -⟩
        · exact (hsettles i hi ha).step hrun.reached hstep
        · exact hsettled
      · rcases hdone i hi ha with ⟨hi, ha⟩ | ⟨-, hopen, place, operation, a, he, hact, hown⟩ <;>
        rcases hdone j hj hb with ⟨hj, hb⟩ | ⟨-, hopen', place', operation', a', he', hact', hown'⟩
        · exact honce i j hi hj ha hb
        · exact absurd (hsettles i hi ha) hopen'
        · exact absurd (hsettles j hj hb) hopen
        · -- both have decided it, so they run the same operation
          obtain ⟨rfl, rfl⟩ := Move.act.inj (hact.symm.trans hact')
          obtain rfl := Option.some.inj (hown.symm.trans hown')
          exact hrun.working.apart i j _ _ place operation he he'

/-! ## Expirations -/

/-- The turn is a move of an errand or of the operation that runs for it. -/
def Turn.IsFor (i : Nat) (t : Turn) : Prop :=
  t.move.errand? = some i ∨ ∃ task place operation a,
    t.before.errand? i = some (.underway task place operation) ∧ t.move = .act place a ∧
      a.operation? = some operation

/-- The expiration of the lease of the transaction at a place. -/
def expiration? (m : Manager) (place : Nat) : Option Expiration :=
  (m.coordinator.record? place).map fun record => record.lease.expiration

/-- All leases that there are expire when they did before. -/
def KeepsExpirations (m m' : Manager) : Prop :=
  ∀ place expiration, m.expiration? place = some expiration →
    m'.expiration? place = some expiration

/-- An errand about a lease has been given its answer, or its operation has come to that answer. -/
def Concludes (m : Manager) (id : TransactionId) (i : Nat) (answer : Answer) : Prop :=
  m.errand? i = some (.finished (.answered answer)) ∨ ∃ task place operation, task.IsLease id ∧
    m.errand? i = some (.underway task place operation) ∧
      m.coordinator.stage? place operation = some (.finished answer)

theorem Concludes.step (hc : Coordinator.Reached rules m.coordinator) (h : m.step move = some m')
    (ha : m.Concludes id i answer) : m'.Concludes id i answer := by
  rcases ha with he | ⟨task, place, operation, hlease, he, hstage⟩
  · exact .inl (over_next h he rfl)
  · rcases underway_next h he with hsame | ⟨answer', hover, rfl⟩ | ⟨message, hover, -⟩
    · exact .inr ⟨task, place, operation, hlease, hsame, stage?_stays h hc hstage rfl⟩
    · rw [hstage] at hover
      obtain rfl := Stage.finished.inj (Option.some.inj hover)
      rw [hlease.conclude]
      exact .inl (errand?_put_self he rfl)
    · rw [hstage] at hover
      cases hover

theorem expiration?_eq_some {expiration : Expiration} (h : m.expiration? place = some expiration) :
    ∃ x, m.coordinator.transactions[place]? = some x ∧ x.record.lease.expiration = expiration := by
  obtain ⟨record, hrecord, rfl⟩ := Option.map_eq_some_iff.mp h
  obtain ⟨x, hx, rfl⟩ := Option.map_eq_some_iff.mp hrecord
  exact ⟨x, hx, rfl⟩

theorem expiration?_of_transaction (hx : m.coordinator.transactions[place]? = some x) :
    m.expiration? place = some x.record.lease.expiration := by
  rw [expiration?, Coordinator.record?, hx]
  rfl

/-- A move of an errand itself leaves the leases alone. -/
theorem keepsExpirations_of_errand (h : m.step move = some m') (hmove : move.errand? = some i) :
    m.KeepsExpirations m' := by
  intro p expiration hp
  obtain ⟨x, hx, rfl⟩ := expiration?_eq_some hp
  obtain ⟨y, hy, rfl | ⟨a, counts, hstep, hact | ⟨q, rfl⟩⟩⟩ := transaction_of_step h hx
  · exact expiration?_of_transaction hy
  · rw [show move = .act p a from hact] at hmove
    cases hmove
  · obtain ⟨rfl, -⟩ := Prod.mk.inj (Option.some.inj hstep)
    rw [expiration?_of_transaction hy]

/-- A move of an operation leaves the leases alone that it does not change. -/
theorem keepsExpirations_of_act {a : Action} {c : Coordinator}
    (hc : m.coordinator.step place a = some c) (hx : m.coordinator.transactions[place]? = some x)
    (hy : c.transactions[place]? = some y)
    (hsame : y.record.lease.expiration = x.record.lease.expiration) :
    m.KeepsExpirations { m with coordinator := c } := by
  intro p expiration hp
  obtain ⟨x', hx', rfl⟩ := expiration?_eq_some hp
  by_cases hplace : place = p
  · subst hplace
    obtain rfl := Option.some.inj (hx'.symm.trans hx)
    rw [← hsame]
    exact expiration?_of_transaction hy
  · exact expiration?_of_transaction ((Coordinator.step_other hc hplace).trans hx')

/-- **Only a renewal that succeeds changes an expiration.** -/
theorem expiration_of_step (hrun : Run config turns m) (h : m.step move = some m')
    (hsteady : move.IsSteady) (hlease : task.IsLease id)
    (hp : ∀ e, m.errand? i = some e → e.Pursues task)
    (hfor : Turn.IsFor i { before := m, move := move, after := m' }) :
    m.KeepsExpirations m' ∨ ∃ expiration, m'.Concludes id i (.renewed expiration) := by
  have hreached := hrun.reached
  rcases hfor with hmove | ⟨task', place, operation, a, he, hmove, hown⟩
  · exact .inl (keepsExpirations_of_errand h hmove)
  have he' : m.errand? i = some (.underway task' place operation) := he
  cases hp _ he'
  obtain rfl : move = .act place a := hmove
  obtain ⟨c, hc, rfl⟩ := step_act h
  obtain ⟨-, q, x, s, -, hq, hx, hs, hserves⟩ := hrun.lease_operation hlease he'
  obtain ⟨y, counts, hy, hstep⟩ := Coordinator.step_at hx hc
  rw [hreached.rules_eq] at hstep
  obtain ⟨s', hs', hgoes⟩ := Transaction.step_lease (hreached.sound hx) (hreached.leaseAgrees hx)
    hs hserves hq hown hsteady hstep
  rcases hgoes with ⟨-, hmet⟩ | ⟨hrecord, -⟩
  · cases hmet with
    | refused _ hsame => exact .inl (keepsExpirations_of_act hc hx hy hsame)
    | cancelled _ _ hsame => exact .inl (keepsExpirations_of_act hc hx hy hsame)
    | renewed =>
        exact .inr ⟨_, .inr ⟨task, place, operation, hlease, he',
          Option.bind_eq_some_iff.mpr ⟨y, hy, hs'⟩⟩⟩
  · exact .inl (keepsExpirations_of_act hc hx hy (congrArg (fun r => r.lease.expiration) hrecord))

/-- An errand that moves, or whose operation does, has been asked for. -/
theorem Turn.IsFor.errand? {t : Turn} (hfor : t.IsFor i)
    (hstep : t.before.step t.move = some t.after) : ∃ e, t.before.errand? i = some e := by
  rcases hfor with hmove | ⟨task, place, operation, a, he, -⟩
  · rcases step_cases hstep with ⟨task, hno, -⟩ | ⟨place, action, c, hno, -⟩ |
      ⟨j, e, m₁, e', hj, he, -⟩
    · rw [hmove] at hno
      cases hno
    · rw [hmove] at hno
      cases hno
    · obtain rfl := Option.some.inj (hj.symm.trans hmove)
      exact ⟨e, he⟩
  · exact ⟨_, he⟩

/-- An errand about a lease that ends with anything but a renewal has not changed an expiration. -/
theorem Run.expirations_kept (h : Run config turns m) (hsteady : ∀ t ∈ turns, t.move.IsSteady)
    (htask : (asked turns)[i]? = some task) (hlease : task.IsLease id)
    (he : m.errand? i = some e) (hover : e.isOver = true)
    (hfailed : ∀ expiration, e ≠ .finished (.answered (.renewed expiration))) {t : Turn}
    (ht : t ∈ turns) (hfor : t.IsFor i) : t.before.KeepsExpirations t.after := by
  obtain ⟨past, rest, rfl⟩ := List.append_of_mem ht
  obtain ⟨hpast, hstep, -⟩ := h.cut
  obtain ⟨e₀, he₀⟩ := hfor.errand? hstep
  have hlt : i < (asked past).length := by
    rw [hpast.asked_length]
    exact (List.getElem?_eq_some_iff.mp he₀).1
  rw [asked_append, List.getElem?_append_left hlt] at htask
  rcases expiration_of_step hpast hstep (hsteady t ht) hlease (hpast.pursuing htask hlease)
    hfor with hkeeps | ⟨expiration, hrenewed⟩
  · exact hkeeps
  · -- a renewal that has succeeded ends as one
    have hsplit : past ++ t :: rest = (past ++ [t]) ++ rest := by simp
    rw [hsplit] at h
    have hlast : m.Concludes id i (.renewed expiration) :=
      h.since (P := fun _ m => m.Concludes id i (.renewed expiration)) (hpast.next hstep) hrenewed
        fun _ u _ hrun ih hmove => ih.step hrun.reached hmove
    rcases hlast with hfinished | ⟨task', place, operation, -, hunderway, -⟩
    · obtain rfl := Option.some.inj (he.symm.trans hfinished)
      exact absurd rfl (hfailed expiration)
    · obtain rfl := Option.some.inj (he.symm.trans hunderway)
      cases hover

end Manager

end LeasedCommit
