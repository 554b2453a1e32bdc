import LeasedCommit.Proofs.Decided
import LeasedCommit.Proofs.SoleErrand

set_option autoImplicit false

/-! # Operations that leave no trace

A task about an unknown number, or about a transaction that is decided, is answered without a call
and without a change, whatever the clock shows. The same is true of questions about an active
transaction whose lease has not lapsed, and a renewal changes its lease alone.

All of these are operations that only make visits and wait (`Quiet`), so the proof is one induction
along a sole run (`Manager.Serves`) for any predicate that their visits preserve. -/

namespace LeasedCommit

/-! ## Operations that only visit and wait -/

/-- Whenever the record and the stage of an operation are as in `P`, the operation only makes visits
and waits. Visits whose readings are as in `within` count nothing and lead to `P` again. -/
structure Quiet (policy : LeasePolicy) (within : Readings → Prop) (P : Record → Stage → Prop) :
    Prop where
  stage : ∀ r s, P r s → (∃ q, s = .requested q) ∨ (∃ w, s = .awaiting w) ∨ ∃ a, s = .finished a
  visit : ∀ r s t v, P r s → within t → s.visit? policy r t = some v →
    v.counts = .zero ∧ P v.record v.next
  giveUp : ∀ r w a, P r (.awaiting w) → P r (.finished a)

/-- If the action is a visit, its clock readings are as said. -/
def Action.Reads (within : Readings → Prop) : Action → Prop
  | .visit _ t => within t
  | .begin _ | .vote .. | .combinedVote .. | .acknowledge .. | .resume _ | .giveUp _ => True

/-- If the move is a visit of an operation, its clock readings are as said. -/
def Move.Reads (within : Readings → Prop) : Move → Prop
  | .act _ action => action.Reads within
  | .ask _ | .proceed .. | .survey .. => True

theorem Move.reads_of_forall {within : Readings → Prop} (h : ∀ t, within t) (move : Move) :
    move.Reads within := by
  cases move with
  | act place a =>
      cases a with
      | visit i t => exact h t
      | _ => trivial
  | _ => trivial

namespace Quiet

variable {within : Readings → Prop} {P : Record → Stage → Prop}

/-- **What a quiet operation does in one move.** -/
theorem step {rules : Rules} (h : Quiet rules.lease within P) {x y : Transaction} {i : Nat}
    {s : Stage} {a : Action} {counts : OutcomeCounts} (hs : x.stage? i = some s)
    (hP : P x.record s) (hi : a.operation? = some i) (ha : a.Reads within)
    (hstep : x.step rules a = some (y, counts)) :
    counts = .zero ∧ ∃ s', y.stage? i = some s' ∧ P y.record s' ∧ s'.call? = none := by
  have hcall : ∀ {r s}, P r s → s.call? = none := by
    intro r s hP
    rcases h.stage r s hP with ⟨q, rfl⟩ | ⟨w, rfl⟩ | ⟨a, rfl⟩ <;> rfl
  cases a with
  | begin q => cases hi
  | visit j t =>
      obtain rfl : j = i := Option.some.inj hi
      obtain ⟨v, hv, rfl, rfl⟩ := Transaction.visit_of_step hs hstep
      obtain ⟨hcounts, hnext⟩ := h.visit _ _ t v hP ha hv
      exact ⟨hcounts, v.next, (Transaction.stage?_visit hs).trans (if_pos rfl), hnext, hcall hnext⟩
  | vote j | combinedVote j | acknowledge j | resume j =>
      obtain rfl : j = i := Option.some.inj hi
      simp only [Transaction.step, hs, Option.bind_some, Option.map_eq_some_iff] at hstep
      obtain ⟨s', hs', -⟩ := hstep
      -- no call is out
      rcases h.stage _ _ hP with ⟨q, rfl⟩ | ⟨w, rfl⟩ | ⟨a, rfl⟩ <;> cases hs'
  | giveUp j =>
      obtain rfl : j = i := Option.some.inj hi
      simp only [Transaction.step, hs] at hstep
      split at hstep
      · rename_i target hwait
        obtain rfl := Option.some.inj hwait
        obtain ⟨rfl, rfl⟩ := Prod.mk.inj (Option.some.inj hstep)
        exact ⟨rfl, _, (Transaction.stage?_put hs).trans (if_pos rfl), h.giveUp _ _ _ hP, rfl⟩
      · cases hstep

end Quiet

/-! ### Operations that only look -/

/-- An operation with request `q` on a record that it leaves alone. -/
def Looking (r₀ : Record) (q : Request) (r : Record) (s : Stage) : Prop :=
  r = r₀ ∧ (s = .requested q ∨ (∃ w, s = .awaiting w) ∨ ∃ a, s = .finished a)

theorem Looking.quiet {policy : LeasePolicy} {within : Readings → Prop} {r₀ : Record}
    {q : Request} (h : ∀ t v, within t → (Stage.requested q).visit? policy r₀ t = some v →
      ∃ next, v = r₀.leave next ∧ ((∃ w, next = .awaiting w) ∨ ∃ a, next = .finished a)) :
    Quiet policy within (Looking r₀ q) where
  stage r s hP := hP.2.imp_left fun hs => ⟨q, hs⟩
  visit r s t v hP ht hv := by
    obtain ⟨rfl, rfl | ⟨w, rfl⟩ | ⟨a, rfl⟩⟩ := hP
    · obtain ⟨next, rfl, hnext⟩ := h t v ht hv
      exact ⟨rfl, rfl, .inr hnext⟩
    · obtain rfl := Option.some.inj hv
      refine ⟨rfl, rfl, .inr ?_⟩
      rw [Wait.look]
      split
      · exact .inr ⟨_, rfl⟩
      · exact .inl ⟨_, rfl⟩
    · cases hv
  giveUp r w a hP := ⟨hP.1, .inr (.inr ⟨a, rfl⟩)⟩

/-- A decided record is only looked at. -/
theorem Looking.quiet_decided {r₀ : Record} (hd : r₀.phase.isTerminal = true)
    (policy : LeasePolicy) (q : Request) :
    Quiet policy (fun _ => True) (Looking r₀ q) := by
  refine quiet fun t v _ hv => ?_
  rw [Stage.visit?_decided hd] at hv
  exact ⟨_, (Option.some.inj hv).symm, .inr ⟨_, rfl⟩⟩

/-- A wait for a phase only looks. -/
theorem Looking.quiet_awaitPhase (r₀ : Record) (target : Phase) (policy : LeasePolicy) :
    Quiet policy (fun _ => True) (Looking r₀ (.awaitPhase target)) := by
  refine quiet fun t v _ hv => ?_
  obtain rfl := Option.some.inj hv
  rw [Wait.look]
  refine ⟨_, rfl, ?_⟩
  split
  · exact .inr ⟨_, rfl⟩
  · exact .inl ⟨_, rfl⟩

/-- An operation that finds a lease that has not lapsed only looks at it. -/
theorem Looking.quiet_expire (r₀ : Record) (policy : LeasePolicy) :
    Quiet policy (fun t => r₀.lease.hasLapsed t.first = false) (Looking r₀ .expire) := by
  refine quiet fun t v ht hv => ?_
  have hnone : r₀.expire? t = none := by simp [Record.expire?, ht]
  obtain rfl := Option.some.inj hv
  rw [Record.expire, hnone]
  exact ⟨_, rfl, .inr ⟨_, rfl⟩⟩

/-! ### A renewal -/

/-- The record with another term of its lease. -/
def Record.withTerm (r : Record) (expiration : Expiration) (granted : Option Duration) : Record :=
  { r with lease := { r.lease with expiration := expiration, granted := granted } }

/-- A renewal on a record of which it changes at most the term of the lease. -/
def Renewing (r₀ : Record) (request : LeaseRequest) (r : Record) (s : Stage) : Prop :=
  (r = r₀ ∧ s = .requested (.renew request)) ∨
    (∃ a, s = .finished a) ∧ ∃ expiration granted, r = r₀.withTerm expiration granted

theorem Renewing.quiet {r₀ : Record} (hu : r₀.phase.isTerminal = false) (policy : LeasePolicy)
    (request : LeaseRequest) :
    Quiet policy (fun t => r₀.lease.hasLapsed t.first = false) (Renewing r₀ request) where
  stage r s hP := by
    rcases hP with ⟨-, rfl⟩ | ⟨⟨a, rfl⟩, -⟩
    · exact .inl ⟨_, rfl⟩
    · exact .inr (.inr ⟨a, rfl⟩)
  visit r s t v hP ht hv := by
    rcases hP with ⟨rfl, rfl⟩ | ⟨⟨a, rfl⟩, -⟩
    · obtain rfl := Option.some.inj hv
      have hnone : r.expire? t = none := by simp [Record.expire?, ht]
      simp only [Record.renew, hnone, hu, Bool.false_eq_true, if_false]
      split
      · -- the lease is extended
        rename_i expiration lease hlease
        obtain ⟨-, -, rfl⟩ := Lease.renew_eq_some hlease
        exact ⟨rfl, .inr ⟨⟨_, rfl⟩, _, _, rfl⟩⟩
      · rename_i lease hlease
        obtain rfl := Lease.renew_eq_none hlease
        exact ⟨rfl, .inr ⟨⟨_, rfl⟩, r.lease.expiration, r.lease.granted, rfl⟩⟩
    · cases hv
  giveUp r w a hP := by
    rcases hP with ⟨-, h⟩ | ⟨⟨a, h⟩, -⟩ <;> cases h

/-! ## The errand of a quiet operation -/

namespace Manager

variable {config : Config} {past turns : List Turn} {m m₁ m₂ m' : Manager} {task : Task}
  {id : TransactionId} {move : Move} {P : Record → Stage → Prop} {within : Readings → Prop}

/-- Where the errand of a quiet operation stands, and what it has made of the holdings of `m`. -/
inductive Serves (m : Manager) (task : Task) (id : TransactionId) (P : Record → Stage → Prop)
    (m' : Manager) : Prop
  | looking : m'.errand? m.errands.length = some (.begun task) → m'.coordinator = m.coordinator →
    m'.holdings = m.holdings → Serves m task id P m'
  | working {entry : Entry} {operation : Nat} {y : Transaction} {s : Stage} :
    m'.errand? m.errands.length = some (.underway task entry.place operation) →
    m.entry? id = some entry → m'.coordinator.transactions[entry.place]? = some y →
    y.stage? operation = some s → P y.record s →
    m'.holdings = m.holdings.put entry.place y.record .zero → Serves m task id P m'
  | ended {e : Errand} : m'.errand? m.errands.length = some e →
    (e.isOver = true ∨ ∃ place, e = .reading place) →
    (m'.holdings = m.holdings ∨ ∃ entry r s, m.entry? id = some entry ∧ P r s ∧
      m'.holdings = m.holdings.put entry.place r .zero) → Serves m task id P m'

/-- **One move of a quiet errand** keeps it where it serves, and makes no call. -/
theorem Serves.step (h : m.Serves task id P m₁) (hid : task.id? = some id)
    (hquiet : Quiet config.rules.lease within P)
    (hstart : ∀ entry q r, m.entry? id = some entry → task.request? = some q →
      m.coordinator.record? entry.place = some r → P r (.requested q))
    (hreached : Coordinator.Reached config.rules m₁.coordinator) (hstep : m₁.step move = some m₂)
    (hown : m₁.owns m.errands.length move = true) (hreads : move.Reads within) :
    m.Serves task id P m₂ ∧
      ∀ place, callsTo place [{ before := m₁, move := move, after := m₂ }] = [] := by
  cases h with
  | looking he hcoordinator hholdings =>
      rcases owns_cases hstep hown he with ⟨now, rfl, -⟩ | ⟨now, order, rfl, hsweep, -⟩ |
        ⟨place, operation, a, x, y, counts, rfl, hrunning, -⟩
      · refine ⟨?_, fun place => rfl⟩
        have htable : m₁.table = m.table := congrArg Holdings.table hholdings
        have hnamed : m₁.entry? id = m.entry? id := by
          unfold entry?
          rw [htable]
        rcases lookUp_cases (step_begun he hid hstep) with ⟨-, rfl⟩ | ⟨entry, -, -, rfl⟩ |
          ⟨entry, q, x, hentry, hq, hx, c, hc, rfl⟩
        · exact .ended (errand?_put_self he rfl) (.inl rfl) (.inl hholdings)
        · exact .ended (errand?_put_self he rfl) (.inr ⟨_, rfl⟩) (.inl hholdings)
        · -- the operation begins
          obtain ⟨x', y, counts, hx', hbegin, rfl⟩ := Coordinator.step_eq_some_iff.mp hc
          obtain rfl := Option.some.inj (hx'.symm.trans hx)
          obtain ⟨rfl, rfl⟩ := Prod.mk.inj (Option.some.inj hbegin)
          have hrecord : m.coordinator.record? entry.place = some x'.record :=
            record?_of_transaction (hcoordinator ▸ hx')
          refine .working (errand?_put_self he rfl) (hnamed.symm.trans hentry)
            (Coordinator.getElem?_moved_self hx' _ _) List.getElem?_concat_length
            (hstart entry q x'.record (hnamed.symm.trans hentry) hq hrecord) ?_
          rw [holdings_put]
          exact ((holdings_begun hx' q).trans hholdings).trans
            (Holdings.put_self ((m.getElem?_records _).trans hrecord)).symm
      · rw [Errand.begun.inj hsweep] at hid
        cases hid
      · cases hrunning
  | @working entry operation y s he hentry hy hs hP hholdings =>
      rcases owns_cases hstep hown he with ⟨now, rfl, -⟩ | ⟨now, order, rfl, hsweep, -⟩ |
        ⟨place, operation', a, x, z, counts, rfl, hrunning, ha, hx, hmove, rfl⟩
      · refine ⟨?_, fun place => rfl⟩
        have hkept : m₁.holdings = m.holdings ∨ ∃ entry r s, m.entry? id = some entry ∧ P r s ∧
            m₁.holdings = m.holdings.put entry.place r .zero :=
          .inr ⟨entry, y.record, s, hentry, hP, hholdings⟩
        rcases step_underway he hstep with ⟨answer, -, rfl⟩ | ⟨message, -, rfl⟩ <;>
          exact .ended (errand?_put_self he rfl) (.inl rfl) hkept
      · cases hsweep
      · obtain ⟨rfl, rfl⟩ := Prod.mk.inj (Option.some.inj hrunning)
        obtain rfl := Option.some.inj (hx.symm.trans hy)
        rw [hreached.rules_eq] at hmove
        obtain ⟨rfl, s', hs', hP', hcall⟩ := hquiet.step hs hP ha hreads hmove
        have hz := Coordinator.getElem?_moved_self hx z .zero
        refine ⟨.working he hentry hz hs' hP' ?_, fun place => ?_⟩
        · rw [holdings_moved, hholdings, Holdings.put_put, OutcomeCounts.add_zero]
        · rw [callsTo_act ha hz hs', hcall]
          split <;> rfl
  | @ended e he hends hkept =>
      rcases owns_cases hstep hown he with ⟨now, rfl, hproceed⟩ | ⟨now, order, rfl, rfl, -⟩ |
        ⟨place, operation, a, x, y, counts, rfl, hrunning, -⟩
      · refine ⟨?_, fun place => rfl⟩
        rcases hends with hover | ⟨place, rfl⟩
        · cases e with
          | finished | panicked => cases hproceed
          | _ => cases hover
        · obtain ⟨record, -, rfl⟩ := Option.map_eq_some_iff.mp hproceed
          exact .ended (errand?_put_self he rfl) (.inl rfl) hkept
      · rcases hends with hover | ⟨place, hreading⟩
        · cases hover
        · cases hreading
      · rcases hends with hover | ⟨place, rfl⟩
        · cases e with
          | finished | panicked => cases hrunning
          | _ => cases hover
        · cases hrunning

/-- **A quiet errand along a sole run.** -/
theorem SoleRun.serves (hrun : Run config past m) (h : m.SoleRun task turns m')
    (hid : task.id? = some id) (hquiet : Quiet config.rules.lease within P)
    (hstart : ∀ entry q r, m.entry? id = some entry → task.request? = some q →
      m.coordinator.record? entry.place = some r → P r (.requested q))
    (hreads : ∀ t ∈ turns, t.move.Reads within) :
    m.Serves task id P m' ∧ ∀ place, callsTo place turns = [] := by
  cases h with
  | @ask turns m₁ _ hask hgoes =>
      replace hreads : ∀ t ∈ turns, t.move.Reads within :=
        fun t ht => hreads t (List.mem_cons_of_mem _ ht)
      -- no call goes out when the task is asked for
      show m.Serves task id P m' ∧ ∀ place, callsTo place turns = []
      induction hgoes with
      | start =>
          obtain ⟨he, hholdings, hcoordinator⟩ := step_ask hask
          exact ⟨.looking he hcoordinator hholdings, fun place => rfl⟩
      | next hgoes hstep hown ih =>
          obtain ⟨hserves, hcalls⟩ := ih fun t ht => hreads t (List.mem_append_left _ ht)
          obtain ⟨hserves', hcalls'⟩ := hserves.step hid hquiet hstart
            (hgoes.run (hrun.next hask)).reached hstep hown
            (hreads _ (List.mem_append_right _ (List.mem_singleton_self _)))
          exact ⟨hserves', fun place => by rw [callsTo_append, hcalls, hcalls', List.append_nil]⟩

theorem Serves.holdings (h : m.Serves task id P m') : m'.holdings = m.holdings ∨
    ∃ entry r s, m.entry? id = some entry ∧ P r s ∧
      m'.holdings = m.holdings.put entry.place r .zero := by
  cases h with
  | looking _ _ hholdings => exact .inl hholdings
  | working _ hentry _ _ hP hholdings => exact .inr ⟨_, _, _, hentry, hP, hholdings⟩
  | ended _ _ hkept => exact hkept

/-! ## The main result -/

/-- An unknown number leaves no trace. -/
theorem SoleRun.unknown (hrun : Run config past m) (h : m.SoleRun task turns m')
    (hid : task.id? = some id) (hnone : m.entry? id = none) :
    m'.holdings = m.holdings ∧ ∀ place, callsTo place turns = [] := by
  have hquiet : Quiet config.rules.lease (fun _ => True) fun _ _ => False :=
    ⟨fun _ _ => False.elim, fun _ _ _ _ => False.elim, fun _ _ _ => False.elim⟩
  obtain ⟨hserves, hcalls⟩ := h.serves hrun hid hquiet
    (fun entry q r hentry => by rw [hnone] at hentry; cases hentry)
    fun t _ => t.move.reads_of_forall fun _ => trivial
  refine ⟨?_, hcalls⟩
  rcases hserves.holdings with hsame | ⟨entry, r, s, -, hP, -⟩
  · exact hsame
  · exact hP.elim

/-- An operation that only looks at the record of its number leaves no trace. -/
theorem SoleRun.looking (hrun : Run config past m) (h : m.SoleRun task turns m')
    (hid : task.id? = some id) {entry : Entry} {r : Record} (hentry : m.entry? id = some entry)
    (hrecord : m.coordinator.record? entry.place = some r) {q : Request}
    (hq : ∀ q', task.request? = some q' → q' = q)
    (hquiet : Quiet config.rules.lease within (Looking r q))
    (hreads : ∀ t ∈ turns, t.move.Reads within) :
    m'.holdings = m.holdings ∧ ∀ place, callsTo place turns = [] := by
  obtain ⟨hserves, hcalls⟩ := h.serves hrun hid hquiet (fun entry' q' r' hentry' hq' hrecord' => by
    obtain rfl := Option.some.inj (hentry'.symm.trans hentry)
    obtain rfl := Option.some.inj (hrecord'.symm.trans hrecord)
    exact ⟨rfl, .inl (by rw [hq q' hq'])⟩) hreads
  refine ⟨?_, hcalls⟩
  rcases hserves.holdings with hsame | ⟨entry', r', s, hentry', ⟨rfl, -⟩, hholdings⟩
  · exact hsame
  · obtain rfl := Option.some.inj (hentry'.symm.trans hentry)
    rw [hholdings]
    exact Holdings.put_self ((m.getElem?_records _).trans hrecord)

/-- A renewal that finds a lease that has not lapsed changes at most the term of the lease. -/
theorem SoleRun.renewing {request : LeaseRequest} (hrun : Run config past m)
    (h : m.SoleRun (.renew id request) turns m') {r : Record} (hr : m.record? id = some r)
    (hp : r.phase = .active)
    (hreads : ∀ t ∈ turns, t.move.Reads fun readings => r.lease.hasLapsed readings.first = false) :
    (∃ entry expiration granted, m.entry? id = some entry ∧
      m'.holdings = m.holdings.put entry.place (r.withTerm expiration granted) .zero) ∧
    ∀ place, callsTo place turns = [] := by
  obtain ⟨entry, hentry, hrecord⟩ := Option.bind_eq_some_iff.mp hr
  have hu : r.phase.isTerminal = false := by rw [hp]; rfl
  have hsame : m.holdings.put entry.place r .zero = m.holdings :=
    Holdings.put_self ((m.getElem?_records _).trans hrecord)
  obtain ⟨hserves, hcalls⟩ := h.serves hrun rfl (Renewing.quiet hu config.rules.lease request)
    (fun entry' q' r' hentry' hq' hrecord' => by
      obtain rfl := Option.some.inj (hentry'.symm.trans hentry)
      obtain rfl := Option.some.inj (hrecord'.symm.trans hrecord)
      exact .inl ⟨rfl, by rw [← Option.some.inj hq']⟩) hreads
  refine ⟨?_, hcalls⟩
  rcases hserves.holdings with hkept | ⟨entry', r', s, hentry', hP, hholdings⟩
  · exact ⟨entry, r.lease.expiration, r.lease.granted, hentry, hkept.trans hsame.symm⟩
  · obtain rfl := Option.some.inj (hentry'.symm.trans hentry)
    rcases hP with ⟨rfl, -⟩ | ⟨-, expiration, granted, rfl⟩
    · exact ⟨entry', r'.lease.expiration, r'.lease.granted, hentry, hholdings⟩
    · exact ⟨entry', expiration, granted, hentry, hholdings⟩

/-- **Refused operations leave no trace.** In any state that a manager can reach, one task about a
number is asked for, and then its errand and operation move alone, as far as they may.

* If the number is unknown, or its transaction is decided, no call is made, and every record, the
  totals and the table are what they were, whatever the clock shows and whatever the task is.
* If the transaction is active, the same is true of a task that waits for a phase. It is true of one
  that tells the phase if the lease has not lapsed when its visit begins, and then a renewal changes
  nothing but the expiration and the granted length of the lease. -/
theorem refused_without_trace (hrun : Run config past m) (h : m.SoleRun task turns m')
    (hid : task.id? = some id) :
    ((m.entry? id = none ∨ ∃ r, m.record? id = some r ∧ r.phase.isTerminal = true) →
      m'.holdings = m.holdings ∧ ∀ place, callsTo place turns = []) ∧
    ∀ r, m.record? id = some r → r.phase = .active →
      (∀ target timeout, task = .awaitPhase id target timeout →
        m'.holdings = m.holdings ∧ ∀ place, callsTo place turns = []) ∧
      ((∀ t ∈ turns, t.move.Reads fun readings => r.lease.hasLapsed readings.first = false) →
        (task = .phase id → m'.holdings = m.holdings ∧ ∀ place, callsTo place turns = []) ∧
        ∀ request, task = .renew id request →
          (∃ entry expiration granted, m.entry? id = some entry ∧
            m'.holdings = m.holdings.put entry.place (r.withTerm expiration granted) .zero) ∧
          ∀ place, callsTo place turns = []) := by
  refine ⟨?_, fun r hr hp => ⟨?_, fun hreads => ⟨?_, ?_⟩⟩⟩
  · rintro (hnone | ⟨r, hr, hd⟩)
    · exact h.unknown hrun hid hnone
    · obtain ⟨entry, hentry, hrecord⟩ := Option.bind_eq_some_iff.mp hr
      exact h.looking hrun hid hentry hrecord (q := task.request?.getD .expire)
        (fun q' hq' => by rw [hq', Option.getD_some])
        (Looking.quiet_decided hd config.rules.lease _)
        fun t _ => t.move.reads_of_forall fun _ => trivial
  · rintro target timeout rfl
    obtain ⟨entry, hentry, hrecord⟩ := Option.bind_eq_some_iff.mp hr
    exact h.looking hrun hid hentry hrecord (fun q' hq' => (Option.some.inj hq').symm)
      (Looking.quiet_awaitPhase r target config.rules.lease)
      fun t _ => t.move.reads_of_forall fun _ => trivial
  · rintro rfl
    obtain ⟨entry, hentry, hrecord⟩ := Option.bind_eq_some_iff.mp hr
    exact h.looking hrun hid hentry hrecord (fun q' hq' => (Option.some.inj hq').symm)
      (Looking.quiet_expire r config.rules.lease) hreads
  · rintro request rfl
    exact h.renewing hrun hr hp hreads

/-- The first of two transactions is aborted, the second one is active. -/
def abortedAndActive : List Move :=
  let proceed (errand : Nat) : Move := .proceed errand .epoch
  [.ask (.create (.bounded (Duration.ofMillis 1))), proceed 0, proceed 0, proceed 0,
    .ask (.create .forever), proceed 1, proceed 1, proceed 1,
    .ask (.abort ⟨1⟩), proceed 2, .act 0 (.visit 0 (.steady .epoch)), proceed 2]

/-- Long after the lease of an aborted transaction has run out, a party is refused without a trace.
The renewal of an active one moves its expiration, and changes nothing else. -/
theorem refused_without_trace_of_two :
    ∃ past m joining m₁ renewing m₂, Run .standard past m ∧
      m.SoleRun (.join ⟨1⟩ { key := 0, combines := false }) joining m₁ ∧
      m₁.errand? 3 = some (.finished (.refused (.cannotJoin ⟨1⟩ .aborted))) ∧
      m₁.holdings = m.holdings ∧ (∀ place, callsTo place joining = []) ∧
      m.SoleRun (.renew ⟨2⟩ (.bounded (Duration.ofMillis 5))) renewing m₂ ∧
      m₂.errand? 3 = some (.finished (.answered (.renewed (.at (.ofMillis 105))))) ∧
      (∃ r entry expiration granted, m.record? ⟨2⟩ = some r ∧ m.entry? ⟨2⟩ = some entry ∧
        m₂.holdings = m.holdings.put entry.place (r.withTerm expiration granted) .zero) ∧
      ∀ place, callsTo place renewing = [] := by
  have hrun : Run .standard _ _ := Run.of_play abortedAndActive rfl
  have hjoin : SoleRun _ (.join ⟨1⟩ { key := 0, combines := false }) _ _ :=
    SoleRun.of_play_after hrun [.proceed 3 .epoch,
      .act 0 (.visit 1 (.steady (.ofMillis 100))), .proceed 3 .epoch] rfl rfl
  have hrenew : SoleRun _ (.renew ⟨2⟩ (.bounded (Duration.ofMillis 5))) _ _ :=
    SoleRun.of_play_after hrun [.proceed 3 .epoch,
      .act 1 (.visit 0 (.steady (.ofMillis 100))), .proceed 3 .epoch] rfl rfl
  obtain ⟨hdecided, -⟩ := refused_without_trace hrun hjoin rfl
  obtain ⟨hsame, hsilent⟩ := hdecided (.inr ⟨_, rfl, rfl⟩)
  obtain ⟨-, hactive⟩ := refused_without_trace hrun hrenew rfl
  obtain ⟨-, hrenewed⟩ := (hactive _ rfl rfl).2 (by
    simp only [List.forall_mem_cons]
    exact ⟨trivial, trivial, rfl, trivial, List.forall_mem_nil _⟩)
  obtain ⟨⟨entry, expiration, granted, hentry, hholdings⟩, hcalls⟩ := hrenewed _ rfl
  exact ⟨_, _, _, _, _, _, hrun, hjoin, rfl, hsame, hsilent, hrenew, rfl,
    ⟨_, entry, expiration, granted, rfl, hentry, hholdings⟩, hcalls⟩

end Manager

end LeasedCommit
