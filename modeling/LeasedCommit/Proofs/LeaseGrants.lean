import LeasedCommit.Proofs.LeaseEnd
import LeasedCommit.Proofs.LeaseTerms

set_option autoImplicit false

/-! # The leases that a manager grants

What a manager answers about a lease is what its settings grant at the time of the answer's making,
whatever other errands do meanwhile. For a renewal that is so because its only visit both renews the
lease and answers (`Manager.Run.renews`). A creation opens the transaction in one move and reads the
expiration in a later one. Between the two nobody can come upon the transaction, since it is neither
in the table nor among the entries that a sweep has taken from there (`Manager.Secluded`), and so
its lease is still the one that was granted (`Manager.Run.creates`). -/

namespace LeasedCommit

/-- A renewal that succeeds gives a valid lease the term that begins with its second reading of the
clock. -/
theorem Record.renew_renewed {r : Record} {policy : LeasePolicy} {request : LeaseRequest}
    {t : Readings} {expiration : Expiration}
    (h : (r.renew policy request t).next.answer? = some (.renewed expiration)) :
    (r.renew policy request t).record.lease.status = .valid ∧
    (r.renew policy request t).record.lease.HasTerm
      { now := t.second, length := policy.grant request } ∧
    (r.renew policy request t).record.lease.expiration = expiration := by
  unfold Record.renew at h ⊢
  split at h
  · rw [Abort.visit, Stage.answer?_deliverAborts] at h
    cases h
  · split at h
    · cases h
    · rename_i hundecided
      rw [if_neg hundecided]
      split at h
      · rename_i granted lease hlease
        obtain ⟨hvalid, rfl, rfl⟩ := Lease.renew_eq_some hlease
        cases h
        exact ⟨(Lease.isValid_iff.mp hvalid).1, ⟨rfl, rfl⟩, rfl⟩
      · cases h

/-- An operation can only begin on a transaction that has none. -/
theorem Transaction.begins_of_idle {x y : Transaction} {rules : Rules} {a : Action}
    {counts : OutcomeCounts} (hx : x.operations = []) (h : x.step rules a = some (y, counts)) :
    ∃ q, a = .begin q := by
  have hnone : ∀ i, x.stage? i = none := by
    intro i
    rw [stage?, hx]
    rfl
  cases a with
  | begin q => exact ⟨q, rfl⟩
  | visit i t =>
      simp only [step, hnone, Option.bind_none] at h
      split at h <;> cases h
  | vote | combinedVote | acknowledge | resume =>
      simp only [step, hnone, Option.bind_none] at h
      cases h
  | giveUp i =>
      simp only [step, hnone] at h
      cases h

namespace Manager

/-- The lease of the transaction at a place. -/
def lease? (m : Manager) (place : Nat) : Option Lease :=
  (m.coordinator.record? place).map Record.lease

/-- An entry that a task or a sweep can come upon: it is in the table, or a sweep has still to look
at it. -/
def Offers (m : Manager) (entry : Entry) : Prop :=
  entry ∈ m.table ∨ ∃ i sweep, m.sweep? i = some sweep ∧ entry ∈ sweep.rest

variable {config : Config} {turns : List Turn} {m m' m₁ : Manager} {i place : Nat}
  {e e' : Errand} {move : Move} {entry : Entry} {x : Transaction} {l : Lease}
  {request : LeaseRequest} {id : TransactionId} {expiration : Expiration}

theorem lease?_of_transaction (hx : m.coordinator.transactions[place]? = some x) :
    m.lease? place = some x.record.lease := by
  rw [lease?, Coordinator.record?, hx]
  rfl

/-! ## Where operations begin -/

/-- An errand that goes on leaves a transaction alone whose entry is not on offer. -/
theorem untouched_of_proceed {now : Timestamp} (he : m.errand? i = some e)
    (h : m.proceed i now e = some m') (hx : m.coordinator.transactions[place]? = some x)
    (hsecluded : ∀ entry, m.Offers entry → entry.place ≠ place) :
    m'.coordinator.transactions[place]? = some x := by
  have hstep : m.step (.proceed i now) = some m' := by
    simpa only [step, he, Option.bind_some] using h
  -- wherever an operation begins, it is at another place
  have hbegins : ∀ {entry : Entry} {q : Request} {c : Coordinator}, m.Offers entry →
      m.coordinator.step entry.place (.begin q) = some c → c.transactions[place]? = some x :=
    fun hoffers hc => (Coordinator.step_other hc (hsecluded _ hoffers)).trans hx
  cases e with
  | begun task =>
      cases hid : task.id? with
      | none =>
          cases task with
          | create request =>
              obtain rfl := Option.some.inj h
              have hlt : place < m.issued := (List.getElem?_eq_some_iff.mp hx).1
              exact (Coordinator.getElem?_openTransaction _ _ _ (Nat.ne_of_gt hlt)).trans hx
          | sweep => cases h
          | _ => cases hid
      | some id =>
          rcases lookUp_cases (step_begun he hid hstep) with ⟨-, rfl⟩ | ⟨entry, -, -, rfl⟩ |
            ⟨entry, q, y, hentry, -, -, c, hc, rfl⟩
          · exact hx
          · exact hx
          · exact hbegins (.inl (mem_of_entry?_eq_some hentry).1) hc
  | underway =>
      rcases step_underway he hstep with ⟨answer, -, rfl⟩ | ⟨message, -, rfl⟩
      · exact hx
      · exact hx
  | reading | storing =>
      obtain ⟨record, -, rfl⟩ := Option.map_eq_some_iff.mp h
      exact hx
  | counting =>
      obtain rfl := Option.some.inj h
      exact hx
  | sweeping sweep =>
      simp only [proceed] at h
      split at h
      · obtain rfl := Option.some.inj h
        exact hx
      · rename_i entry rest hrest
        simp only [Option.map_eq_some_iff, Prod.exists] at h
        obtain ⟨m₁, operation, hbegin, rfl⟩ := h
        obtain ⟨c, hc, rfl⟩ := begin?_eq_some hbegin
        have hsweep : m.sweep? i = some sweep := Option.bind_eq_some_iff.mpr ⟨_, he, rfl⟩
        exact hbegins (.inr ⟨i, sweep, hsweep, hrest ▸ List.mem_cons_self⟩) hc
  | expiring sweep entry operation =>
      simp only [proceed] at h
      split at h
      · obtain rfl := Option.some.inj h
        exact hx
      · split at h
        · rename_i m₁ hevict
          obtain ⟨rfl, -⟩ := evict?_eq_some hevict
          obtain rfl := Option.some.inj h
          exact hx
        · obtain rfl := Option.some.inj h
          exact hx
      · obtain rfl := Option.some.inj h
        exact hx
      · cases h
  | finished | panicked => cases h

/-- **A transaction without operations is left alone** as long as its entry is not on offer. -/
theorem untouched_of_step (h : m.step move = some m')
    (hx : m.coordinator.transactions[place]? = some x) (hidle : x.operations = [])
    (hsecluded : ∀ entry, m.Offers entry → entry.place ≠ place) :
    m'.coordinator.transactions[place]? = some x := by
  cases move with
  | ask task =>
      obtain rfl := Option.some.inj h
      exact hx
  | act moving action =>
      obtain ⟨c, hc, rfl⟩ := step_act h
      by_cases hplace : moving = place
      · subst hplace
        obtain ⟨y, counts, -, hmove⟩ := Coordinator.step_at hx hc
        obtain ⟨q, rfl⟩ := Transaction.begins_of_idle hidle hmove
        cases h
      · exact (Coordinator.step_other hc hplace).trans hx
  | proceed i now =>
      obtain ⟨e, he, hproceed⟩ := Option.bind_eq_some_iff.mp h
      exact untouched_of_proceed he hproceed hx hsecluded
  | survey i now order =>
      simp only [step] at h
      split at h
      · split at h
        · obtain rfl := Option.some.inj h
          exact hx
        · cases h
      · cases h

/-! ## Transactions that nobody can come upon -/

/-- The entries on offer are those of transactions, but of none that is about to enter the table. -/
structure Secluded (m : Manager) : Prop where
  issued : ∀ entry, m.Offers entry → entry.place < m.issued
  held : ∀ i a, m.held? i = some a → ∀ entry, m.Offers entry → entry.place ≠ a.place

/-- What a move of an errand puts on offer: the entry that it held, if any. -/
theorem Does.offers (h : m.Does e m₁ e') (he : m.errand? i = some e)
    (hoffers : (m₁.put i e').Offers entry) : m.Offers entry ∨ e.storing? = some entry := by
  rcases hoffers with hmem | ⟨j, sweep, hsweep, hmem⟩
  · have hmem₁ : entry ∈ m₁.table := hmem
    cases h with
    | stores =>
        rcases List.mem_append.mp hmem₁ with hold | hnew
        · exact .inl (.inl (List.mem_of_mem_filter hold))
        · exact .inr (congrArg some (List.mem_singleton.mp hnew).symm)
    | evicts => exact .inl (.inl (List.mem_of_mem_filter hmem₁))
    | _ => exact .inl (.inl hmem₁)
  · -- the entries of a sweep come from the table, or from where it stood
    have hself : ∀ sweep, e.sweep? = some sweep → entry ∈ sweep.rest → m.Offers entry :=
      fun sweep hs hrest => .inr ⟨i, sweep, Option.bind_eq_some_iff.mpr ⟨e, he, hs⟩, hrest⟩
    by_cases hj : j = i
    · subst hj
      rw [sweep?, errand?_put_self he h.errands, Option.bind_some] at hsweep
      cases h with
      | surveys hperm =>
          obtain rfl := Option.some.inj hsweep
          exact .inl (.inl (hperm.mem_iff.mp hmem))
      | visits hrest =>
          obtain rfl := Option.some.inj hsweep
          exact .inl (hself _ rfl (hrest ▸ List.mem_cons_of_mem _ hmem))
      | expires | evicts | keeps =>
          obtain rfl := Option.some.inj hsweep
          exact .inl (hself _ rfl hmem)
      | goes _ hp' | begins _ hp' =>
          rw [hp'.sweep?] at hsweep
          cases hsweep
      | opens | stores | counts | unwinds | settles => cases hsweep
    · rw [sweep?, errand?_put_ne hj h.errands] at hsweep
      exact .inl (.inr ⟨j, sweep, hsweep, hmem⟩)

theorem Secluded.does (h : m.Secluded) (hm : m.Numbered) (hapart : m.Apart)
    (he : m.errand? i = some e) (hdoes : m.Does e m₁ e') : (m₁.put i e').Secluded := by
  have hle : m.issued ≤ m₁.issued := by
    rcases hdoes.gives with ⟨-, hle⟩ | ⟨-, -, heq⟩ <;> omega
  have hheld : ∀ {entry}, e.storing? = some entry → m.held? i = some entry :=
    fun hstoring => Option.bind_eq_some_iff.mpr ⟨e, he, hstoring⟩
  refine ⟨fun entry hoffers => ?_, fun j a ha entry hoffers => ?_⟩
  · show entry.place < m₁.issued
    rcases hdoes.offers he hoffers with hold | hstoring
    · exact Nat.lt_of_lt_of_le (h.issued entry hold) hle
    · exact Nat.lt_of_lt_of_le (hm.place entry (held?_known (hheld hstoring))) hle
  · rcases held?_put hdoes.errands ha with ⟨hj, ha⟩ | ⟨-, hnew⟩
    · rcases hdoes.offers he hoffers with hold | hstoring
      · exact h.held j a ha entry hold
      · exact hapart.held i j entry a (hheld hstoring) ha (Ne.symm hj)
    · -- the new place is beyond all others
      have hoffers' := hdoes.offers he hoffers
      cases hdoes with
      | opens =>
          obtain rfl := Option.some.inj hnew
          rcases hoffers' with hold | hstoring
          · exact Nat.ne_of_lt (h.issued entry hold)
          · cases hstoring
      | goes _ hp' | begins _ hp' =>
          rw [hp'.storing?] at hnew
          cases hnew
      | stores | counts | surveys | visits | expires | evicts | keeps | unwinds | settles =>
          cases hnew

theorem Run.secluded (h : Run config turns m) : m.Secluded := by
  refine Run.invariant ⟨fun entry hoffers => ?_, fun i a ha => ?_⟩ (fun m task ih => ?_)
    (fun _ _ _ _ c _ ih hc => ?_)
    (fun _ _ _ _ _ _ hrun ih he hdoes => ih.does hrun.numbered hrun.apart he hdoes) h
  · simp [Offers, sweep?, errand?, create] at hoffers
  · simp [held?, errand?, create] at ha
  · -- a task that has just been asked for neither sweeps nor holds anything
    have hold : ∀ {α : Type} {f : Errand → Option α} {j : Nat} {a : α},
        f (.begun task) = none → ((m.errands ++ [.begun task])[j]?.bind f) = some a →
        (m.errands[j]?.bind f) = some a := by
      intro α f j a hnone hj
      obtain ⟨e, he, hf⟩ := Option.bind_eq_some_iff.mp hj
      rw [List.getElem?_append] at he
      split at he
      · exact Option.bind_eq_some_iff.mpr ⟨e, he, hf⟩
      · obtain rfl := List.mem_singleton.mp (List.mem_of_getElem? he)
        rw [hnone] at hf
        cases hf
    have hoffers : ∀ entry, Offers { m with errands := m.errands ++ [.begun task] } entry →
        m.Offers entry := by
      rintro entry (hmem | ⟨j, sweep, hsweep, hmem⟩)
      · exact .inl hmem
      · exact .inr ⟨j, sweep, hold rfl hsweep, hmem⟩
    exact ⟨fun entry h => ih.issued entry (hoffers entry h),
      fun j a ha entry h => ih.held j a (hold rfl ha) entry (hoffers entry h)⟩
  · refine ⟨fun entry hoffers => ?_, fun j a ha entry hoffers => ih.held j a ha entry hoffers⟩
    have hissued : c.transactions.length = _ := Coordinator.step_length hc
    exact Nat.lt_of_lt_of_eq (ih.issued entry hoffers) hissued.symm

/-! ## Creations -/

/-- Where an errand can stand that has opened a transaction with a lease: nothing has been done with
the transaction, or the errand has read the expiration. -/
inductive Creates (m : Manager) (l : Lease) : Errand → Prop
  | storing {entry : Entry} {x : Transaction} :
    m.coordinator.transactions[entry.place]? = some x → x.operations = [] → x.record.lease = l →
    Creates m l (.storing entry)
  | counting {id : TransactionId} : Creates m l (.counting id l.expiration)
  | created {id : TransactionId} : Creates m l (.finished (.created id l.expiration))

/-- **A creation goes on with the lease that was granted**, whoever moves. -/
theorem Creates.step (hrun : Run config turns m) (h : m.step move = some m')
    (he : m.errand? i = some e) (hcreates : m.Creates l e) :
    ∃ e', m'.errand? i = some e' ∧ m'.Creates l e' := by
  rcases errand?_next h he with hsame | ⟨m₁, e', hmove, -, -⟩
  · refine ⟨e, hsame, ?_⟩
    cases hcreates with
    | @storing entry x hx hidle hlease =>
        have hheld : m.held? i = some entry := Option.bind_eq_some_iff.mpr ⟨_, he, rfl⟩
        have huntouched := untouched_of_step h hx hidle (hrun.secluded.held i entry hheld)
        exact .storing huntouched hidle hlease
    | counting => exact .counting
    | created => exact .created
  · -- the errand itself goes on
    have hne : e ≠ .begun .sweep := by
      rintro rfl
      cases hcreates
    obtain ⟨now, rfl⟩ := proceeds_of_step h hmove he hne
    simp only [Manager.step, he, Option.bind_some] at h
    cases hcreates with
    | @storing entry x hx _ hlease =>
        obtain ⟨record, hrecord, rfl⟩ := Option.map_eq_some_iff.mp h
        rw [Coordinator.record?, hx] at hrecord
        obtain rfl := Option.some.inj hrecord
        rw [hlease]
        exact ⟨_, errand?_put_self he rfl, .counting⟩
    | counting =>
        obtain rfl := Option.some.inj h
        exact ⟨_, errand?_put_self he rfl, .created⟩
    | created => cases h

/-- The turn in which an errand opens a transaction, and the lease that it grants. -/
structure Turn.Opens (t : Turn) (i : Nat) (request : LeaseRequest) (now : Timestamp) (l : Lease) :
    Prop where
  move : t.move = .proceed i now
  before : t.before.errand? i = some (.begun (.create request))
  after : t.after.lease? t.before.issued = some l

/-- A creation can begin at any time. Then the new transaction has the lease that the settings
grant. -/
theorem opens_of_begun (hrun : Run config turns m)
    (he : m.errand? i = some (.begun (.create request))) (now : Timestamp) :
    ∃ m' e', m.step (.proceed i now) = some m' ∧ m'.errand? i = some e' ∧
      m'.Creates (Lease.grant config.leasePolicy request now) e' ∧
      Turn.Opens { before := m, move := .proceed i now, after := m' } i request now
        (Lease.grant config.leasePolicy request now) := by
  have hstep : m.step (.proceed i now) = some ((m.opened request now).put i
      (.storing { id := ⟨m.nextId⟩, place := m.issued })) := by
    simp only [step, he, Option.bind_some]
    rfl
  have hx : (m.opened request now).coordinator.transactions[m.issued]? = some
      (Transaction.opened config.leasePolicy ⟨m.nextId⟩ request now) := by
    have hrules : m.coordinator.rules.lease = config.leasePolicy :=
      congrArg Rules.lease hrun.reached.rules_eq
    rw [← hrules]
    exact List.getElem?_concat_length
  exact ⟨_, _, hstep, errand?_put_self he rfl, .storing hx rfl rfl,
    ⟨rfl, he, lease?_of_transaction hx⟩⟩

/-- **What becomes of a creation**: it has not begun, or it goes on with the lease that the settings
granted in the turn in which it opened the transaction. -/
theorem Run.creates (h : Run config turns m)
    (hi : (asked turns)[i]? = some (.create request)) :
    m.errand? i = some (.begun (.create request)) ∨
    ∃ t ∈ turns, ∃ now e, t.Opens i request now (Lease.grant config.leasePolicy request now) ∧
      m.errand? i = some e ∧ m.Creates (Lease.grant config.leasePolicy request now) e := by
  induction h with
  | start => cases hi
  | @next turns m m' move hrun hstep ih =>
      rcases asked_before hrun hstep hi with hearlier | ⟨-, hnew⟩
      · rcases ih hearlier with he | ⟨t, ht, now, e, hopens, he, hcreates⟩
        · rcases errand?_next hstep he with hsame | ⟨m₁, e', hmove, -, -⟩
          · exact .inl hsame
          · obtain ⟨now, rfl⟩ := proceeds_of_step hstep hmove he (fun heq => nomatch heq)
            obtain ⟨m₂, e₂, hstep', he₂, hcreates, hopens⟩ := opens_of_begun hrun he now
            obtain rfl := Option.some.inj (hstep'.symm.trans hstep)
            exact .inr ⟨_, List.mem_append_right _ (List.mem_singleton_self _), now, e₂, hopens,
              he₂, hcreates⟩
        · obtain ⟨e', he', hcreates'⟩ := hcreates.step hrun hstep he
          exact .inr ⟨t, List.mem_append_left _ ht, now, e', hopens, he', hcreates'⟩
      · exact .inl hnew

/-! ## Renewals -/

/-- The turn in which the operation of an errand renews a lease, and the lease after it. The time of
the renewal is the second reading of the clock; with the first one the lease has been found not to
have lapsed. -/
def Turn.Renews (t : Turn) (i : Nat) (id : TransactionId) (request : LeaseRequest)
    (now : Timestamp) (l : Lease) : Prop :=
  ∃ place operation clock, t.move = .act place (.visit operation clock) ∧ clock.second = now ∧
    t.before.errand? i = some (.underway (.renew id request) place operation) ∧
    numberAt place = id ∧ t.after.lease? place = some l

/-- A renewal that has come to its answer had come to it before, or renews the lease in this
move. -/
theorem renews_of_step (hrun : Run config turns m) (h : m.step move = some m')
    (hp : ∀ e, m.errand? i = some e → e.Pursues (.renew id request))
    (ha : m'.answer? i = some (.renewed expiration)) :
    m.answer? i = some (.renewed expiration) ∨
    ∃ now l, Turn.Renews { before := m, move := move, after := m' } i id request now l ∧
      l.status = .valid ∧ l.HasTerm { now := now, length := config.leasePolicy.grant request } ∧
      l.expiration = expiration := by
  have hlease : (Task.renew id request).IsLease id := rfl
  cases he : m.errand? i with
  | none =>
      rw [answer?_of_new h he] at ha
      cases ha
  | some e =>
      cases hp e he with
      | begun =>
          cases answers_of_begun h hlease he ha with
          | before hbefore => exact .inl hbefore
          | absent _ hrefused => cases hrefused
          | met hunderway => cases he.symm.trans hunderway
      | @underway place operation =>
          obtain ⟨hnumber, q, x, s, hq, hqlease, hx, hs, hserves⟩ := hrun.lease_operation hlease he
          obtain rfl : Request.renew request = q := Option.some.inj hq
          have hreached := hrun.reached
          have hsound := hreached.sound hx
          have hbefore := answer?_underway he hx hs
          rcases underway_next h he with hsame | ⟨answer, hstage, rfl⟩ | ⟨message, -, rfl⟩
          · obtain ⟨y, hy, rfl | ⟨a, counts, hmove, hact⟩⟩ := transaction_of_step h hx
            · rw [answer?_underway hsame hy hs] at ha
              exact .inl (hbefore.trans ha)
            · rw [hreached.rules_eq] at hmove
              by_cases hown : a.operation? = some operation
              · obtain ⟨s', hs', hgoes⟩ :=
                  Transaction.step_lease_cases hsound hs hserves hqlease hown hmove
                rw [answer?_underway hsame hy hs'] at ha
                rcases hgoes with ⟨t, v, rfl, -, hv, hrecord, rfl⟩ |
                  ⟨-, -, hkept | ⟨message, rfl⟩⟩
                · obtain rfl : move = .act place (.visit operation t) := by
                    rcases hact with hact | ⟨q, hbegin⟩
                    · exact hact
                    · cases hbegin
                  obtain rfl := Option.some.inj hv
                  obtain ⟨hvalid, hterm, hexpiration⟩ := Record.renew_renewed ha
                  have hrenewed := lease?_of_transaction hy
                  rw [hrecord] at hrenewed
                  exact .inr ⟨t.second, _, ⟨place, operation, t, rfl, rfl, he, hnumber, hrenewed⟩,
                    hvalid, hterm, hexpiration⟩
                · exact .inl (hbefore.trans (hkept ▸ ha))
                · cases ha
              · rw [answer?_underway hsame hy (hsound.stage?_of_other hs hown hmove)] at ha
                exact .inl (hbefore.trans ha)
          · -- the errand takes the answer over
            rw [hlease.conclude, answer?_answered (errand?_put_self he rfl)] at ha
            obtain rfl := Option.some.inj ha
            rw [Coordinator.stage?, hx, Option.bind_some, hs] at hstage
            obtain rfl := Option.some.inj hstage
            exact .inl hbefore
          · rw [answer?_panicked (errand?_put_self he rfl)] at ha
            cases ha
      | answered =>
          rw [answer?_answered (over_next h he rfl)] at ha
          exact .inl ((answer?_answered he).trans ha)
      | panicked =>
          rw [answer?_panicked (over_next h he rfl)] at ha
          cases ha

/-- **Where the answer of a renewal comes from**: from the turn in which the lease was renewed. -/
theorem Run.renews (h : Run config turns m) (hi : (asked turns)[i]? = some (.renew id request))
    (ha : m.answer? i = some (.renewed expiration)) :
    ∃ t ∈ turns, ∃ now l, t.Renews i id request now l ∧ l.status = .valid ∧
      l.HasTerm { now := now, length := config.leasePolicy.grant request } ∧
      l.expiration = expiration := by
  induction h with
  | start => cases hi
  | @next turns m m' move hrun hstep ih =>
      rcases asked_before hrun hstep hi with hearlier | ⟨-, hnew⟩
      · have hlease : (Task.renew id request).IsLease id := rfl
        rcases renews_of_step hrun hstep (hrun.pursuing hearlier hlease) ha with
          hbefore | ⟨now, l, hrenews⟩
        · obtain ⟨t, ht, hrest⟩ := ih hearlier hbefore
          exact ⟨t, List.mem_append_left _ ht, hrest⟩
        · exact ⟨_, List.mem_append_right _ (List.mem_singleton_self _), now, l, hrenews⟩
      · rw [answer?_begun hnew] at ha
        cases ha

/-! ## From the settings to the answers -/

/-- **From the settings to the expirations.** A manager has been made from some settings and any
errands have run.

* A creation can begin at any time, and the new transaction then has a lease on the terms of the
  settings.
* The expiration that a creation has reported is that of the lease with which it opened the
  transaction, on the terms of the settings at that time.
* The expiration that a renewal has reported is that of the lease after its visit, on the terms of
  the settings at the time of the renewal. -/
theorem leases_as_configured {m₀ : Manager} (hconfig : ofConfig config = .ok m₀)
    (hrun : Run config turns m) :
    (∀ i request now, m.errand? i = some (.begun (.create request)) →
      ∃ m' l, m.step (.proceed i now) = some m' ∧
        Turn.Opens { before := m, move := .proceed i now, after := m' } i request now l ∧
        config.Terms request now l) ∧
    (∀ i request id expiration, (asked turns)[i]? = some (.create request) →
      m.errand? i = some (.finished (.created id expiration)) →
      ∃ t ∈ turns, ∃ now l, t.Opens i request now l ∧ config.Terms request now l ∧
        l.expiration = expiration) ∧
    ∀ i id request expiration, (asked turns)[i]? = some (.renew id request) →
      m.errand? i = some (.finished (.answered (.renewed expiration))) →
      ∃ t ∈ turns, ∃ now l, t.Renews i id request now l ∧ config.Terms request now l ∧
        l.expiration = expiration := by
  have hfault := Config.fault?_of_ofConfig hconfig
  have hterms : ∀ request now, config.Terms request now
      (Lease.grant config.leasePolicy request now) := fun request now =>
    Config.terms_of_hasTerm hfault rfl (Lease.hasTerm_grant config.leasePolicy request now)
  refine ⟨fun i request now he => ?_, fun i request id expiration hi he => ?_,
    fun i id request expiration hi he => ?_⟩
  · obtain ⟨m', -, hstep, -, -, hopens⟩ := opens_of_begun hrun he now
    exact ⟨m', _, hstep, hopens, hterms request now⟩
  · rcases hrun.creates hi with hbegun | ⟨t, ht, now, e, hopens, he', hcreates⟩
    · cases he.symm.trans hbegun
    · obtain rfl := Option.some.inj (he'.symm.trans he)
      cases hcreates
      exact ⟨t, ht, now, _, hopens, hterms request now, rfl⟩
  · obtain ⟨t, ht, now, l, hrenews, hvalid, hterm, hexpiration⟩ :=
      hrun.renews hi (answer?_answered he)
    exact ⟨t, ht, now, l, hrenews, Config.terms_of_hasTerm hfault hvalid hterm, hexpiration⟩

/-- Settings with a bound of two hours and the standard default of one. -/
def boundedConfig : Config := { Config.standard with maxLeaseMs := some 7200000 }

/-- A lease without an end is asked for, and renewed after one second for the default length. -/
def grantingMoves : List Move :=
  [.ask (.create .forever), .proceed 0 .epoch, .proceed 0 .epoch, .proceed 0 .epoch,
    .ask (.renew ⟨1⟩ .any), .proceed 1 .epoch, .act 0 (.visit 0 (.steady (.ofSecs 1))),
    .proceed 1 .epoch]

/-- Under a bound of two hours a lease without an end lasts two hours. Renewed after one second, it
lasts one hour more. -/
theorem leases_as_configured_bounded :
    ∃ turns m, Run boundedConfig turns m ∧
      m.errand? 0 = some (.finished (.created ⟨1⟩ (.at (.ofSecs 7200)))) ∧
      m.errand? 1 = some (.finished (.answered (.renewed (.at (.ofSecs 3601))))) ∧
      (∃ t ∈ turns, ∃ now l, t.Opens 0 .forever now l ∧
        boundedConfig.Terms .forever now l ∧ l.expiration = .at (.ofSecs 7200)) ∧
      ∃ t ∈ turns, ∃ now l, t.Renews 1 ⟨1⟩ .any now l ∧ boundedConfig.Terms .any now l ∧
        l.expiration = .at (.ofSecs 3601) := by
  have hconfig : ofConfig boundedConfig = .ok (create boundedConfig) := rfl
  have hrun : Run boundedConfig _ _ := Run.of_play grantingMoves rfl
  obtain ⟨-, hcreated, hrenewed⟩ := leases_as_configured hconfig hrun
  exact ⟨_, _, hrun, rfl, rfl, hcreated 0 .forever ⟨1⟩ _ rfl rfl,
    hrenewed 1 ⟨1⟩ .any _ rfl rfl⟩

end Manager

end LeasedCommit
