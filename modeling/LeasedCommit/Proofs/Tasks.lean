import LeasedCommit.Proofs.Agreement
import LeasedCommit.Proofs.Isolation
import LeasedCommit.Proofs.Lifetime
import LeasedCommit.Proofs.Service

set_option autoImplicit false

/-! # The operations that errands run

A task that runs an operation begins it on the transaction that its number names, and concludes
with its answer. `Manager.transaction_of_step` says what a move of the manager is to one
transaction, and `Manager.Working` ties the errands to their operations. -/

namespace LeasedCommit

namespace Manager

variable {config : Config} {rules : Rules} {turns : List Turn} {m m' m₁ : Manager}
  {i place operation : Nat} {e e' : Errand} {move : Move} {task : Task} {x y : Transaction}
  {s : Stage}

/-! ## One move and one transaction -/

/-- A move of an errand leaves a transaction alone or begins an operation on it. -/
theorem Does.transaction (h : m.Does e m₁ e')
    (hx : m.coordinator.transactions[place]? = some x) :
    ∃ y, m₁.coordinator.transactions[place]? = some y ∧
      (y = x ∨ ∃ q, x.step m.coordinator.rules (.begin q) = some (y, .zero)) := by
  have hbegins : ∀ {moving : Nat} {q : Request} {c : Coordinator},
      m.coordinator.step moving (.begin q) = some c →
      ∃ y, c.transactions[place]? = some y ∧
        (y = x ∨ ∃ q, x.step m.coordinator.rules (.begin q) = some (y, .zero)) := by
    intro moving q c hc
    by_cases hplace : moving = place
    · subst hplace
      exact ⟨_, Coordinator.step_begin hx hc, .inr ⟨q, rfl⟩⟩
    · exact ⟨x, (Coordinator.step_other hc hplace).trans hx, .inl rfl⟩
  cases h with
  | begins _ _ hc => exact hbegins hc
  | visits _ hc => exact hbegins hc
  | opens =>
      have hlt : place < m.coordinator.transactions.length := (List.getElem?_eq_some_iff.mp hx).1
      exact ⟨x, (Coordinator.getElem?_openTransaction _ _ _ (Nat.ne_of_gt hlt)).trans hx, .inl rfl⟩
  | _ => exact ⟨x, hx, .inl rfl⟩

/-- A move of an operation is a step of the coordinator. -/
theorem step_act {moving : Nat} {action : Action} (h : m.step (.act moving action) = some m') :
    ∃ c, m.coordinator.step moving action = some c ∧ m' = { m with coordinator := c } := by
  cases action with
  | begin q => cases h
  | _ =>
      obtain ⟨c, hc, rfl⟩ := Option.map_eq_some_iff.mp h
      exact ⟨c, hc, rfl⟩

/-- A move that an operation on a transaction can make is a move of the manager. -/
theorem step_act_of {a : Action} {counts : OutcomeCounts} {j : Nat}
    (hx : m.coordinator.transactions[place]? = some x) (ha : a.operation? = some j)
    (hstep : x.step m.coordinator.rules a = some (y, counts)) :
    ∃ c, m.step (.act place a) = some { m with coordinator := c } ∧
      c.transactions[place]? = some y := by
  have hlt : place < m.coordinator.transactions.length := (List.getElem?_eq_some_iff.mp hx).1
  obtain ⟨c, hc, htransactions⟩ : ∃ c, m.coordinator.step place a = some c ∧
      c.transactions = m.coordinator.transactions.set place y := by
    rw [Coordinator.step, hx, Option.bind_some, hstep]
    exact ⟨_, rfl, rfl⟩
  refine ⟨c, ?_, htransactions ▸ List.getElem?_set_self hlt⟩
  cases a with
  | begin q => cases ha
  | _ => exact congrArg (Option.map _) hc

/-- **What a move is to a transaction**: nothing, or a move of one of its operations, or the
beginning of one. -/
theorem transaction_of_step (h : m.step move = some m')
    (hx : m.coordinator.transactions[place]? = some x) :
    ∃ y, m'.coordinator.transactions[place]? = some y ∧
      (y = x ∨ ∃ a counts, x.step m.coordinator.rules a = some (y, counts) ∧
        (move = .act place a ∨ ∃ q, a = .begin q)) := by
  cases move with
  | act moving action =>
      obtain ⟨c, hc, rfl⟩ := step_act h
      by_cases hplace : moving = place
      · subst hplace
        obtain ⟨y, counts, hy, hstep⟩ := Coordinator.step_at hx hc
        exact ⟨y, hy, .inr ⟨action, counts, hstep, .inl rfl⟩⟩
      · exact ⟨x, (Coordinator.step_other hc hplace).trans hx, .inl rfl⟩
  | ask task =>
      obtain rfl := Option.some.inj h
      exact ⟨x, hx, .inl rfl⟩
  | proceed | survey =>
      rcases step_cases h with ⟨task, hno, -⟩ | ⟨moving, action, c, hno, -, -⟩ |
        ⟨i, e, m₁, e', -, -, hdoes, rfl⟩
      · cases hno
      · cases hno
      · obtain ⟨y, hy, heq | ⟨q, hq⟩⟩ := hdoes.transaction hx
        · exact ⟨y, hy, .inl heq⟩
        · exact ⟨y, hy, .inr ⟨.begin q, .zero, hq, .inr ⟨q, rfl⟩⟩⟩

theorem reached_of_step (h : m.step move = some m')
    (hc : Coordinator.Reached rules m.coordinator) : Coordinator.Reached rules m'.coordinator := by
  rcases step_cases h with ⟨task, -, rfl⟩ | ⟨moving, action, c, -, hstep, rfl⟩ |
    ⟨i, e, m₁, e', -, -, hdoes, rfl⟩
  · exact hc
  · exact hc.step hstep
  · show Coordinator.Reached rules m₁.coordinator
    rcases hdoes.coordinator with heq | ⟨request, now, heq⟩ | ⟨moving, action, hstep⟩
    · exact heq ▸ hc
    · exact heq ▸ hc.openTransaction
    · exact hc.step hstep

/-- The transaction at a place has the number of the place. -/
theorem Run.record_id (h : Run config turns m)
    (hx : m.coordinator.transactions[place]? = some x) : x.record.id = numberAt place := by
  have hstep : ∀ {m : Manager} {moving : Nat} {action : Action} {c : Coordinator},
      Coordinator.Reached config.rules m.coordinator →
      (∀ place x, m.coordinator.transactions[place]? = some x → x.record.id = numberAt place) →
      m.coordinator.step moving action = some c →
      ∀ place x, c.transactions[place]? = some x → x.record.id = numberAt place := by
    intro m moving action c hreached ih hc place x hx
    by_cases hplace : moving = place
    · subst hplace
      obtain ⟨x₀, y, counts, hx₀, hy, hmove, -⟩ := Coordinator.step_self hc
      obtain rfl := Option.some.inj (hy.symm.trans hx)
      exact ((hreached.sound hx₀).step_later hmove).id.trans (ih moving x₀ hx₀)
    · exact ih place x ((Coordinator.step_other hc hplace).symm.trans hx)
  refine Run.invariant
    (P := fun m => ∀ (place : Nat) (x : Transaction),
      m.coordinator.transactions[place]? = some x → x.record.id = numberAt place)
    (fun place x hx => by simp [create, Coordinator.create] at hx) (fun _ _ ih => ih)
    (fun _ m _ _ _ hrun ih hc => hstep hrun.reached ih hc)
    (fun _ m m₁ _ _ _ hrun ih _ hdoes => ?_) h place x hx
  show ∀ place x, m₁.coordinator.transactions[place]? = some x → x.record.id = numberAt place
  rcases hdoes.coordinator with heq | ⟨request, now, heq⟩ | ⟨moving, action, hc⟩
  · rw [heq]
    exact ih
  · -- a new transaction takes the next number
    intro place x hx
    by_cases hplace : m.issued = place
    · subst hplace
      have hnew : (m.coordinator.openTransaction ⟨m.nextId⟩ request now).1.transactions[m.issued]? =
          some (Transaction.opened m.coordinator.rules.lease ⟨m.nextId⟩ request now) :=
        List.getElem?_concat_length
      rw [heq, hnew] at hx
      obtain rfl := Option.some.inj hx
      exact hrun.numbered.next.symm
    · rw [heq, Coordinator.getElem?_openTransaction _ _ _ hplace] at hx
      exact ih place x hx
  · exact hstep hrun.reached ih hc

/-- What a move is to an operation: nothing, or one of the ways in which it can go on. -/
theorem stage?_of_step (h : m.step move = some m') (hc : Coordinator.Reached rules m.coordinator)
    (hx : m.coordinator.transactions[place]? = some x) (hs : x.stage? operation = some s) :
    ∃ y s', m'.coordinator.transactions[place]? = some y ∧ y.stage? operation = some s' ∧
      (s' = s ∨ ∃ a, move = .act place a ∧ a.operation? = some operation ∧
        Advance rules x.record a s y.record s') := by
  have hsound := hc.sound hx
  obtain ⟨y, hy, rfl | ⟨a, counts, hstep, hmove⟩⟩ := transaction_of_step h hx
  · exact ⟨y, s, hy, hs, .inl rfl⟩
  rw [hc.rules_eq] at hstep
  rcases Transaction.step_cases hsound.shape hsound.fits hstep with
    ⟨q, -, rfl⟩ | ⟨j, t, r', s', hj, hm, hmoved⟩
  · exact ⟨_, s, hy, Transaction.stage?_begun_of_some hs, .inl rfl⟩
  by_cases hne : operation = j
  · subst hne
    obtain rfl := Option.some.inj (hmoved.stage.symm.trans hs)
    rcases hmove with rfl | ⟨q, rfl⟩
    · exact ⟨y, s', hy, hmoved.stage?_self, .inr ⟨a, rfl, hj, hmoved.record ▸ hm⟩⟩
    · cases hj
  · exact ⟨y, s, hy, (hmoved.stage?_of_ne hne).trans hs, .inl rfl⟩

/-- An operation that is over stays where it is. -/
theorem stage?_stays (h : m.step move = some m') (hc : Coordinator.Reached rules m.coordinator)
    (hstage : m.coordinator.stage? place operation = some s) (hover : s.isOver = true) :
    m'.coordinator.stage? place operation = some s := by
  obtain ⟨x, hx, hs⟩ := Option.bind_eq_some_iff.mp hstage
  obtain ⟨y, s', hy, hs', rfl | ⟨a, -, -, hm⟩⟩ := stage?_of_step h hc hx hs
  · exact Option.bind_eq_some_iff.mpr ⟨y, hy, hs'⟩
  · rw [hm.isOver_eq_false] at hover
    cases hover

/-! ## Errands that run an operation -/

/-- An errand that runs an operation goes on once it is over, and ends as the operation has. -/
theorem step_underway (he : m.errand? i = some (.underway task place operation)) {now : Timestamp}
    (h : m.step (.proceed i now) = some m') :
    (∃ answer, m.coordinator.stage? place operation = some (.finished answer) ∧
      m' = m.put i (.finished (m.conclude task place answer))) ∨
    ∃ message, m.coordinator.stage? place operation = some (.panicked message) ∧
      m' = m.put i (.panicked message) := by
  simp only [step, he, Option.bind_some, proceed] at h
  split at h
  · rename_i answer hstage
    exact .inl ⟨answer, hstage, (Option.some.inj h).symm⟩
  · rename_i message hstage
    exact .inr ⟨message, hstage, (Option.some.inj h).symm⟩
  · cases h

/-- What a look-up leads to: a refusal, the reading of a report, or an operation that begins. -/
theorem lookUp_cases {id : TransactionId} (h : m.lookUp i task id = some m') :
    (m.entry? id = none ∧ m' = m.put i (.finished (.refused (task.unknown id)))) ∨
    (∃ entry, m.entry? id = some entry ∧ task.request? = none ∧
      m' = m.put i (.reading entry.place)) ∨
    ∃ entry q x, m.entry? id = some entry ∧ task.request? = some q ∧
      m.coordinator.transactions[entry.place]? = some x ∧
      ∃ c, m.coordinator.step entry.place (.begin q) = some c ∧
        m' = { m with coordinator := c }.put i
          (.underway task entry.place x.operations.length) := by
  unfold lookUp at h
  split at h
  · rename_i hnone
    exact .inl ⟨hnone, (Option.some.inj h).symm⟩
  · rename_i entry hentry
    split at h
    · rename_i hrequest
      exact .inr (.inl ⟨entry, hentry, hrequest, (Option.some.inj h).symm⟩)
    · rename_i q hrequest
      simp only [begin?, Option.map_eq_some_iff, Option.bind_eq_some_iff, Prod.mk.injEq,
        Prod.exists] at h
      obtain ⟨_, _, ⟨x, hx, c, hc, rfl, rfl⟩, rfl⟩ := h
      exact .inr (.inr ⟨entry, q, x, hentry, hrequest, hx, c, hc, rfl⟩)

/-- The task of an errand at its beginning is looked up, unless it creates or sweeps. -/
theorem step_begun (he : m.errand? i = some (.begun task)) {id : TransactionId}
    (hid : task.id? = some id) {now : Timestamp} (h : m.step (.proceed i now) = some m') :
    m.lookUp i task id = some m' := by
  simp only [step, he, Option.bind_some] at h
  cases task with
  | create | sweep => cases hid
  | _ =>
      obtain rfl := Option.some.inj hid
      exact h

/-- Only an errand that looks its number up comes to run an operation. -/
theorem lookUp_of_proceed {now : Timestamp} (he : m.errand? i = some e)
    (h : m.proceed i now e = some m') (hi : m'.errand? i = some (.underway task place operation)) :
    ∃ task' id, e = .begun task' ∧ task'.id? = some id ∧ m.lookUp i task' id = some m' := by
  have hstands : ∀ {m₁ : Manager} {e' : Errand}, m' = m₁.put i e' → m₁.errands = m.errands →
      e' = .underway task place operation := by
    rintro m₁ e' rfl herrands
    exact Option.some.inj ((errand?_put_self he herrands).symm.trans hi)
  have hstep : m.step (.proceed i now) = some m' := by
    simpa only [step, he, Option.bind_some] using h
  cases e with
  | begun task' =>
      cases hid : task'.id? with
      | none =>
          cases task' with
          | create request => cases hstands (Option.some.inj h).symm rfl
          | sweep => cases h
          | _ => cases hid
      | some id => exact ⟨task', id, rfl, hid, step_begun he hid hstep⟩
  | underway task' place' operation' =>
      rcases step_underway he hstep with ⟨answer, -, hm'⟩ | ⟨message, -, hm'⟩ <;>
        cases hstands hm' rfl
  | reading | storing =>
      obtain ⟨record, -, hm'⟩ := Option.map_eq_some_iff.mp h
      cases hstands hm'.symm rfl
  | counting => cases hstands (Option.some.inj h).symm rfl
  | sweeping sweep =>
      simp only [proceed] at h
      split at h
      · cases hstands (Option.some.inj h).symm rfl
      · simp only [Option.map_eq_some_iff, Prod.exists] at h
        obtain ⟨m₁, number, hbegin, hm'⟩ := h
        obtain ⟨c, -, rfl⟩ := begin?_eq_some hbegin
        cases hstands hm'.symm rfl
  | expiring =>
      simp only [proceed] at h
      split at h
      · cases hstands (Option.some.inj h).symm rfl
      · split at h
        · rename_i m₁ hevict
          obtain ⟨rfl, -⟩ := evict?_eq_some hevict
          cases hstands (Option.some.inj h).symm rfl
        · cases hstands (Option.some.inj h).symm rfl
      · cases hstands (Option.some.inj h).symm rfl
      · cases h
  | finished | panicked => cases h

/-- An operation that an errand runs was begun with its look-up. -/
theorem underway_of_step (h : m.step move = some m')
    (hi : m'.errand? i = some (.underway task place operation)) :
    m.errand? i = some (.underway task place operation) ∨
    (∃ now, move = .proceed i now) ∧ m.errand? i = some (.begun task) ∧
      ∃ id entry q x, task.id? = some id ∧ m.entry? id = some entry ∧ entry.place = place ∧
        task.request? = some q ∧ m.coordinator.transactions[place]? = some x ∧
        x.operations.length = operation ∧
        m'.coordinator.transactions[place]? = some (x.begun q) := by
  rcases errand?_of_step h hi with hold | ⟨task', hbegun⟩ | ⟨e, m₁, hmove, he, -, -⟩
  · exact .inl hold
  · cases hbegun
  cases move with
  | ask | act => cases hmove
  | survey j now order =>
      obtain rfl : j = i := Option.some.inj hmove
      simp only [step] at h
      split at h
      · split at h
        · obtain rfl := Option.some.inj h
          cases (errand?_put_self he rfl).symm.trans hi
        · cases h
      · cases h
  | proceed j now =>
      obtain rfl : j = i := Option.some.inj hmove
      have hproceed : m.proceed j now e = some m' := by
        simpa only [step, he, Option.bind_some] using h
      obtain ⟨task', id, rfl, hid, hlook⟩ := lookUp_of_proceed he hproceed hi
      rcases lookUp_cases hlook with ⟨-, rfl⟩ | ⟨entry, -, -, rfl⟩ |
        ⟨entry, q, x, hentry, hrequest, hx, c, hc, rfl⟩
      · cases (errand?_put_self he rfl).symm.trans hi
      · cases (errand?_put_self he rfl).symm.trans hi
      · have hself : ({ m with coordinator := c }.put j
            (.underway task' entry.place x.operations.length)).errand? j =
              some (.underway task' entry.place x.operations.length) := errand?_put_self he rfl
        obtain ⟨rfl, rfl, rfl⟩ := Errand.underway.inj (Option.some.inj (hself.symm.trans hi))
        exact .inr ⟨⟨now, rfl⟩, he, id, entry, q, x, hid, hentry, rfl, hrequest, hx, rfl,
          Coordinator.step_begin hx hc⟩

/-- Errands run operations of their own, which work on their tasks. -/
structure Working (m : Manager) : Prop where
  runs : ∀ i task place operation, m.errand? i = some (.underway task place operation) →
    task.id? = some (numberAt place) ∧ place < m.issued ∧
      ∃ q x s, task.request? = some q ∧ m.coordinator.transactions[place]? = some x ∧
        x.stage? operation = some s ∧ s.Serves q
  apart : ∀ i j task task' place operation, m.errand? i = some (.underway task place operation) →
    m.errand? j = some (.underway task' place operation) → i = j

theorem Run.working (h : Run config turns m) : m.Working := by
  induction h with
  | start =>
      exact ⟨fun i task place operation hi => by simp [errand?, create] at hi,
        fun i j task task' place operation hi => by simp [errand?, create] at hi⟩
  | @next turns m m' move hrun hstep ih =>
      have hreached := hrun.reached
      have hnumbered := hrun.numbered
      refine ⟨fun i task place operation hi => ?_,
        fun i j task task' place operation hi hj => ?_⟩
      · rcases underway_of_step hstep hi with hold | ⟨-, -, id, entry, q, x, hid, hentry, rfl, hq,
          hx, rfl, hx'⟩
        · obtain ⟨hid, hplace, q, x, s, hq, hx, hs, hserves⟩ := ih.runs i task place operation hold
          obtain ⟨y, s', hy, hs', hgoes⟩ := stage?_of_step hstep hreached hx hs
          refine ⟨hid, Nat.lt_of_lt_of_le hplace (issued_le hstep), q, y, s', hq, hy, hs', ?_⟩
          rcases hgoes with rfl | ⟨a, -, -, hm⟩
          · exact hserves
          · exact hm.serves hserves
        · -- the operation has just begun
          obtain ⟨hmem, rfl⟩ := mem_of_entry?_eq_some hentry
          refine ⟨hid.trans (congrArg some (hnumbered.id entry (.inl hmem))),
            Nat.lt_of_lt_of_le (hnumbered.place entry (.inl hmem)) (issued_le hstep), q, _,
            .requested q, hq, hx', ?_, rfl⟩
          exact List.getElem?_concat_length
      · have hfresh : ∀ {k : Nat} {task : Task} {x : Transaction},
            m.errand? k = some (.underway task place operation) →
            m.coordinator.transactions[place]? = some x → x.operations.length ≠ operation := by
          intro k task x hk hx
          obtain ⟨-, -, q, x', s, -, hx', hs, -⟩ := ih.runs k task place operation hk
          obtain rfl := Option.some.inj (hx'.symm.trans hx)
          exact Nat.ne_of_gt (List.getElem?_eq_some_iff.mp hs).1
        rcases underway_of_step hstep hi with hold | ⟨⟨now, rfl⟩, -, -, -, -, x, -, -, -, -, hx,
          hlast, -⟩ <;>
        rcases underway_of_step hstep hj with hold' | ⟨⟨now', hmove⟩, -, -, -, -, x', -, -, -, -,
          hx', hlast', -⟩
        · exact ih.apart i j task task' place operation hold hold'
        · exact absurd hlast' (hfresh hold hx')
        · exact absurd hlast (hfresh hold' hx)
        · exact (Move.proceed.inj hmove).1

/-! ## From the task to its result -/

/-- An errand that moves goes on, unless it is a sweep that begins with its survey. -/
theorem proceeds_of_step (h : m.step move = some m') (hmove : move.errand? = some i)
    (he : m.errand? i = some e) (hne : e ≠ .begun .sweep) : ∃ now, move = .proceed i now := by
  cases move with
  | ask | act => cases hmove
  | proceed j now =>
      obtain rfl : j = i := Option.some.inj hmove
      exact ⟨now, rfl⟩
  | survey j now order =>
      obtain rfl : j = i := Option.some.inj hmove
      simp only [step, he] at h
      split at h
      · rename_i hsweep
        exact absurd (Option.some.inj hsweep) hne
      · cases h

/-- An errand at its beginning stays there until it looks its number up. -/
theorem begun_next (h : m.step move = some m') (he : m.errand? i = some (.begun task))
    {id : TransactionId} (hid : task.id? = some id) :
    m'.errand? i = some (.begun task) ∨ m.lookUp i task id = some m' := by
  rcases errand?_next h he with hsame | ⟨m₁, e', hmove, -, -⟩
  · exact .inl hsame
  · have hne : Errand.begun task ≠ .begun .sweep := by
      intro heq
      rw [Errand.begun.inj heq] at hid
      cases hid
    obtain ⟨now, rfl⟩ := proceeds_of_step h hmove he hne
    exact .inr (step_begun he hid h)

/-- An errand waits for its operation until that is over. -/
theorem underway_next (h : m.step move = some m')
    (he : m.errand? i = some (.underway task place operation)) :
    m'.errand? i = some (.underway task place operation) ∨
    (∃ answer, m.coordinator.stage? place operation = some (.finished answer) ∧
      m' = m.put i (.finished (m.conclude task place answer))) ∨
    ∃ message, m.coordinator.stage? place operation = some (.panicked message) ∧
      m' = m.put i (.panicked message) := by
  rcases errand?_next h he with hsame | ⟨m₁, e', hmove, -, -⟩
  · exact .inl hsame
  · obtain ⟨now, rfl⟩ := proceeds_of_step h hmove he (fun heq => nomatch heq)
    exact .inr (step_underway he h)

/-- An errand that is over stays as it is. -/
theorem over_next (h : m.step move = some m') (he : m.errand? i = some e)
    (hover : e.isOver = true) : m'.errand? i = some e := by
  rcases errand?_next h he with hsame | ⟨m₁, e', hmove, -, -⟩
  · exact hsame
  · obtain ⟨now, rfl⟩ := proceeds_of_step h hmove he (fun heq => by rw [heq] at hover; cases hover)
    simp only [step, he, Option.bind_some] at h
    cases e with
    | finished | panicked => cases h
    | _ => cases hover

/-- The tasks that were asked for, in the order of asking. -/
def asked (turns : List Turn) : List Task :=
  turns.filterMap fun t =>
    match t.move with
    | .ask task => some task
    | _ => none

theorem asked_append (turns more : List Turn) : asked (turns ++ more) = asked turns ++ asked more :=
  List.filterMap_append

end Manager

/-- Where an errand can stand whose task runs an operation. -/
inductive Errand.Pursues (task : Task) : Errand → Prop
  | begun : Pursues task (.begun task)
  | underway {place operation : Nat} : Pursues task (.underway task place operation)
  | answered {answer : Answer} : Pursues task (.finished (.answered answer))
  | panicked {message : String} : Pursues task (.panicked message)

theorem Task.id?_of_request? {task : Task} {q : Request} (h : task.request? = some q) :
    ∃ id, task.id? = some id := by
  cases task with
  | create | sweep | report => cases h
  | _ => exact ⟨_, rfl⟩

namespace Manager

variable {config : Config} {turns : List Turn} {m m' : Manager} {i place : Nat} {e : Errand}
  {move : Move} {task : Task} {q : Request}

theorem conclude_answered (m : Manager) (task : Task) (place : Nat) (answer : Answer) :
    ∃ answer', m.conclude task place answer = .answered answer' := by
  unfold conclude
  split
  · exact ⟨_, rfl⟩
  · exact ⟨_, rfl⟩
  · exact ⟨_, rfl⟩

theorem Pursues.next (h : m.step move = some m') (he : m.errand? i = some e)
    (hp : e.Pursues task) (hq : task.request? = some q) :
    ∃ e', m'.errand? i = some e' ∧ e'.Pursues task := by
  cases hp with
  | begun =>
      obtain ⟨id, hid⟩ := Task.id?_of_request? hq
      rcases begun_next h he hid with hsame | hlook
      · exact ⟨_, hsame, .begun⟩
      · rcases lookUp_cases hlook with ⟨-, rfl⟩ | ⟨entry, -, hnone, -⟩ |
          ⟨entry, q, x, -, -, -, c, -, rfl⟩
        · exact ⟨_, errand?_put_self he rfl, .answered⟩
        · rw [hq] at hnone
          cases hnone
        · exact ⟨_, errand?_put_self he rfl, .underway⟩
  | underway =>
      rcases underway_next h he with hsame | ⟨answer, -, rfl⟩ | ⟨message, -, rfl⟩
      · exact ⟨_, hsame, .underway⟩
      · obtain ⟨answer', hanswer⟩ := conclude_answered m task _ answer
        rw [hanswer]
        exact ⟨_, errand?_put_self he rfl, .answered⟩
      · exact ⟨_, errand?_put_self he rfl, .panicked⟩
  | answered => exact ⟨_, over_next h he rfl, .answered⟩
  | panicked => exact ⟨_, over_next h he rfl, .panicked⟩

/-- A move asks for a new task, or leaves the number of errands as it is. -/
theorem asked_of_step (h : m.step move = some m') :
    (∃ task, asked [{ before := m, move := move, after := m' }] = [task] ∧
      m'.errands = m.errands ++ [.begun task]) ∨
    (asked [{ before := m, move := move, after := m' }] = [] ∧
      m'.errands.length = m.errands.length) := by
  cases move with
  | ask task =>
      obtain rfl := Option.some.inj h
      exact .inl ⟨task, rfl, rfl⟩
  | act place action =>
      obtain ⟨c, -, rfl⟩ := step_act h
      exact .inr ⟨rfl, rfl⟩
  | proceed | survey =>
      rcases step_cases h with ⟨task, hno, -⟩ | ⟨place, action, c, hno, -⟩ |
        ⟨i, e, m₁, e', -, -, hdoes, rfl⟩
      · cases hno
      · cases hno
      · refine .inr ⟨rfl, ?_⟩
        show (m₁.errands.set i e').length = _
        rw [List.length_set, hdoes.errands]

theorem Run.asked_length (h : Run config turns m) : (asked turns).length = m.errands.length := by
  induction h with
  | start => rfl
  | next _ hstep ih =>
      rw [asked_append, List.length_append, ih]
      rcases asked_of_step hstep with ⟨task, hnew, herrands⟩ | ⟨hnone, hlength⟩
      · rw [hnew, herrands, List.length_append]
        rfl
      · rw [hnone, hlength]
        rfl

/-- What was asked for before a move was asked for earlier, or the move is that of asking. -/
theorem asked_before (hrun : Run config turns m) (h : m.step move = some m')
    (hi : (asked (turns ++ [{ before := m, move := move, after := m' }]))[i]? = some task) :
    (asked turns)[i]? = some task ∨
      (m.errand? i = none ∧ m'.errand? i = some (.begun task)) := by
  have hlength := hrun.asked_length
  rw [asked_append, List.getElem?_append] at hi
  split at hi
  · exact .inl hi
  · -- the errand has just been asked for
    rename_i hge
    rcases asked_of_step h with ⟨new, hnew, herrands⟩ | ⟨hnone, -⟩
    · rw [hnew] at hi
      obtain ⟨hlt, hget⟩ := List.getElem?_eq_some_iff.mp hi
      have hzero : i - (asked turns).length = 0 := by simpa using hlt
      obtain rfl : new = task := by simpa [hzero] using hget
      have hlast : i = m.errands.length := by omega
      refine .inr ⟨List.getElem?_eq_none (Nat.le_of_eq hlast.symm), ?_⟩
      rw [errand?, herrands, hlast]
      exact List.getElem?_concat_length
    · rw [hnone] at hi
      cases hi

/-- **Every errand pursues the task that was asked for.** -/
theorem Run.pursues (h : Run config turns m) (hi : (asked turns)[i]? = some task)
    (hq : task.request? = some q) : ∃ e, m.errand? i = some e ∧ e.Pursues task := by
  induction h with
  | start => cases hi
  | next hrun hstep ih =>
      rcases asked_before hrun hstep hi with hearlier | ⟨-, hnew⟩
      · obtain ⟨e, he, hp⟩ := ih hearlier
        exact Pursues.next hstep he hp hq
      · exact ⟨_, hnew, .begun⟩

/-- What holds at some moment of a run and is preserved by every later move holds at the end. -/
theorem Run.since {P : List Turn → Manager → Prop} {past rest : List Turn} {m₀ : Manager}
    (h : Run config (past ++ rest) m) (hpast : Run config past m₀) (hstart : P past m₀)
    (hstep : ∀ turns (t : Turn), t ∈ rest → Run config turns t.before → P turns t.before →
      t.before.step t.move = some t.after → P (turns ++ [t]) t.after) : P (past ++ rest) m := by
  induction rest using List.reverseRecOn generalizing m with
  | nil =>
      rw [List.append_nil] at h ⊢
      exact hpast.unique h ▸ hstart
  | append_singleton rest t ih =>
      rw [← List.append_assoc] at h ⊢
      obtain ⟨hbefore, hmove, rfl⟩ := h.last
      have hearlier := ih hbefore fun turns u hu => hstep turns u (List.mem_append_left _ hu)
      exact hstep _ t (List.mem_append_right _ (List.mem_singleton_self t)) hbefore hearlier hmove

end Manager

end LeasedCommit
