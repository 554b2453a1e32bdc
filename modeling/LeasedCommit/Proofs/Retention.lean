import LeasedCommit.Proofs.Decided
import LeasedCommit.Proofs.Tasks

set_option autoImplicit false

/-! # Eviction and the operations that are under way

A transaction may be evicted while operations on it still deliver its decision. They do not notice.
`Manager.Alike` compares two managers in which the same operations on a decided transaction are
under way for the same errands, whatever else is different. What these do is a matter of the replies
they get and the clock they read (`Manager.Alike.play`), and the two managers before and after an
eviction are alike. Together with the life of a number this gives `Manager.number_lifetime`. -/

namespace LeasedCommit

/-- The operation among the first `n` on the transaction at a place that moves. -/
def Move.operation? (place n : Nat) : Move → Option Nat
  | .act moving action => if moving = place then action.operation?.filter (· < n) else none
  | .ask _ | .proceed .. | .survey .. => none

/-- Whether a move is one of the first `n` operations on the transaction at a place, or of one of
the errands that wait for them. -/
def Move.isFor (place n : Nat) (callers : List Nat) (move : Move) : Bool :=
  (move.operation? place n).isSome ||
    match move with
    | .proceed i _ => callers.contains i
    | _ => false

theorem Move.operation?_eq_some {place n i : Nat} {move : Move}
    (h : move.operation? place n = some i) :
    ∃ a, move = .act place a ∧ a.operation? = some i ∧ i < n := by
  cases move with
  | ask | proceed | survey => cases h
  | act moving a =>
      simp only [operation?] at h
      split at h
      · rename_i hplace
        obtain ⟨hi, hlt⟩ := Option.filter_eq_some_iff.mp h
        exact ⟨a, congrArg (Move.act · a) hplace, hi, of_decide_eq_true hlt⟩
      · cases h

/-- The moves of later operations are none of the first ones. -/
theorem Move.le_of_operation?_eq_none {place n i : Nat} {a : Action}
    (h : Move.operation? place n (.act place a) = none) (hi : a.operation? = some i) : n ≤ i := by
  by_contra hlt
  simp [operation?, hi, Option.filter, Nat.lt_of_not_le hlt] at h

namespace Manager

/-- The call that one of the first `n` operations on the transaction at a place makes in a turn. -/
def Turn.call? (place n : Nat) (t : Turn) : Option Call :=
  ((t.move.operation? place n).bind (t.after.coordinator.stage? place)).bind Stage.call?

/-- The calls that the first `n` operations on the transaction at a place make in a run. -/
def callsMade (place n : Nat) (turns : List Turn) : List Call :=
  turns.filterMap (Turn.call? place n)

/-- The errands for which an operation on the transaction at a place runs. -/
def callers (m : Manager) (place : Nat) : List Nat :=
  (List.range m.errands.length).filter fun i =>
    match m.errand? i with
    | some (.underway _ running _) => running = place
    | _ => false

/-- The same operations on a decided transaction stand alike, and the errands that wait for them. -/
structure Alike (place n : Nat) (callers : List Nat) (m k : Manager) : Prop where
  transaction : ∃ x y, m.coordinator.transactions[place]? = some x ∧
    k.coordinator.transactions[place]? = some y ∧ x.AgreesTo n y ∧ x.QuietFrom n ∧ y.QuietFrom n
  errand : ∀ i ∈ callers, ∃ e, m.errand? i = some e ∧ k.errand? i = some e ∧
    (e.isOver = true ∨ ∃ task operation, e = .underway task place operation ∧ operation < n)

variable {config : Config} {rules : Rules} {turns turns' : List Turn} {m m' k k' d d' : Manager}
  {place n : Nat} {callers : List Nat} {move : Move} {id : TransactionId}

theorem Alike.symm (h : m.Alike place n callers k) : k.Alike place n callers m where
  transaction := by
    obtain ⟨x, y, hx, hy, hagrees, hquiet, hquiet'⟩ := h.transaction
    exact ⟨y, x, hy, hx, hagrees.symm, hquiet', hquiet⟩
  errand i hi := by
    obtain ⟨e, he, he', hstands⟩ := h.errand i hi
    exact ⟨e, he', he, hstands⟩

theorem Alike.trans (h : m.Alike place n callers k) (h' : k.Alike place n callers d) :
    m.Alike place n callers d where
  transaction := by
    obtain ⟨x, y, hx, hy, hagrees, hquiet, -⟩ := h.transaction
    obtain ⟨y', z, hy', hz, hagrees', -, hquiet'⟩ := h'.transaction
    obtain rfl := Option.some.inj (hy'.symm.trans hy)
    exact ⟨x, z, hx, hz, hagrees.trans hagrees', hquiet, hquiet'⟩
  errand i hi := by
    obtain ⟨e, he, hk, hstands⟩ := h.errand i hi
    obtain ⟨e', hk', he', -⟩ := h'.errand i hi
    obtain rfl := Option.some.inj (hk'.symm.trans hk)
    exact ⟨e', he, he', hstands⟩

/-! ## One move -/

/-- A move that is not for them leaves them alike. -/
theorem Alike.aside (h : m.Alike place n callers k)
    (hm : Coordinator.Reached rules m.coordinator) (hstep : m.step move = some m')
    (hfor : move.isFor place n callers = false) : m'.Alike place n callers k where
  transaction := by
    obtain ⟨x, y, hx, hy, hagrees, hquiet, hquiet'⟩ := h.transaction
    have hnone : move.operation? place n = none := by
      simpa using (Bool.or_eq_false_iff.mp hfor).1
    obtain ⟨x', hx', rfl | ⟨a, counts, hmove, hwho⟩⟩ := transaction_of_step hstep hx
    · exact ⟨x', y, hx', hy, hagrees, hquiet, hquiet'⟩
    have hlate : ∀ i, a.operation? = some i → n ≤ i := by
      intro i hi
      rcases hwho with rfl | ⟨q, rfl⟩
      · exact Move.le_of_operation?_eq_none hnone hi
      · cases hi
    rw [hm.rules_eq] at hmove
    obtain ⟨hagrees', hquiet₁⟩ := hagrees.symm.step_late hquiet hlate hmove
    exact ⟨x', y, hx', hy, hagrees'.symm, hquiet₁, hquiet'⟩
  errand i hi := by
    obtain ⟨e, he, he', hstands⟩ := h.errand i hi
    rcases errand?_next hstep he with hsame | ⟨m₁, e₁, hmove, -, -⟩
    · exact ⟨e, hsame, he', hstands⟩
    exfalso
    cases move with
    | ask | act => cases hmove
    | proceed j now =>
        obtain rfl : j = i := Option.some.inj hmove
        have hnot := (Bool.or_eq_false_iff.mp hfor).2
        simp [hi] at hnot
    | survey j now order =>
        obtain rfl : j = i := Option.some.inj hmove
        simp only [step, he] at hstep
        split at hstep
        · rename_i hsweep
          obtain rfl := Option.some.inj hsweep
          rcases hstands with hover | ⟨task, operation, heq, -⟩
          · cases hover
          · cases heq
        · cases hstep

/-- An errand that learns how its operation has ended learns the same on both sides. -/
theorem Alike.ends {i : Nat} {now : Timestamp} (h : m.Alike place n callers k) (hi : i ∈ callers)
    (hstep : m.step (.proceed i now) = some m') :
    ∃ e e₀, m.errand? i = some e₀ ∧ k.errand? i = some e₀ ∧ e.isOver = true ∧ m' = m.put i e ∧
      k.step (.proceed i now) = some (k.put i e) := by
  obtain ⟨x, y, hx, hy, hagrees, -, -⟩ := h.transaction
  obtain ⟨e, he, he', hstands⟩ := h.errand i hi
  rcases hstands with hover | ⟨task, operation, rfl, hlt⟩
  · cases e with
    | finished | panicked =>
        simp only [step, he] at hstep
        cases hstep
    | _ => cases hover
  have hstage :
      k.coordinator.stage? place operation = m.coordinator.stage? place operation := by
    rw [Coordinator.stage?, Coordinator.stage?, hx, hy]
    exact hagrees.stage operation hlt
  have hrecord : k.coordinator.record? place = m.coordinator.record? place := by
    rw [Coordinator.record?, Coordinator.record?, hx, hy, Option.map_some, Option.map_some,
      hagrees.record]
  have hconclude : ∀ answer, k.conclude task place answer = m.conclude task place answer := by
    intro answer
    unfold conclude
    rw [hrecord]
  rcases step_underway he hstep with ⟨answer, hanswer, rfl⟩ | ⟨message, hmessage, rfl⟩
  · refine ⟨_, _, he, he', rfl, rfl, ?_⟩
    simp only [step, he', Option.bind_some, proceed, hstage, hanswer, hconclude]
  · refine ⟨_, _, he, he', rfl, rfl, ?_⟩
    simp only [step, he', Option.bind_some, proceed, hstage, hmessage]

/-- **A move that is for them can be made on both sides**, and leads to the same call. -/
theorem Alike.together (h : m.Alike place n callers k)
    (hm : Coordinator.Reached rules m.coordinator) (hk : Coordinator.Reached rules k.coordinator)
    (hstep : m.step move = some m') (hfor : move.isFor place n callers = true) :
    ∃ k', k.step move = some k' ∧ m'.Alike place n callers k' ∧
      Turn.call? place n { before := k, move := move, after := k' } =
        Turn.call? place n { before := m, move := move, after := m' } := by
  rcases Bool.or_eq_true_iff.mp hfor with hown | hcaller
  · -- an operation moves
    obtain ⟨x, y, hx, hy, hagrees, hquiet, hquiet'⟩ := h.transaction
    obtain ⟨i, hi⟩ := Option.isSome_iff_exists.mp hown
    obtain ⟨a, rfl, ha, hlt⟩ := Move.operation?_eq_some hi
    obtain ⟨c, hc, rfl⟩ := step_act hstep
    obtain ⟨x', counts, hx', hmove⟩ := Coordinator.step_at hx hc
    rw [hm.rules_eq] at hmove
    obtain ⟨y', hmove', hagrees'⟩ := hagrees.symm.step ha hlt hmove
    rw [← hk.rules_eq] at hmove'
    obtain ⟨c', hstep', hy'⟩ := step_act_of hy ha hmove'
    rw [hk.rules_eq] at hmove'
    refine ⟨_, hstep', ⟨⟨x', y', hx', hy', hagrees'.symm,
      hquiet.step (hm.sound hx) ha hlt hmove, hquiet'.step (hk.sound hy) ha hlt hmove'⟩,
      h.errand⟩, ?_⟩
    simp only [Turn.call?, hi, Option.bind_some, Coordinator.stage?, hx', hy']
    rw [hagrees'.stage i hlt]
  · -- an errand learns how its operation has ended
    cases move with
    | ask | act | survey => cases hcaller
    | proceed i now =>
        have hi : i ∈ callers := by simpa using hcaller
        obtain ⟨e, e₀, he, he', hover, rfl, hstep'⟩ := h.ends hi hstep
        refine ⟨_, hstep', ⟨h.transaction, fun j hj => ?_⟩, rfl⟩
        by_cases hji : j = i
        · subst hji
          exact ⟨e, errand?_put_self he rfl, errand?_put_self he' rfl, .inl hover⟩
        · obtain ⟨e₁, he₁, he₁', hstands⟩ := h.errand j hj
          exact ⟨e₁, (errand?_put_ne hji rfl).trans he₁, (errand?_put_ne hji rfl).trans he₁',
            hstands⟩

/-! ## A run -/

/-- **What goes on around them can be left out**: with nothing but the moves that are for them, the
same calls are made from a manager that is alike, and the errands end as they have ended. -/
theorem Alike.replay {moves : List Move} (h : m.Alike place n callers k)
    (hm : Coordinator.Reached rules m.coordinator) (hk : Coordinator.Reached rules k.coordinator)
    (hplay : m.play moves = some (turns, d)) :
    ∃ turns' d', k.play (moves.filter (Move.isFor place n callers)) = some (turns', d') ∧
      d.Alike place n callers d' ∧ callsMade place n turns' = callsMade place n turns := by
  induction moves generalizing m k turns with
  | nil =>
      obtain ⟨rfl, rfl⟩ := Prod.mk.inj (Option.some.inj hplay)
      exact ⟨[], k, rfl, h, rfl⟩
  | cons move rest ih =>
      simp only [play, Option.bind_eq_some_iff, Option.map_eq_some_iff, Prod.mk.injEq,
        Prod.exists] at hplay
      obtain ⟨m', hstep, tail, last, hrest, rfl, rfl⟩ := hplay
      have hm' := reached_of_step hstep hm
      cases hfor : move.isFor place n callers with
      | true =>
          obtain ⟨k', hstep', halike, hcall⟩ := h.together hm hk hstep hfor
          obtain ⟨turns', d', hplay', hlast, hcalls⟩ :=
            ih halike hm' (reached_of_step hstep' hk) hrest
          refine ⟨{ before := k, move := move, after := k' } :: turns', d', ?_, hlast, ?_⟩
          · rw [List.filter_cons_of_pos hfor]
            simp only [play, hstep', hplay', Option.bind_some, Option.map_some]
          · rw [callsMade, callsMade, List.filterMap_cons, List.filterMap_cons, hcall]
            have hrestcalls : turns'.filterMap (Turn.call? place n) =
                tail.filterMap (Turn.call? place n) := hcalls
            rw [hrestcalls]
      | false =>
          obtain ⟨turns', d', hplay', hlast, hcalls⟩ := ih (h.aside hm hstep hfor) hm' hk hrest
          refine ⟨turns', d', ?_, hlast, ?_⟩
          · rw [List.filter_cons_of_neg (by simp [hfor])]
            exact hplay'
          · have hnone : move.operation? place n = none := by
              simpa using (Bool.or_eq_false_iff.mp hfor).1
            rw [hcalls, callsMade, callsMade, List.filterMap_cons, Turn.call?, hnone]
            rfl

/-- **They go on alike**: two continuations with the same moves for them make the same calls, and
lead their errands to the same results. -/
theorem Alike.play {moves moves' : List Move} (h : m.Alike place n callers k)
    (hm : Coordinator.Reached rules m.coordinator) (hk : Coordinator.Reached rules k.coordinator)
    (hplay : m.play moves = some (turns, d)) (hplay' : k.play moves' = some (turns', d'))
    (hsame : moves.filter (Move.isFor place n callers) =
      moves'.filter (Move.isFor place n callers)) :
    callsMade place n turns = callsMade place n turns' ∧ d.Alike place n callers d' := by
  obtain ⟨own, x, hown, halike, hcalls⟩ := h.replay hm hk hplay
  obtain ⟨own', x', hown', halike', hcalls'⟩ := (h.symm.trans h).replay hk hk hplay'
  rw [← hsame, hown] at hown'
  obtain ⟨rfl, rfl⟩ := Prod.mk.inj (Option.some.inj hown')
  exact ⟨hcalls.symm.trans hcalls', halike.trans halike'.symm⟩

/-! ## An eviction -/

theorem mem_callers {i : Nat} :
    i ∈ m.callers place ↔
      ∃ task operation, m.errand? i = some (.underway task place operation) := by
  rw [callers, List.mem_filter, List.mem_range]
  constructor
  · rintro ⟨-, hi⟩
    split at hi
    · rename_i task running operation he
      exact ⟨task, operation, (of_decide_eq_true hi) ▸ he⟩
    · cases hi
  · rintro ⟨task, operation, he⟩
    refine ⟨(List.getElem?_eq_some_iff.mp he).1, ?_⟩
    rw [he]
    exact decide_eq_true rfl

/-- The number of operations ever begun on the transaction at a place. -/
def operationCount (m : Manager) (place : Nat) : Nat :=
  m.coordinator.transactions[place]?.elim 0 fun x => x.operations.length

/-- What is under way on the transaction at a place in `m` goes on alike from `m` and from `k`.

In two continuations with the same moves of these operations and of the errands that wait for them
(so the operations get the same replies and read the same times), they make the same calls and their
errands stand alike at the end. And nothing can keep them from their moves: those of a continuation
of one manager are, on their own, a continuation of the other. -/
def GoesOnAlike (place : Nat) (m k : Manager) : Prop :=
  let isFor := Move.isFor place (m.operationCount place) (m.callers place)
  (∀ moves moves' turns turns' d d', m.play moves = some (turns, d) →
    k.play moves' = some (turns', d') → moves.filter isFor = moves'.filter isFor →
      callsMade place (m.operationCount place) turns =
        callsMade place (m.operationCount place) turns' ∧
      ∀ i ∈ m.callers place, d'.errand? i = d.errand? i) ∧
  (∀ moves turns d, m.play moves = some (turns, d) →
    ∃ turns' d', k.play (moves.filter isFor) = some (turns', d')) ∧
  ∀ moves turns d, k.play moves = some (turns, d) →
    ∃ turns' d', m.play (moves.filter isFor) = some (turns', d')

/-- On a decided transaction everything under way stands alike in the same manager. -/
theorem Working.alike (h : m.Working) {record : Record}
    (hrecord : m.coordinator.record? place = some record)
    (hdecided : record.phase.isTerminal = true) :
    m.Alike place (m.operationCount place) (m.callers place) m := by
  obtain ⟨x, hx, rfl⟩ := Option.map_eq_some_iff.mp hrecord
  have hcount : m.operationCount place = x.operations.length := by
    rw [operationCount, hx]
    rfl
  rw [hcount]
  have hquiet := Transaction.quietFrom_length hdecided
  refine ⟨⟨x, x, hx, hx, .refl _ _, hquiet, hquiet⟩, fun i hi => ?_⟩
  obtain ⟨task, operation, he⟩ := mem_callers.mp hi
  obtain ⟨-, -, q, x', s, -, hx', hs, -⟩ := h.runs i task place operation he
  obtain rfl := Option.some.inj (hx'.symm.trans hx)
  exact ⟨_, he, he, .inr ⟨task, operation, rfl, (List.getElem?_eq_some_iff.mp hs).1⟩⟩

theorem Alike.goesOnAlike
    (h : m.Alike place (m.operationCount place) (m.callers place) k)
    (hm : Coordinator.Reached rules m.coordinator)
    (hk : Coordinator.Reached rules k.coordinator) : m.GoesOnAlike place k := by
  refine ⟨fun moves moves' turns turns' d d' hplay hplay' hsame => ?_,
    fun moves turns d hplay => ?_, fun moves turns d hplay => ?_⟩
  · obtain ⟨hcalls, halike⟩ := h.play hm hk hplay hplay' hsame
    refine ⟨hcalls, fun i hi => ?_⟩
    obtain ⟨e, he, he', -⟩ := halike.errand i hi
    exact he'.trans he.symm
  · obtain ⟨turns', d', hplay', -⟩ := h.replay hm hk hplay
    exact ⟨turns', d', hplay'⟩
  · obtain ⟨turns', d', hplay', -⟩ := h.symm.replay hk hm hplay
    exact ⟨turns', d', hplay'⟩

/-- **An eviction is not noticed** by the operations that are under way on the transaction. -/
theorem Run.evicts_unnoticed {past rest : List Turn} {t : Turn} {record : Record}
    (h : Run config (past ++ t :: rest) m) (hone : m.NumbersOne id) (hevicts : t.Evicts id)
    (hrecord : t.before.coordinator.record? place = some record)
    (hdecided : record.phase.isTerminal = true) : t.before.GoesOnAlike place t.after := by
  obtain ⟨hpast, hstep, -⟩ := h.cut
  obtain ⟨i, sweep, entry, operation, -, -, hmove, he, -⟩ := h.evicts_settled hone hevicts
  have hfor : t.move.isFor place (t.before.operationCount place) (t.before.callers place) =
      false := by
    cases hm : t.move with
    | ask | act =>
        rw [hm] at hmove
        cases hmove
    | survey => rfl
    | proceed j now =>
        rw [hm] at hmove
        obtain rfl : j = i := Option.some.inj hmove
        refine Bool.eq_false_iff.mpr fun hcaller => ?_
        have hin : j ∈ t.before.callers place := by
          simpa [Move.isFor, Move.operation?] using hcaller
        -- whoever sweeps does not wait for an operation of its own task
        obtain ⟨task, number, hunderway⟩ := mem_callers.mp hin
        cases he.symm.trans hunderway
  have halike := (hpast.working.alike hrecord hdecided).aside hpast.reached hstep hfor
  exact halike.symm.goesOnAlike hpast.reached (reached_of_step hstep hpast.reached)

/-! ## The main result -/

/-- An errand that has created a transaction has put it in the table at the place of its number, and
there it is found until it is evicted. -/
theorem Run.resolves_at {past rest : List Turn} {t : Turn} {i : Nat}
    (h : Run config (past ++ t :: rest) m) (hone : m.NumbersOne id) (hplace : place < m.issued)
    (hnumber : numberAt place = id) (hi : t.after.named? i = some id) :
    (∃ u ∈ past ++ [t], u.Evicts id) ∨
      t.after.entry? id = some { id := id, place := place } := by
  obtain ⟨hpast, hstep, hle⟩ := h.cut
  have hrun := hpast.next hstep
  rcases hrun.resolves (hone.of_le hle) hi with hevicted | ⟨p, hp, hentry⟩
  · exact .inl hevicted
  · have hlt := hrun.numbered.place _ (.inl (mem_of_entry?_eq_some hentry).1)
    obtain rfl := hone p (Nat.lt_of_lt_of_le hlt hle) place hplace hp hnumber
    exact .inr hentry

/-- **The life of a number.** As long as fewer than `2 ^ 64` transactions have been created, and
however the errands and operations interleave and wherever the clock goes:

1. no two creations give out the same number;
2. from its creation on a number leads to the same record, which has this number, until it is
   evicted;
3. only a sweep evicts, and only a decided transaction, when the clock reading with which the sweep
   began is later than the decision by more than the retention time. What is under way on the
   transaction goes on as if it had not been evicted: the same calls are made, and those who wait
   get the same results;
4. once it is evicted, a number is unknown for good to every task that looks it up. -/
theorem number_lifetime (h : Run config turns m) (hbound : m.issued < UInt64.size) :
    (∀ i j id expiration expiration',
      m.errand? i = some (.finished (.created id expiration)) →
      m.errand? j = some (.finished (.created id expiration')) → i = j) ∧
    (∀ i id expiration, m.errand? i = some (.finished (.created id expiration)) →
      ∃ place record, m.coordinator.record? place = some record ∧ record.id = id ∧
        ∀ past t rest, turns = past ++ t :: rest → t.after.named? i = some id →
          (∃ u ∈ past ++ [t], u.Evicts id) ∨
            t.after.entry? id = some { id := id, place := place }) ∧
    (∀ past t rest id, turns = past ++ t :: rest → t.Evicts id →
      ∃ i sweep entry operation place record settled, t.move.errand? = some i ∧
        t.before.errand? i = some (.expiring sweep entry operation) ∧
        (∃ s ∈ past, ∃ order, s.move = .survey i sweep.now order) ∧
        t.before.entry? id = some { id := id, place := place } ∧
        t.before.coordinator.record? place = some record ∧ record.phase.isTerminal = true ∧
        record.settledAt = some settled ∧ settled.plus config.retention < sweep.now ∧
        t.before.GoesOnAlike place t.after) ∧
    (∀ id, (∃ t ∈ turns, t.Evicts id) → m.entry? id = none ∧
      ∀ i task now, m.errand? i = some (.begun task) → task.id? = some id →
        m.step (.proceed i now) =
          some (m.put i (.finished (.refused (task.unknown id))))) := by
  have hone := numbersOne_of_issued hbound
  have hcreated : ∀ {i id expiration}, m.errand? i = some (.finished (.created id expiration)) →
      m.created? i = some id :=
    fun he => Option.bind_eq_some_iff.mpr ⟨_, he, rfl⟩
  refine ⟨fun i j id _ _ hi hj => ?_, fun i id _ hi => ?_, fun past t rest id hcut hevicts => ?_,
    fun id hevicted => ?_⟩
  · exact h.births.once id (hone id) i j (hcreated hi) (hcreated hj)
  · obtain ⟨place, hplace, rfl⟩ := h.births.number i id (hcreated hi)
    have hx := List.getElem?_eq_getElem hplace
    refine ⟨place, _, congrArg (Option.map Transaction.record) hx, h.record_id hx,
      fun past t rest hcut hnamed => ?_⟩
    exact (hcut ▸ h).resolves_at (hone _) hplace rfl hnamed
  · subst hcut
    obtain ⟨i, sweep, entry, operation, record, settled, hmove, he, -, hrecord, hdecided, hsettled,
      hlate, hsurvey⟩ := h.evicts_settled (hone id) hevicts
    obtain ⟨⟨id', place⟩, hentry, hplace⟩ := Option.bind_eq_some_iff.mp hrecord
    obtain rfl : id' = id := (mem_of_entry?_eq_some hentry).2
    exact ⟨i, sweep, entry, operation, place, record, settled, hmove, he, hsurvey, hentry, hplace,
      hdecided, hsettled, hlate, h.evicts_unnoticed (hone id') hevicts hplace hdecided⟩
  · obtain ⟨hnone, -⟩ := h.gone (hone id) hevicted
    exact ⟨hnone, fun i task now hi hid => step_of_absent hnone hi hid now⟩

theorem Run.of_play_around {past rest : List Turn} (move : Move) (moves : List Move)
    (h : Run config past m) (hstep : m.step move = some m')
    (hplay : m'.play moves = some (rest, d)) :
    Run config (past ++ { before := m, move := move, after := m' } :: rest) d := by
  rw [← List.singleton_append, ← List.append_assoc]
  exact Run.of_play_from moves (h.next hstep) hplay

/-- A commit has told the first of its two parties, and a sweep has come to its transaction. -/
def deliveringMoves : List Move :=
  let proceed (errand : Nat) : Move := .proceed errand .epoch
  let visit (operation : Nat) : Move := .act 0 (.visit operation (.steady .epoch))
  [.ask (.create .forever), proceed 0, proceed 0, proceed 0,
    .ask (.join ⟨1⟩ { key := 0, combines := false }), proceed 1, visit 0, proceed 1,
    .ask (.join ⟨1⟩ { key := 1, combines := false }), proceed 2, visit 1, proceed 2,
    .ask (.commit ⟨1⟩), proceed 3, visit 2, visit 2,
    .act 0 (.vote 2 (.returned (.answered .prepared))), visit 2, visit 2,
    .act 0 (.vote 2 (.returned (.answered .prepared))), visit 2, visit 2, visit 2,
    .act 0 (.acknowledge 2 (.returned (.answered ()))),
    .ask .sweep, .survey 4 (.ofMicros 100000000) [⟨⟨1⟩, 0⟩], proceed 4, visit 3]

/-- A sweep evicts the transaction while the commit waits for its second party. The commit goes on
to its report, and a renewal that is asked for then is refused. -/
theorem number_lifetime_delivering :
    ∃ past t rest m, Run .standard (past ++ t :: rest) m ∧ t.Evicts ⟨1⟩ ∧
      t.before.errand? 3 = some (.underway (.commit ⟨1⟩) 0 2) ∧
      (∃ place, t.before.entry? ⟨1⟩ = some ⟨⟨1⟩, place⟩ ∧ t.before.GoesOnAlike place t.after) ∧
      m.errand? 3 = some (.finished (.answered (.committed
        { id := ⟨1⟩, participants := 2
          failures := [{ position := 1, error := .protocol "no", attempts := 1 }] }))) ∧
      m.step (.proceed 5 .epoch) =
        some (m.put 5 (.finished (.refused (.unknownLease ⟨1⟩)))) := by
  have hdelivering : Run .standard _ _ := Run.of_play deliveringMoves rfl
  have hrun := Run.of_play_around (.proceed 4 .epoch)
    [.act 0 (.acknowledge 2 (.returned (.failed (.protocol "no")))),
      .act 0 (.visit 2 (.steady .epoch)), .proceed 3 .epoch, .ask (.renew ⟨1⟩ .any)]
    hdelivering rfl rfl
  obtain ⟨-, -, hevicts, hgone⟩ := number_lifetime hrun (by decide)
  have hturn := hevicts _ _ _ ⟨1⟩ rfl
  obtain ⟨-, -, -, -, place, -, -, -, -, -, hentry, -, -, -, -, halike⟩ :=
    hturn ⟨by decide, by decide⟩
  obtain ⟨-, hunknown⟩ := hgone ⟨1⟩
    ⟨_, List.mem_append_right _ (List.mem_cons_self ..), by decide, by decide⟩
  exact ⟨_, _, _, _, hrun, ⟨by decide, by decide⟩, rfl, ⟨place, hentry, halike⟩, rfl,
    hunknown 5 (.renew ⟨1⟩ .any) .epoch rfl rfl⟩

end Manager

end LeasedCommit
