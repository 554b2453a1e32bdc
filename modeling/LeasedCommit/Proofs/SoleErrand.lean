import LeasedCommit.Proofs.OwnMoves
import LeasedCommit.Proofs.Tasks

set_option autoImplicit false

/-! # An errand that nothing disturbs

In a `Manager.SoleRun` a task is asked for, and from then on nothing moves but its errand and the
operation that it runs (`Manager.owns_cases`). What a manager keeps besides errands and operations
are its `Holdings`. -/

namespace LeasedCommit

/-- The place of the transaction and the number of the operation that an errand runs. -/
def Errand.running? : Errand → Option (Nat × Nat)
  | .underway _ place operation => some (place, operation)
  | .expiring _ entry operation => some (entry.place, operation)
  | .begun _ | .reading _ | .storing _ | .counting .. | .sweeping _ | .finished _ | .panicked _ =>
    none

/-- What a manager keeps, apart from errands and operations. -/
@[ext]
structure Holdings where
  /-- The records of all transactions ever opened, by place. -/
  records : List Record
  totals : Totals
  table : List Entry
  nextId : UInt64
  created : UInt64
  evicted : UInt64
deriving DecidableEq

/-- A record is replaced, and something is added to the totals. -/
def Holdings.put (h : Holdings) (place : Nat) (r : Record) (counts : OutcomeCounts) : Holdings :=
  { h with records := h.records.set place r, totals := h.totals.add counts }

namespace Holdings

variable {h : Holdings} {place : Nat} {r : Record}

/-- To put a record back where it is changes nothing. -/
theorem put_self (hr : h.records[place]? = some r) : h.put place r .zero = h := by
  obtain ⟨hlt, rfl⟩ := List.getElem?_eq_some_iff.mp hr
  rw [put, List.set_getElem_self, Totals.add_zero]

theorem put_put (h : Holdings) (place : Nat) (r r' : Record) (a b : OutcomeCounts) :
    (h.put place r a).put place r' b = h.put place r' (a.add b) := by
  simp only [put, List.set_set, Totals.add_add]

end Holdings

namespace Manager

/-- What a manager keeps. -/
def holdings (m : Manager) : Holdings :=
  { records := m.coordinator.transactions.map Transaction.record, totals := m.coordinator.totals
    table := m.table, nextId := m.nextId, created := m.created, evicted := m.evicted }

/-- Whether a move is one of errand `k` or of the operation that it runs. -/
def owns (m : Manager) (k : Nat) : Move → Bool
  | .ask _ => false
  | .proceed i _ | .survey i _ _ => i == k
  | .act place action => action.operation?.any fun operation =>
      (m.errand? k).bind Errand.running? == some (place, operation)

/-- `Goes k m turns m'`: the turns lead from `m` to `m'`, and only errand `k` and the operation that
it runs move. -/
inductive Goes (k : Nat) (m : Manager) : List Turn → Manager → Prop
  | start : Goes k m [] m
  | next {turns : List Turn} {m₁ m₂ : Manager} {move : Move} : Goes k m turns m₁ →
    m₁.step move = some m₂ → m₁.owns k move = true →
    Goes k m (turns ++ [{ before := m₁, move := move, after := m₂ }]) m₂

/-- `m.SoleRun task turns m'`: a task is asked for, and then its errand and the operation that it
runs move alone. -/
inductive SoleRun (m : Manager) (task : Task) : List Turn → Manager → Prop
  | ask {turns : List Turn} {m₁ m' : Manager} : m.step (.ask task) = some m₁ →
    Goes m.errands.length m₁ turns m' →
    SoleRun m task ({ before := m, move := .ask task, after := m₁ } :: turns) m'

/-- The call that goes out in a turn on behalf of the transaction at a place. -/
def Turn.callTo? (place : Nat) (t : Turn) : Option Call :=
  match t.move with
  | .act moving action =>
    if moving = place then
      (action.operation?.bind (t.after.coordinator.stage? place)).bind Stage.call?
    else none
  | .ask _ | .proceed .. | .survey .. => none

/-- The calls that go out in a run on behalf of the transaction at a place. -/
def callsTo (place : Nat) (turns : List Turn) : List Call := turns.filterMap (Turn.callTo? place)

variable {config : Config} {past turns : List Turn} {m m₁ m₂ m' : Manager} {task : Task}
  {move : Move} {k place : Nat} {e : Errand} {x y : Transaction}

/-! ## Holdings -/

theorem holdings_put (m : Manager) (k : Nat) (e : Errand) : (m.put k e).holdings = m.holdings := rfl

theorem getElem?_records (m : Manager) (place : Nat) :
    m.holdings.records[place]? = m.coordinator.record? place :=
  List.getElem?_map

theorem record?_of_transaction (hx : m.coordinator.transactions[place]? = some x) :
    m.coordinator.record? place = some x.record := by
  rw [Coordinator.record?, hx, Option.map_some]

theorem holdings_moved (m : Manager) (place : Nat) (y : Transaction) (counts : OutcomeCounts) :
    holdings { m with coordinator := m.coordinator.moved place y counts } =
      m.holdings.put place y.record counts := by
  simp only [holdings, Coordinator.moved, Holdings.put, List.map_set]

/-- An operation that begins changes nothing that is kept. -/
theorem holdings_begun (hx : m.coordinator.transactions[place]? = some x) (q : Request) :
    holdings { m with coordinator := m.coordinator.moved place (x.begun q) .zero } =
      m.holdings := by
  have hr : m.holdings.records[place]? = some x.record :=
    (m.getElem?_records place).trans (record?_of_transaction hx)
  rw [holdings_moved]
  exact Holdings.put_self hr

/-! ## Calls -/

theorem callsTo_append (place : Nat) (turns more : List Turn) :
    callsTo place (turns ++ more) = callsTo place turns ++ callsTo place more :=
  List.filterMap_append

theorem callsTo_singleton (place : Nat) (t : Turn) :
    callsTo place [t] = (t.callTo? place).toList := by
  cases h : t.callTo? place <;> simp [callsTo, h]

/-- A call goes out when an operation comes to a stage where it has one out. -/
theorem callsTo_act {moving operation : Nat} {a : Action} {s : Stage}
    (ha : a.operation? = some operation) (hy : m₂.coordinator.transactions[moving]? = some y)
    (hs : y.stage? operation = some s) (place : Nat) :
    callsTo place [{ before := m₁, move := .act moving a, after := m₂ }] =
      if moving = place then s.call?.toList else [] := by
  rw [callsTo_singleton]
  by_cases hplace : moving = place
  · subst hplace
    rw [if_pos rfl, Turn.callTo?]
    simp [ha, Coordinator.stage?, hy, hs]
  · rw [if_neg hplace, Turn.callTo?]
    simp [hplace]

/-! ## Sole runs -/

theorem Goes.trans {more : List Turn} (h : Goes k m turns m₁) (h' : Goes k m₁ more m₂) :
    Goes k m (turns ++ more) m₂ := by
  induction h' with
  | start => simpa using h
  | next _ hstep hown ih =>
      rw [← List.append_assoc]
      exact ih.next hstep hown

theorem Goes.run (hrun : Run config past m) (h : Goes k m turns m') :
    Run config (past ++ turns) m' := by
  induction h with
  | start => simpa using hrun
  | next _ hstep _ ih =>
      rw [← List.append_assoc]
      exact ih.next hstep

theorem Goes.of_play (moves : List Move) (h : m.play moves = some (turns, m'))
    (hown : turns.all (fun t => t.before.owns k t.move) = true) : Goes k m turns m' := by
  induction moves generalizing m turns with
  | nil =>
      obtain ⟨rfl, rfl⟩ := Prod.mk.inj (Option.some.inj h)
      exact .start
  | cons move rest ih =>
      simp only [play, Option.bind_eq_some_iff, Option.map_eq_some_iff, Prod.mk.injEq,
        Prod.exists] at h
      obtain ⟨m₁, hstep, tail, last, hrest, rfl, rfl⟩ := h
      rw [List.all_cons, Bool.and_eq_true] at hown
      exact (Goes.start.next hstep hown.1).trans (ih hrest hown.2)

theorem SoleRun.run (hrun : Run config past m) (h : m.SoleRun task turns m') :
    Run config (past ++ turns) m' := by
  obtain ⟨hstep, hgoes⟩ := h
  simpa using hgoes.run (hrun.next hstep)

theorem SoleRun.of_play_after (_ : Run config past m) (moves : List Move)
    (h : m.play (.ask task :: moves) = some (turns, m'))
    (hown : turns.tail.all (fun t => t.before.owns m.errands.length t.move) = true) :
    m.SoleRun task turns m' := by
  simp only [play, Option.bind_eq_some_iff, Option.map_eq_some_iff, Prod.mk.injEq,
    Prod.exists] at h
  obtain ⟨m₁, hstep, tail, last, hrest, rfl, rfl⟩ := h
  exact .ask hstep (.of_play moves hrest hown)

/-- **What an errand and its operation can do when they have the turn**: the errand goes on, a
sweep surveys the table, or the operation moves. -/
theorem owns_cases (h : m₁.step move = some m₂) (hown : m₁.owns k move = true)
    (he : m₁.errand? k = some e) :
    (∃ now, move = .proceed k now ∧ m₁.proceed k now e = some m₂) ∨
    (∃ now order, move = .survey k now order ∧ e = .begun .sweep ∧ order.Perm m₁.table ∧
      m₂ = m₁.put k
        (.sweeping { now := now, rest := order, stats := { expired := 0, evicted := 0 } })) ∨
    ∃ place operation a x y counts, move = .act place a ∧ e.running? = some (place, operation) ∧
      a.operation? = some operation ∧ m₁.coordinator.transactions[place]? = some x ∧
      x.step m₁.coordinator.rules a = some (y, counts) ∧
      m₂ = { m₁ with coordinator := m₁.coordinator.moved place y counts } := by
  cases move with
  | ask task => cases hown
  | proceed i now =>
      obtain rfl : i = k := beq_iff_eq.mp hown
      simp only [step, he, Option.bind_some] at h
      exact .inl ⟨now, rfl, h⟩
  | survey i now order =>
      obtain rfl : i = k := beq_iff_eq.mp hown
      simp only [step, he] at h
      split at h
      · rename_i hsweep
        split at h
        · rename_i hperm
          exact .inr (.inl ⟨now, order, rfl, Option.some.inj hsweep, List.isPerm_iff.mp hperm,
            (Option.some.inj h).symm⟩)
        · cases h
      · cases h
  | act place a =>
      simp only [owns, Option.any_eq_true] at hown
      obtain ⟨operation, ha, hrunning⟩ := hown
      rw [he, Option.bind_some, beq_iff_eq] at hrunning
      obtain ⟨c, hc, rfl⟩ := step_act h
      obtain ⟨x, y, counts, hx, hstep, rfl⟩ := Coordinator.step_eq_some_iff.mp hc
      exact .inr (.inr ⟨place, operation, a, x, y, counts, rfl, hrunning, ha, hx, hstep, rfl⟩)

/-- The errand of a task that has just been asked for is the last one. -/
theorem step_ask (hstep : m.step (.ask task) = some m₁) :
    m₁.errand? m.errands.length = some (.begun task) ∧ m₁.holdings = m.holdings ∧
      m₁.coordinator = m.coordinator := by
  obtain rfl := Option.some.inj hstep
  exact ⟨List.getElem?_concat_length, rfl, rfl⟩

end Manager

end LeasedCommit
