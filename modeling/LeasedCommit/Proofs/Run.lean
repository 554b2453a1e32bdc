import LeasedCommit.Coordinator.Step

set_option autoImplicit false

/-! # Runs of a transaction

A `Run` is any sequence of moves of any number of operations on one record, each recorded as a
`Turn`. The history of a run (`history`) lists what passes between the operations and the
slots of the record: which calls go out, and how they end. A combined request counts as one
call, also when the party answers it by a conversation of several calls (`Exchange`). -/

namespace LeasedCommit

/-- One move that a transaction has made. -/
structure Turn where
  before : Transaction
  action : Action
  after : Transaction

/-- `Run rules x turns y`: the turns lead from `x` to `y`. -/
inductive Run (rules : Rules) (x : Transaction) : List Turn → Transaction → Prop
  | start : Run rules x [] x
  | next {turns : List Turn} {y z : Transaction} {action : Action} {counts : OutcomeCounts} :
    Run rules x turns y → y.step rules action = some (z, counts) →
      Run rules x (turns ++ [{ before := y, action := action, after := z }]) z

/-- What passes between an operation and the slot at a position. -/
inductive Event
  /-- A call goes out. -/
  | called (position : Nat) (verb : Verb)
  /-- A vote comes in. -/
  | voted (position : Nat) (reply : Reply Vote)
  /-- The combined request to the only slot comes back. -/
  | soleVoted (reply : Reply CombinedVote)
  /-- A commit or abort call comes back. -/
  | told (position : Nat) (verb : Verb) (reply : Reply Unit)
deriving DecidableEq

/-- The slot that an event is about. -/
def Event.position : Event → Nat
  | .called position _ | .voted position _ | .told position _ _ => position
  | .soleVoted _ => 0

/-- The operation that moves. -/
def Action.operation? : Action → Option Nat
  | .begin _ => none
  | .visit i _ | .vote i _ | .combinedVote i _ | .acknowledge i _ | .resume i | .giveUp i => some i

/-- The call that comes back when an operation at a stage moves. The combined request comes
back with the last call of its exchange. -/
def Action.ends : Action → Stage → List Event
  | .vote _ reply, .votePending index _ _ => [.voted index reply]
  | .vote _ reply, .solePending _ .voting =>
    match Exchange.afterVote reply with
    | .inl _ => []
    | .inr reply => [.soleVoted reply]
  | .combinedVote _ reply, .solePending _ .combined => [.soleVoted reply]
  | .acknowledge _ reply, .solePending _ .committing => [.soleVoted (Exchange.afterCommit reply)]
  | .acknowledge _ reply, .commitPending d => [.told d.claim.position .commit reply]
  | .acknowledge _ reply, .abortPending _ claim _ _ => [.told claim.position .abort reply]
  | _, _ => []

/-- The call that goes out when an operation comes to a stage. -/
def Stage.begins : Stage → List Event
  | .votePending index _ _ => [.called index .prepare]
  | .solePending _ .combined | .solePending _ .voting => [.called 0 .prepareAndCommit]
  | .commitPending d => [.called d.claim.position .commit]
  | .abortPending _ claim _ _ => [.called claim.position .abort]
  | _ => []

/-- What passes in a turn. -/
def Turn.events (t : Turn) : List Event :=
  match t.action.operation? with
  | none => []
  | some i =>
    (t.before.stage? i).elim [] t.action.ends ++ (t.after.stage? i).elim [] Stage.begins

/-- Whether the vote is opened in a turn. -/
def Turn.opensVote (t : Turn) : Bool :=
  t.before.record.phase == .active && t.after.record.phase == .voting

/-- What passes in a run. -/
def history (turns : List Turn) : List Event := turns.flatMap Turn.events

/-- What passes at one slot. -/
def eventsAt (j : Nat) (events : List Event) : List Event := events.filter (·.position == j)

@[simp] theorem history_nil : history [] = [] := rfl

theorem history_append (turns more : List Turn) :
    history (turns ++ more) = history turns ++ history more := by
  simp [history]

theorem history_concat (turns : List Turn) (t : Turn) :
    history (turns ++ [t]) = history turns ++ t.events := by
  simp [history]

theorem mem_of_mem_eventsAt {j : Nat} {e : Event} {events : List Event}
    (h : e ∈ eventsAt j events) : e ∈ events :=
  (List.mem_filter.mp h).1

/-- The end of a call is not a call. -/
theorem Action.called_not_mem_ends (a : Action) (s : Stage) (j : Nat) (v : Verb) :
    .called j v ∉ a.ends s := by
  intro h
  unfold ends at h
  split at h <;> try simp only [List.mem_singleton, reduceCtorEq, List.not_mem_nil] at h
  split at h <;> simp at h

/-! ## Runs that are played -/

namespace Transaction

/-- The turns that a list of moves leads to, if all of them can be made. -/
def play (rules : Rules) (x : Transaction) : List Action → Option (List Turn × Transaction)
  | [] => some ([], x)
  | action :: rest =>
    (x.step rules action).bind fun (y, _) =>
      (y.play rules rest).map fun (turns, z) =>
        ({ before := x, action := action, after := y } :: turns, z)

end Transaction

/-- Two parties join, vote for the commit, and are told to commit. -/
def twoPartyCommit : List Action :=
  let visit (i : Nat) : Action := .visit i (.steady .epoch)
  [.begin (.join { key := 0, combines := false }), visit 0,
    .begin (.join { key := 1, combines := true }), visit 1, .begin .commit, visit 2, visit 2,
    .vote 2 (.returned (.answered .prepared)), visit 2, visit 2,
    .vote 2 (.returned (.answered .prepared)), visit 2, visit 2, visit 2,
    .acknowledge 2 (.returned (.answered ())), .acknowledge 2 (.returned (.answered ())), visit 2]

theorem Run.trans {rules : Rules} {x y z : Transaction} {first second : List Turn}
    (h₁ : Run rules x first y) (h₂ : Run rules y second z) : Run rules x (first ++ second) z := by
  induction h₂ with
  | start => simpa using h₁
  | next _ hstep ih =>
      rw [← List.append_assoc]
      exact ih.next hstep

theorem Run.of_play {rules : Rules} {x z : Transaction} (actions : List Action)
    {turns : List Turn} (h : x.play rules actions = some (turns, z)) : Run rules x turns z := by
  induction actions generalizing x turns with
  | nil =>
      simp only [Transaction.play, Option.some.injEq, Prod.mk.injEq] at h
      obtain ⟨rfl, rfl⟩ := h
      exact .start
  | cons action rest ih =>
      simp only [Transaction.play, Option.bind_eq_some_iff, Option.map_eq_some_iff,
        Prod.mk.injEq, Prod.exists] at h
      obtain ⟨y, counts, hstep, tail, z', hrest, rfl, rfl⟩ := h
      exact (Run.start.next hstep).trans (ih hrest)

/-! ## The records of a coordinator -/

/-- The coordinators that opening transactions and moving their operations leads to. -/
inductive Coordinator.Reached (rules : Rules) : Coordinator → Prop
  | create : Reached rules (create rules)
  | openTransaction {c : Coordinator} {id : TransactionId} {request : LeaseRequest}
    {now : Timestamp} : Reached rules c → Reached rules (c.openTransaction id request now).1
  | step {c d : Coordinator} {place : Nat} {action : Action} : Reached rules c →
    c.step place action = some d → Reached rules d

theorem Coordinator.step_length {c d : Coordinator} {place : Nat} {action : Action}
    (h : c.step place action = some d) : d.transactions.length = c.transactions.length := by
  simp only [step, Option.bind_eq_some_iff, Option.map_eq_some_iff] at h
  obtain ⟨x, -, y, -, rfl⟩ := h
  exact List.length_set

theorem Coordinator.Reached.rules_eq {rules : Rules} {c : Coordinator} (h : Reached rules c) :
    c.rules = rules := by
  induction h with
  | create => rfl
  | openTransaction _ ih => exact ih
  | step _ hstep ih =>
      simp only [Coordinator.step, Option.bind_eq_some_iff, Option.map_eq_some_iff] at hstep
      obtain ⟨x, -, y, -, rfl⟩ := hstep
      exact ih

/-- **The records of a coordinator do not meddle with each other**: each of its transactions is
where a run of its own has led. -/
theorem Coordinator.Reached.run {rules : Rules} {c : Coordinator} (h : Reached rules c)
    {place : Nat} {x : Transaction} (hx : c.transactions[place]? = some x) :
    ∃ id request now turns,
      Run rules (Transaction.opened rules.lease id request now) turns x := by
  induction h generalizing place x with
  | create => simp [Coordinator.create] at hx
  | @openTransaction c id request now hc ih =>
      simp only [Coordinator.openTransaction, List.getElem?_append] at hx
      split at hx
      · exact ih hx
      · -- the transaction that was just opened
        rw [List.getElem?_singleton] at hx
        split at hx
        · obtain rfl := Option.some.inj hx
          rw [hc.rules_eq]
          exact ⟨id, request, now, [], .start⟩
        · cases hx
  | @step c d changed action hc hstep ih =>
      simp only [Coordinator.step, Option.bind_eq_some_iff, Option.map_eq_some_iff] at hstep
      obtain ⟨y, hy, ⟨z, counts⟩, hmove, rfl⟩ := hstep
      rw [List.getElem?_set] at hx
      split at hx
      · -- the transaction that has moved
        split at hx
        · obtain rfl := Option.some.inj hx
          obtain ⟨id, request, now, turns, hrun⟩ := ih hy
          rw [hc.rules_eq] at hmove
          exact ⟨id, request, now, _, hrun.next hmove⟩
        · cases hx
      · exact ih hx

end LeasedCommit
