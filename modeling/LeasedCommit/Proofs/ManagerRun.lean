import LeasedCommit.Manager.Step
import LeasedCommit.Proofs.Run

set_option autoImplicit false

/-! # Runs of a manager

A `Manager.Run` is any sequence of moves of any number of errands, and of the operations that
they begin, from a manager without transactions. `Manager.Does` lists what an errand can do in
one move, and `Manager.step_cases` shows that a move of a manager is a new task, a move of an
operation, or one of these; everything that is proved about managers goes through it. -/

namespace LeasedCommit

namespace Errand

/-- Whether an errand is creating a transaction that is not counted yet. -/
def creates : Errand → Bool
  | .storing _ | .counting .. => true
  | _ => false

/-- The new transaction that an errand is about to put in the table. -/
def storing? : Errand → Option Entry
  | .storing entry => some entry
  | _ => none

/-- The sweep that an errand makes. -/
def sweep? : Errand → Option Sweep
  | .sweeping sweep | .expiring sweep _ _ => some sweep
  | _ => none

/-- The number of the transaction that an errand creates or has created. -/
def created? : Errand → Option TransactionId
  | .storing entry => some entry.id
  | .counting id _ | .finished (.created id _) => some id
  | _ => none

/-- Whether an errand has come to its end. -/
def isOver : Errand → Bool
  | .finished _ | .panicked _ => true
  | _ => false

/-- An errand that neither creates a transaction nor sweeps. -/
structure Plain (e : Errand) : Prop where
  creates : e.creates = false
  storing? : e.storing? = none
  sweep? : e.sweep? = none
  created? : e.created? = none

end Errand

/-- The errand that a move is about. -/
def Move.errand? : Move → Option Nat
  | .proceed errand _ | .survey errand _ _ => some errand
  | .ask _ | .act .. => none

namespace Manager

/-! ## Runs -/

/-- One move that a manager has made. -/
structure Turn where
  before : Manager
  move : Move
  after : Manager

/-- `Run config turns m`: the turns lead from a manager without transactions to `m`. -/
inductive Run (config : Config) : List Turn → Manager → Prop
  | start : Run config [] (create config)
  | next {turns : List Turn} {m m' : Manager} {move : Move} :
    Run config turns m → m.step move = some m' →
      Run config (turns ++ [{ before := m, move := move, after := m' }]) m'

/-- The turns that a list of moves leads to, if all of them can be made. -/
def play (m : Manager) : List Move → Option (List Turn × Manager)
  | [] => some ([], m)
  | move :: rest =>
    (m.step move).bind fun m' =>
      (m'.play rest).map fun (turns, last) =>
        ({ before := m, move := move, after := m' } :: turns, last)

theorem Run.of_play_from {config : Config} {m last : Manager} {past turns : List Turn}
    (moves : List Move) (hm : Run config past m) (h : m.play moves = some (turns, last)) :
    Run config (past ++ turns) last := by
  induction moves generalizing m past turns with
  | nil =>
      simp only [play, Option.some.injEq, Prod.mk.injEq] at h
      obtain ⟨rfl, rfl⟩ := h
      simpa using hm
  | cons move rest ih =>
      simp only [play, Option.bind_eq_some_iff, Option.map_eq_some_iff, Prod.mk.injEq,
        Prod.exists] at h
      obtain ⟨m', hstep, tail, last', hrest, rfl, rfl⟩ := h
      simpa using ih (hm.next hstep) hrest

theorem Run.of_play {config : Config} {last : Manager} {turns : List Turn} (moves : List Move)
    (h : (create config).play moves = some (turns, last)) : Run config turns last :=
  of_play_from moves .start h

/-! ## What an errand can do -/

/-- The manager with one more transaction, which has the next number. -/
def opened (m : Manager) (request : LeaseRequest) (now : Timestamp) : Manager :=
  { m with
    coordinator := (m.coordinator.openTransaction ⟨m.nextId⟩ request now).1
    nextId := m.nextId + 1 }

/-- The manager whose table does not have a number any more. -/
def without (m : Manager) (id : TransactionId) : Manager :=
  { m with table := m.table.filter fun e => e.id ≠ id }

/-- `m.Does e m' e'`: an errand that stands at `e` can change the manager to `m'` and then
stands at `e'`. -/
inductive Does (m : Manager) : Errand → Manager → Errand → Prop
  -- an errand that neither creates nor sweeps
  | goes {e e' : Errand} : e.Plain → e'.Plain → Does m e m e'
  | begins {e e' : Errand} {place : Nat} {request : Request} {c : Coordinator} : e.Plain →
    e'.Plain → m.coordinator.step place (.begin request) = some c →
    Does m e { m with coordinator := c } e'
  -- creating a transaction
  | opens {request : LeaseRequest} {now : Timestamp} :
    Does m (.begun (.create request)) (m.opened request now)
      (.storing { id := ⟨m.nextId⟩, place := m.coordinator.transactions.length })
  | stores {entry : Entry} {expiration : Expiration} :
    Does m (.storing entry) (m.insert entry) (.counting entry.id expiration)
  | counts {id : TransactionId} {expiration : Expiration} :
    Does m (.counting id expiration) { m with created := m.created + 1 }
      (.finished (.created id expiration))
  -- a sweep
  | surveys {now : Timestamp} {order : List Entry} : order.Perm m.table →
    Does m (.begun .sweep) m
      (.sweeping { now := now, rest := order, stats := { expired := 0, evicted := 0 } })
  | visits {sweep : Sweep} {entry : Entry} {rest : List Entry} {operation : Nat}
    {c : Coordinator} : sweep.rest = entry :: rest →
    m.coordinator.step entry.place (.begin .expire) = some c →
    Does m (.sweeping sweep) { m with coordinator := c }
      (.expiring { sweep with rest := rest } entry operation)
  | expires {sweep : Sweep} {entry : Entry} {operation : Nat} :
    Does m (.expiring sweep entry operation) m (.sweeping sweep.expireOne)
  | evicts {sweep : Sweep} {entry : Entry} {operation : Nat} {record : Record} :
    m.record? entry.id = some record → record.phase.isTerminal = true →
    record.isEvictable sweep.now m.config.retention = true →
    Does m (.expiring sweep entry operation) (m.without entry.id) (.sweeping sweep.evictOne)
  | keeps {sweep : Sweep} {entry : Entry} {operation : Nat} :
    Does m (.expiring sweep entry operation) m (.sweeping sweep)
  | unwinds {sweep : Sweep} {entry : Entry} {operation : Nat} {message : String} :
    Does m (.expiring sweep entry operation) m (.panicked message)
  | settles {sweep : Sweep} : sweep.rest = [] →
    Does m (.sweeping sweep) { m with evicted := m.evicted + UInt64.ofNat sweep.stats.evicted }
      (.finished (.swept sweep.stats))

variable {m m' : Manager}

/-- An errand leaves the others where they stand. -/
theorem Does.errands {e e' : Errand} (h : m.Does e m' e') : m'.errands = m.errands := by
  cases h <;> rfl

theorem begin?_eq_some {place operation : Nat} {request : Request}
    (h : m.begin? place request = some (m', operation)) :
    ∃ c, m.coordinator.step place (.begin request) = some c ∧ m' = { m with coordinator := c } := by
  simp only [begin?, Option.bind_eq_some_iff, Option.map_eq_some_iff, Prod.mk.injEq] at h
  obtain ⟨x, -, c, hc, rfl, -⟩ := h
  exact ⟨c, hc, rfl⟩

theorem evict?_eq_some {id : TransactionId} {now : Timestamp}
    (h : m.evict? id now = some m') :
    m' = m.without id ∧ ∃ record, m.record? id = some record ∧ record.phase.isTerminal = true ∧
      record.isEvictable now m.config.retention = true := by
  unfold evict? at h
  split at h
  · rename_i record hrecord
    split at h
    · rename_i hevictable
      refine ⟨(Option.some.inj h).symm, record, hrecord, ?_, hevictable⟩
      unfold Record.isEvictable at hevictable
      split at hevictable
      · exact (Bool.and_eq_true_iff.mp hevictable).1
      · cases hevictable
    · cases h
  · cases h

/-- No task but a creation leads to a new transaction. -/
theorem created?_conclude (m : Manager) (task : Task) (place : Nat) (answer : Answer) :
    (Errand.finished (m.conclude task place answer)).created? = none := by
  cases task <;> cases answer <;> rfl

theorem lookUp_does {i : Nat} {task : Task} {id : TransactionId}
    (h : m.lookUp i task id = some m') :
    ∃ m₁ e', m.Does (.begun task) m₁ e' ∧ m' = m₁.put i e' := by
  have hplain : (Errand.begun task).Plain := ⟨rfl, rfl, rfl, rfl⟩
  unfold lookUp at h
  split at h
  · exact ⟨m, _, .goes hplain ⟨rfl, rfl, rfl, rfl⟩, (Option.some.inj h).symm⟩
  · rename_i entry hentry
    split at h
    · exact ⟨m, _, .goes hplain ⟨rfl, rfl, rfl, rfl⟩, (Option.some.inj h).symm⟩
    · simp only [Option.map_eq_some_iff, Prod.exists] at h
      obtain ⟨m₁, operation, hbegin, rfl⟩ := h
      obtain ⟨c, hc, rfl⟩ := begin?_eq_some hbegin
      exact ⟨_, _, .begins hplain ⟨rfl, rfl, rfl, rfl⟩ hc, rfl⟩

theorem proceed_does {i : Nat} {now : Timestamp} {e : Errand}
    (h : m.proceed i now e = some m') : ∃ m₁ e', m.Does e m₁ e' ∧ m' = m₁.put i e' := by
  cases e with
  | begun task =>
      cases task with
      | create request => exact ⟨_, _, .opens, (Option.some.inj h).symm⟩
      | sweep => cases h
      | join | commit | abort | renew | cancel | phase | awaitPhase | report => exact lookUp_does h
  | underway task place operation =>
      simp only [proceed] at h
      split at h
      · exact ⟨m, _, .goes ⟨rfl, rfl, rfl, rfl⟩ ⟨rfl, rfl, rfl, created?_conclude ..⟩,
          (Option.some.inj h).symm⟩
      · exact ⟨m, _, .goes ⟨rfl, rfl, rfl, rfl⟩ ⟨rfl, rfl, rfl, rfl⟩, (Option.some.inj h).symm⟩
      · cases h
  | reading place =>
      simp only [proceed, Option.map_eq_some_iff] at h
      obtain ⟨record, -, rfl⟩ := h
      exact ⟨m, _, .goes ⟨rfl, rfl, rfl, rfl⟩ ⟨rfl, rfl, rfl, rfl⟩, rfl⟩
  | storing entry =>
      simp only [proceed, Option.map_eq_some_iff] at h
      obtain ⟨record, -, rfl⟩ := h
      exact ⟨_, _, .stores, rfl⟩
  | counting id expiration => exact ⟨_, _, .counts, (Option.some.inj h).symm⟩
  | sweeping sweep =>
      simp only [proceed] at h
      split at h
      · rename_i hrest
        exact ⟨_, _, .settles hrest, (Option.some.inj h).symm⟩
      · rename_i entry rest hrest
        simp only [Option.map_eq_some_iff, Prod.exists] at h
        obtain ⟨m₁, operation, hbegin, rfl⟩ := h
        obtain ⟨c, hc, rfl⟩ := begin?_eq_some hbegin
        exact ⟨_, _, .visits hrest hc, rfl⟩
  | expiring sweep entry operation =>
      simp only [proceed] at h
      split at h
      · exact ⟨m, _, .expires, (Option.some.inj h).symm⟩
      · split at h
        · rename_i m₁ hevict
          obtain ⟨rfl, record, hrecord, hterminal, hevictable⟩ := evict?_eq_some hevict
          exact ⟨_, _, .evicts hrecord hterminal hevictable, (Option.some.inj h).symm⟩
        · exact ⟨m, _, .keeps, (Option.some.inj h).symm⟩
      · exact ⟨m, _, .unwinds, (Option.some.inj h).symm⟩
      · cases h
  | finished result => cases h
  | panicked message => cases h

/-- **Inversion of a move**: a new task, a move of an operation, or a move of an errand. -/
theorem step_cases {move : Move} (h : m.step move = some m') :
    (∃ task, move.errand? = none ∧ m' = { m with errands := m.errands ++ [.begun task] }) ∨
    (∃ place action c, move.errand? = none ∧ m.coordinator.step place action = some c ∧
      m' = { m with coordinator := c }) ∨
    ∃ i e m₁ e', move.errand? = some i ∧ m.errand? i = some e ∧ m.Does e m₁ e' ∧
      m' = m₁.put i e' := by
  cases move with
  | ask task => exact .inl ⟨task, rfl, (Option.some.inj h).symm⟩
  | proceed i now =>
      simp only [step, Option.bind_eq_some_iff] at h
      obtain ⟨e, he, h⟩ := h
      obtain ⟨m₁, e', hdoes, rfl⟩ := proceed_does h
      exact .inr (.inr ⟨i, e, m₁, e', rfl, he, hdoes, rfl⟩)
  | survey i now order =>
      simp only [step] at h
      split at h
      · rename_i he
        split at h
        · rename_i hperm
          obtain rfl := Option.some.inj h
          exact .inr (.inr ⟨i, _, m, _, rfl, he, .surveys (List.isPerm_iff.mp hperm), rfl⟩)
        · cases h
      · cases h
  | act place action =>
      cases action with
      | begin request => cases h
      | visit | vote | combinedVote | acknowledge | resume | giveUp =>
          simp only [step, Option.map_eq_some_iff] at h
          obtain ⟨c, hc, rfl⟩ := h
          exact .inr (.inl ⟨place, _, c, rfl, hc, rfl⟩)

/-- What an errand does to the transactions: it opens one, moves one, or leaves them alone. -/
theorem Does.coordinator {e e' : Errand} (h : m.Does e m' e') :
    m'.coordinator = m.coordinator ∨
    (∃ request now, m'.coordinator =
      (m.coordinator.openTransaction ⟨m.nextId⟩ request now).1) ∨
    ∃ place action, m.coordinator.step place action = some m'.coordinator := by
  cases h with
  | opens => exact .inr (.inl ⟨_, _, rfl⟩)
  | begins _ _ hc | visits _ hc => exact .inr (.inr ⟨_, _, hc⟩)
  | _ => exact .inl rfl

/-- The transactions of a manager are where runs of their own have led. -/
theorem Run.reached {config : Config} {turns : List Turn} (h : Run config turns m) :
    Coordinator.Reached config.rules m.coordinator := by
  induction h with
  | start => exact .create
  | @next turns m m' move hrun hstep ih =>
      rcases step_cases hstep with ⟨task, -, rfl⟩ | ⟨place, action, c, -, hc, rfl⟩ |
        ⟨i, e, m₁, e', -, -, hdoes, rfl⟩
      · exact ih
      · exact ih.step hc
      · show Coordinator.Reached config.rules m₁.coordinator
        rcases hdoes.coordinator with heq | ⟨request, now, heq⟩ | ⟨place, action, hc⟩
        · exact heq ▸ ih
        · exact heq ▸ ih.openTransaction
        · exact ih.step hc

/-- To hold along every run is to hold at its start and to be preserved by a new task, a move of an
operation and a move of an errand. -/
theorem Run.invariant {config : Config} {P : Manager → Prop} (hstart : P (create config))
    (hask : ∀ (m : Manager) (task : Task), P m →
      P { m with errands := m.errands ++ [.begun task] })
    (hact : ∀ (turns : List Turn) (m : Manager) (place : Nat) (action : Action) (c : Coordinator),
      Run config turns m → P m → m.coordinator.step place action = some c →
      P { m with coordinator := c })
    (hdoes : ∀ (turns : List Turn) (m m₁ : Manager) (i : Nat) (e e' : Errand),
      Run config turns m → P m → m.errand? i = some e → m.Does e m₁ e' → P (m₁.put i e'))
    {turns : List Turn} (h : Run config turns m) : P m := by
  induction h with
  | start => exact hstart
  | next hrun hstep ih =>
      rcases step_cases hstep with ⟨task, -, rfl⟩ | ⟨place, action, c, -, hc, rfl⟩ |
        ⟨i, e, m₁, e', -, he, hdone, rfl⟩
      · exact hask _ task ih
      · exact hact _ _ place action c hrun ih hc
      · exact hdoes _ _ m₁ i e e' hrun ih he hdone

end Manager

end LeasedCommit
