import LeasedCommit.Proofs.Tally
import LeasedCommit.Proofs.Verbs
import Mathlib.Algebra.BigOperators.Group.Finset.Piecewise

set_option autoImplicit false

/-! # Transactions do not meddle with each other

A run of a coordinator opens transactions and moves the operations on them, in any order and also
while a call to a participant of another transaction is out. `Coordinator.movesAlone` deletes from
such a run everything that is not about one transaction, with the clock readings and replies of
that one kept as they are. What is left is a run again, in which the transaction goes through the
same turns (`Coordinator.play_alone`): nothing that an operation reads belongs to another
transaction. The totals are the only thing in common, and they are sums
(`Coordinator.totals_of_play`). -/

namespace LeasedCommit

/-! ## Adding up counts -/

namespace OutcomeCounts

theorem add_zero (a : OutcomeCounts) : a.add zero = a := by simp [zero, add]

theorem add_assoc (a b c : OutcomeCounts) : (a.add b).add c = a.add (b.add c) := by
  simp [add, Nat.add_assoc]

end OutcomeCounts

/-- What a turn adds to the totals. -/
def Turn.counts (rules : Rules) (t : Turn) : OutcomeCounts :=
  ((t.before.step rules t.action).map Prod.snd).getD .zero

/-- What the turns of a transaction add to the totals. -/
def countsOf (rules : Rules) (turns : List Turn) : OutcomeCounts :=
  .sum (turns.map (Turn.counts rules))

theorem countsOf_nil (rules : Rules) : countsOf rules [] = .zero := rfl

theorem countsOf_cons (rules : Rules) (t : Turn) (turns : List Turn) :
    countsOf rules (t :: turns) = (t.counts rules).add (countsOf rules turns) := rfl

theorem countsOf_append (rules : Rules) (turns more : List Turn) :
    countsOf rules (turns ++ more) = (countsOf rules turns).add (countsOf rules more) := by
  induction turns with
  | nil => exact (OutcomeCounts.zero_add _).symm
  | cons t rest ih =>
      rw [List.cons_append, countsOf_cons, countsOf_cons, ih, OutcomeCounts.add_assoc]

namespace Coordinator

/-! ## Runs of a coordinator -/

/-- What can happen to a coordinator. -/
inductive Move
  /-- A new transaction is opened. -/
  | opens (id : TransactionId) (request : LeaseRequest) (now : Timestamp)
  /-- An operation on the transaction at a place makes a move. -/
  | acts (place : Nat) (action : Action)

/-- The coordinator after a move, if it can be made. -/
def make (c : Coordinator) : Move → Option Coordinator
  | .opens id request now => some (c.openTransaction id request now).1
  | .acts place action => c.step place action

/-- One move that a coordinator has made. -/
structure Turn where
  before : Coordinator
  move : Move
  after : Coordinator

/-- The turns that a list of moves leads to, if all of them can be made. -/
def play (c : Coordinator) : List Move → Option (List Turn × Coordinator)
  | [] => some ([], c)
  | move :: rest =>
    (c.make move).bind fun d =>
      (d.play rest).map fun (turns, last) =>
        ({ before := c, move := move, after := d } :: turns, last)

/-- What a turn is to the transaction at a place, if one of its operations moves. -/
def Turn.at? (place : Nat) (t : Turn) : Option LeasedCommit.Turn :=
  match t.move with
  | .opens .. => none
  | .acts moving action =>
    if moving = place then
      t.before.transactions[place]?.bind fun x => t.after.transactions[place]?.map fun y =>
        { before := x, action := action, after := y }
    else none

/-- What the transaction at a place goes through in a run. -/
def turnsAt (place : Nat) (turns : List Turn) : List LeasedCommit.Turn :=
  turns.filterMap (Turn.at? place)

/-! ## Leaving the others out -/

/-- A coordinator that has the transaction at a place and no other. -/
def alone (c : Coordinator) (place : Nat) (totals : Totals) : Coordinator :=
  { rules := c.rules, transactions := c.transactions[place]?.toList, totals := totals }

namespace Move

/-- The number of transactions that a move opens. -/
def opened : Move → Nat
  | .opens .. => 1
  | .acts .. => 0

/-- What is left of a move when everything is left out that is not about the transaction at a
place. There were `opened` transactions before. On its own the transaction is at place 0. -/
def alone? (place opened : Nat) : Move → Option Move
  | .opens id request now => if opened = place then some (.opens id request now) else none
  | .acts moving action => if moving = place then some (.acts 0 action) else none

end Move

/-- The moves about the transaction at a place, when `opened` transactions are there at the
beginning. -/
def movesAlone (place : Nat) : Nat → List Move → List Move
  | _, [] => []
  | opened, move :: rest =>
    (move.alone? place opened).toList ++ movesAlone place (opened + move.opened) rest

variable {c c' d : Coordinator} {place : Nat} {move : Move}

theorem play_cons {rest : List Move} {turns : List Turn}
    (h : c.play (move :: rest) = some (turns, d)) :
    ∃ c' more, c.make move = some c' ∧ c'.play rest = some (more, d) ∧
      turns = { before := c, move := move, after := c' } :: more := by
  simp only [play, Option.bind_eq_some_iff, Option.map_eq_some_iff, Prod.mk.injEq,
    Prod.exists] at h
  obtain ⟨c', hmake, more, last, hrest, rfl, rfl⟩ := h
  exact ⟨c', more, hmake, hrest, rfl⟩

theorem play_of_make {rest : List Move} {turns : List Turn} (hmake : c.make move = some c')
    (hrest : c'.play rest = some (turns, d)) :
    c.play (move :: rest) = some ({ before := c, move := move, after := c' } :: turns, d) := by
  rw [play, hmake, Option.bind_some, hrest, Option.map_some]

/-- Every turn of a run is a move of the coordinator. -/
theorem make_of_mem {moves : List Move} {turns : List Turn} (h : c.play moves = some (turns, d))
    {t : Turn} (ht : t ∈ turns) : t.before.make t.move = some t.after := by
  induction moves generalizing c turns with
  | nil =>
      obtain ⟨rfl, rfl⟩ := Prod.mk.inj (Option.some.inj h)
      exact absurd ht List.not_mem_nil
  | cons move rest ih =>
      obtain ⟨c', more, hmake, hrest, rfl⟩ := play_cons h
      rcases List.mem_cons.mp ht with rfl | ht
      · exact hmake
      · exact ih hrest ht

theorem turnsAt_cons (place : Nat) (t : Turn) (turns : List Turn) :
    turnsAt place (t :: turns) = (t.at? place).toList ++ turnsAt place turns := by
  unfold turnsAt
  cases h : t.at? place <;> simp [h]

/-- What a step of a coordinator is to the transaction that moves. -/
theorem step_self {action : Action} (h : c.step place action = some d) :
    ∃ x y counts, c.transactions[place]? = some x ∧ d.transactions[place]? = some y ∧
      x.step c.rules action = some (y, counts) ∧ d.totals = c.totals.add counts := by
  simp only [step, Option.bind_eq_some_iff, Option.map_eq_some_iff] at h
  obtain ⟨x, hx, ⟨y, counts⟩, hmove, rfl⟩ := h
  have hlt : place < c.transactions.length := (List.getElem?_eq_some_iff.mp hx).1
  exact ⟨x, y, counts, hx, List.getElem?_set_self hlt, hmove, rfl⟩

theorem step_at {action : Action} {x : Transaction} (hx : c.transactions[place]? = some x)
    (h : c.step place action = some d) :
    ∃ y counts, d.transactions[place]? = some y ∧ x.step c.rules action = some (y, counts) := by
  obtain ⟨x', y, counts, hx', hy, hmove, -⟩ := step_self h
  obtain rfl := Option.some.inj (hx'.symm.trans hx)
  exact ⟨y, counts, hy, hmove⟩

theorem step_begin {q : Request} {x : Transaction} (hx : c.transactions[place]? = some x)
    (h : c.step place (.begin q) = some d) : d.transactions[place]? = some (x.begun q) := by
  obtain ⟨y, counts, hy, hmove⟩ := step_at hx h
  obtain ⟨rfl, -⟩ := Prod.mk.inj (Option.some.inj hmove)
  exact hy

/-- A step leaves every other transaction as it is. -/
theorem step_other {moving : Nat} {action : Action} (h : c.step moving action = some d)
    (hne : moving ≠ place) : d.transactions[place]? = c.transactions[place]? := by
  simp only [step, Option.bind_eq_some_iff, Option.map_eq_some_iff] at h
  obtain ⟨x, -, y, -, rfl⟩ := h
  exact List.getElem?_set_ne hne

/-- Opening a transaction leaves those as they are that are there. -/
theorem getElem?_openTransaction (id : TransactionId) (request : LeaseRequest) (now : Timestamp)
    (hne : c.transactions.length ≠ place) :
    (c.openTransaction id request now).1.transactions[place]? = c.transactions[place]? := by
  simp only [openTransaction, List.getElem?_append]
  split
  · rfl
  · rw [List.getElem?_eq_none (by simp; omega), List.getElem?_eq_none (by omega)]

theorem make_rules (h : c.make move = some d) : d.rules = c.rules := by
  cases move with
  | opens id request now =>
      obtain rfl := Option.some.inj h
      rfl
  | acts moving action =>
      simp only [make, step, Option.bind_eq_some_iff, Option.map_eq_some_iff] at h
      obtain ⟨x, -, y, -, rfl⟩ := h
      rfl

theorem make_length (h : c.make move = some d) :
    d.transactions.length = c.transactions.length + move.opened := by
  cases move with
  | opens id request now =>
      obtain rfl := Option.some.inj h
      simp [openTransaction, Move.opened]
  | acts moving action => exact step_length h

/-- A move that is left out is nothing to the transaction. -/
theorem make_other (h : c.make move = some c')
    (hout : move.alone? place c.transactions.length = none) :
    c'.transactions[place]? = c.transactions[place]? ∧
      Turn.at? place { before := c, move := move, after := c' } = none := by
  cases move with
  | opens id request now =>
      have hne : c.transactions.length ≠ place := by
        intro heq
        simp [Move.alone?, heq] at hout
      obtain rfl := Option.some.inj h
      exact ⟨getElem?_openTransaction id request now hne, rfl⟩
  | acts moving action =>
      have hne : moving ≠ place := by
        intro heq
        simp [Move.alone?, heq] at hout
      exact ⟨step_other h hne, if_neg hne⟩

/-- A move that is left in can be made as well without the others, and is the same to the
transaction. -/
theorem make_alone {own : Move} (h : c.make move = some c')
    (hin : move.alone? place c.transactions.length = some own) (sofar : Totals) :
    ∃ counts, (c.alone place sofar).make own = some (c'.alone place (sofar.add counts)) ∧
      counts = countsOf c.rules
        (Turn.at? place { before := c, move := move, after := c' }).toList ∧
      Turn.at? 0 { before := c.alone place sofar, move := own,
                   after := c'.alone place (sofar.add counts) } =
        Turn.at? place { before := c, move := move, after := c' } := by
  cases move with
  | opens id request now =>
      obtain ⟨rfl, rfl⟩ : c.transactions.length = place ∧ .opens id request now = own := by
        simpa [Move.alone?] using hin
      obtain rfl := Option.some.inj h
      refine ⟨.zero, ?_, rfl, rfl⟩
      simp [make, alone, openTransaction]
  | acts moving action =>
      obtain ⟨rfl, rfl⟩ : moving = place ∧ .acts 0 action = own := by
        simpa [Move.alone?] using hin
      obtain ⟨x, y, counts, hx, hy, hmove, -⟩ := step_self h
      have hrules := make_rules h
      refine ⟨counts, ?_, ?_, ?_⟩
      · simp [make, alone, step, hx, hy, hmove, hrules]
      · have hown : Turn.counts c.rules { before := x, action := action, after := y } = counts := by
          simp [Turn.counts, hmove]
        simp [Turn.at?, hx, hy, countsOf_cons, hown, countsOf_nil, OutcomeCounts.add_zero]
      · simp [Turn.at?, alone, hx, hy]

/-! ## The run that is left -/

/-- **What is left is a run**: on its own the transaction at a place goes through the same turns,
and counts what these add to the totals. -/
theorem play_alone {moves : List Move} {turns : List Turn} (h : c.play moves = some (turns, d))
    (place : Nat) (sofar : Totals) :
    ∃ turns', (c.alone place sofar).play (movesAlone place c.transactions.length moves) =
        some (turns', d.alone place (sofar.add (countsOf c.rules (turnsAt place turns)))) ∧
      turnsAt 0 turns' = turnsAt place turns := by
  induction moves generalizing c turns sofar with
  | nil =>
      obtain ⟨rfl, rfl⟩ := Prod.mk.inj (Option.some.inj h)
      refine ⟨[], ?_, rfl⟩
      show some ([], c.alone place sofar) = some ([], c.alone place (sofar.add .zero))
      rw [Totals.add_zero]
  | cons move rest ih =>
      obtain ⟨c', more, hmake, hrest, rfl⟩ := play_cons h
      have hrules := make_rules hmake
      have hlength := make_length hmake
      rw [turnsAt_cons, countsOf_append]
      cases hown : move.alone? place c.transactions.length with
      | none =>
          obtain ⟨hsame, hout⟩ := make_other hmake hown
          have hstays : c'.alone place sofar = c.alone place sofar := by
            rw [alone, alone, hsame, hrules]
          obtain ⟨turns', hplay, hturns⟩ := ih hrest sofar
          rw [hstays, hlength, hrules] at hplay
          rw [hout, movesAlone, hown, Option.toList_none, Option.toList_none, List.nil_append,
            List.nil_append, countsOf_nil, OutcomeCounts.zero_add]
          exact ⟨turns', hplay, hturns⟩
      | some own =>
          obtain ⟨counts, hmakes, hcounts, hat⟩ := make_alone hmake hown sofar
          obtain ⟨turns', hplay, hturns⟩ := ih hrest (sofar.add counts)
          rw [hlength, hrules, Totals.add_add] at hplay
          rw [← hcounts, movesAlone, hown, Option.toList_some, List.singleton_append]
          refine ⟨_, play_of_make hmakes hplay, ?_⟩
          rw [turnsAt_cons, hat, hturns]

/-! ## The totals -/

/-- No transaction is ever forgotten. -/
theorem length_le_of_play {moves : List Move} {turns : List Turn}
    (h : c.play moves = some (turns, d)) : c.transactions.length ≤ d.transactions.length := by
  induction moves generalizing c turns with
  | nil =>
      obtain ⟨rfl, rfl⟩ := Prod.mk.inj (Option.some.inj h)
      exact Nat.le_refl _
  | cons move rest ih =>
      obtain ⟨c', more, hmake, hrest, rfl⟩ := play_cons h
      have hmore := ih hrest
      have hlength := make_length hmake
      omega

/-- A move adds to the totals what it is to the transactions, and it is something to one of them
at most. -/
theorem make_totals (h : c.make move = some c') :
    ∃ counts, c'.totals = c.totals.add counts ∧ ∀ f, OutcomeCounts.Additive f → ∀ n,
      c'.transactions.length ≤ n → f counts = ∑ place ∈ Finset.range n, f (countsOf c.rules
        (Turn.at? place { before := c, move := move, after := c' }).toList) := by
  cases move with
  | opens id request now =>
      obtain rfl := Option.some.inj h
      refine ⟨.zero, (Totals.add_zero _).symm, fun f hf n _ => ?_⟩
      show f .zero = ∑ place ∈ Finset.range n, f .zero
      rw [hf.zero, Finset.sum_const_zero]
  | acts moving action =>
      obtain ⟨x, y, counts, hx, hy, hmove, htotals⟩ := step_self h
      refine ⟨counts, htotals, fun f hf n hn => ?_⟩
      have hlt : moving < n := by
        have := (List.getElem?_eq_some_iff.mp hy).1
        omega
      have hshare : ∀ place, f (countsOf c.rules (Turn.at? place
          { before := c, move := .acts moving action, after := c' }).toList) =
            if moving = place then f counts else 0 := by
        intro place
        by_cases hplace : moving = place
        · subst hplace
          have hown : Turn.counts c.rules { before := x, action := action, after := y } =
              counts := by simp [Turn.counts, hmove]
          simp [Turn.at?, hx, hy, countsOf_cons, countsOf_nil, hown, OutcomeCounts.add_zero]
        · simp [Turn.at?, hplace, countsOf_nil, hf.zero]
      rw [Finset.sum_congr rfl fun place _ => hshare place, Finset.sum_ite_eq,
        if_pos (Finset.mem_range.mpr hlt)]

/-- **The totals are sums** over the transactions. -/
theorem totals_of_play {moves : List Move} {turns : List Turn}
    (h : c.play moves = some (turns, d)) :
    ∃ counts, d.totals = c.totals.add counts ∧ ∀ f, OutcomeCounts.Additive f → ∀ n,
      d.transactions.length ≤ n →
        f counts = ∑ place ∈ Finset.range n, f (countsOf c.rules (turnsAt place turns)) := by
  induction moves generalizing c turns with
  | nil =>
      obtain ⟨rfl, rfl⟩ := Prod.mk.inj (Option.some.inj h)
      refine ⟨.zero, (Totals.add_zero _).symm, fun f hf n _ => ?_⟩
      show f .zero = ∑ place ∈ Finset.range n, f .zero
      rw [hf.zero, Finset.sum_const_zero]
  | cons move rest ih =>
      obtain ⟨c', more, hmake, hrest, rfl⟩ := play_cons h
      obtain ⟨first, hfirst, hshare⟩ := make_totals hmake
      obtain ⟨later, hlater, hshares⟩ := ih hrest
      refine ⟨first.add later, by rw [hlater, hfirst, Totals.add_add], fun f hf n hn => ?_⟩
      have hgrows : c'.transactions.length ≤ n := Nat.le_trans (length_le_of_play hrest) hn
      have hsplit : ∀ place, f (countsOf c.rules (turnsAt place
          ({ before := c, move := move, after := c' } :: more))) =
            f (countsOf c.rules (Turn.at? place
              { before := c, move := move, after := c' }).toList) +
              f (countsOf c.rules (turnsAt place more)) := by
        intro place
        rw [turnsAt_cons, countsOf_append, hf.add]
      rw [hf.add, hshare f hf n hgrows, hshares f hf n hn, make_rules hmake,
        ← Finset.sum_add_distrib, Finset.sum_congr rfl fun place _ => hsplit place]

/-! ## The main result -/

/-- **Transactions do not meddle with each other.** Take any run of a coordinator, with any number
of transactions in any state at its beginning and operations that interleave in any way, and one
of the transactions. Delete all moves that open another transaction or act on one, and keep the
clock readings and the replies of the others:

* what is left can be made, move by move. The transaction goes through the same turns, so its
  record and operations pass through the same states, the same calls go out to the same
  participants in the same order, and every operation on it stands at the same stage in the end,
  with the same answer if it is over;
* in the full run the deleted moves leave the transaction as it is;
* the totals at the end are those at the beginning and what each transaction counts on its own,
  added up in words of 64 bits. -/
theorem transactions_independent {c d : Coordinator} {moves : List Move} {turns : List Turn}
    (h : c.play moves = some (turns, d)) :
    (∀ place, ∃ turns' d',
      (c.alone place .zero).play (movesAlone place c.transactions.length moves) =
        some (turns', d') ∧
      turnsAt 0 turns' = turnsAt place turns ∧
      callsMade (turnsAt 0 turns') = callsMade (turnsAt place turns) ∧
      history (turnsAt 0 turns') = history (turnsAt place turns) ∧
      d'.record? 0 = d.record? place ∧
      (∀ operation, d'.stage? 0 operation = d.stage? place operation) ∧
      d'.totals = Totals.zero.add (countsOf c.rules (turnsAt place turns))) ∧
    (∀ place, ∀ t ∈ turns, t.move.alone? place t.before.transactions.length = none →
      t.after.transactions[place]? = t.before.transactions[place]?) ∧
    d.totals = c.totals.add (.sum ((List.range d.transactions.length).map fun place =>
      countsOf c.rules (turnsAt place turns))) := by
  refine ⟨fun place => ?_, fun place t ht hout => ?_, ?_⟩
  · obtain ⟨turns', hplay, hturns⟩ := play_alone h place .zero
    have hsame : (d.alone place (Totals.zero.add
        (countsOf c.rules (turnsAt place turns)))).transactions[0]? = d.transactions[place]? := by
      simp only [alone]
      cases d.transactions[place]? <;> rfl
    refine ⟨turns', _, hplay, hturns, by rw [hturns], by rw [hturns], ?_, fun operation => ?_, rfl⟩
    · rw [record?, record?, hsame]
    · rw [stage?, stage?, hsame]
  · exact (make_other (make_of_mem h ht) hout).1
  · obtain ⟨counts, htotals, hshares⟩ := totals_of_play h
    refine htotals.trans (congrArg _ (OutcomeCounts.eq_of_additive fun f hf => ?_))
    rw [hshares f hf _ (Nat.le_refl _), hf.sum, List.map_map]
    rfl

/-- Two transactions with the same party. While it is asked to commit the first one, the second
one is aborted, and the party is told so before it answers. -/
def abortDuringCall : List Move :=
  let p : Participant := { key := 0, combines := true }
  let visit (operation : Nat) : Action := .visit operation (.steady .epoch)
  [.opens ⟨1⟩ .forever .epoch, .opens ⟨2⟩ .forever .epoch,
    .acts 0 (.begin (.join p)), .acts 0 (visit 0), .acts 1 (.begin (.join p)), .acts 1 (visit 0),
    .acts 0 (.begin .commit), .acts 0 (visit 1), .acts 0 (visit 1),
    .acts 1 (.begin .abort), .acts 1 (visit 1),
    .acts 1 (.acknowledge 1 (.returned (.answered ()))),
    .acts 0 (.combinedVote 1 (.returned (.answered .committed))), .acts 0 (visit 1),
    .acts 0 (visit 1), .acts 0 (visit 1)]

/-- Without the second transaction the first one goes through the same turns and commits with the
same call. Both are in the totals. -/
theorem transactions_independent_during_call :
    ∃ turns d, (create { lease := .standard, rollForward := .standard }).play abortDuringCall =
        some (turns, d) ∧
      d.counts = { committed := 1, aborted := 1, expired := 0, rollForwardFailures := 0 } ∧
      ∃ turns' d', ((create { lease := .standard, rollForward := .standard }).alone 0 .zero).play
          (movesAlone 0 0 abortDuringCall) = some (turns', d') ∧
        turnsAt 0 turns' = turnsAt 0 turns ∧
        callsMade (turnsAt 0 turns') =
          [{ position := 0, participant := { key := 0, combines := true }
             verb := .prepareAndCommit }] ∧
        d'.stage? 0 1 =
          some (.finished (.committed { id := ⟨1⟩, participants := 1, failures := [] })) ∧
        d'.totals = Totals.zero.add .commit := by
  have hplay : (create { lease := .standard, rollForward := .standard }).play abortDuringCall =
      some (_, _) := rfl
  obtain ⟨halone, -, -⟩ := transactions_independent hplay
  obtain ⟨turns', d', hleft, hturns, hcalls, -, -, hstage, hcounts⟩ := halone 0
  exact ⟨_, _, hplay, rfl, turns', d', hleft, hturns, hcalls.trans rfl, (hstage 1).trans rfl,
    hcounts.trans rfl⟩

end Coordinator

end LeasedCommit
