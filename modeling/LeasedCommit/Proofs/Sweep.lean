import LeasedCommit.Proofs.Accounting
import LeasedCommit.Proofs.LeaseAnswers
import LeasedCommit.Proofs.Swept

set_option autoImplicit false

/-! # A sweep that nothing disturbs

A sweep visits the entries that its survey has found, one after the other and in any order. While
the clock stands still and no call panics, what it has done at any moment is what
`Holdings.sweptOver` says of the entries that it has visited (`Manager.Sweeps`), and it can always
come to its end (`Manager.Sweeps.ends`). -/

namespace LeasedCommit

/-- If the action reads the clock, it shows `t`; if a call comes back, it has not panicked. -/
def Action.CalmAt (t : Timestamp) : Action → Prop
  | .visit _ readings => readings = .steady t
  | .acknowledge _ reply => ∃ response, reply = .returned response
  | .begin _ | .vote .. | .combinedVote .. | .resume _ | .giveUp _ => True

/-- If the move reads the clock, it shows `t`; if a call comes back, it has not panicked. -/
def Move.CalmAt (t : Timestamp) : Move → Prop
  | .survey _ now _ => now = t
  | .act _ action => action.CalmAt t
  | .ask _ | .proceed .. => True

/-! ## The operation of a sweep -/

section Operations

variable {rules : Rules} {x y : Transaction} {i : Nat} {s : Stage} {a : Action}
  {counts : OutcomeCounts} {q : Request} {r : Record} {t : Readings}

/-- An operation that has just been requested makes a visit. -/
theorem Transaction.step_requested (hs : x.stage? i = some (.requested q))
    (hi : a.operation? = some i) (hstep : x.step rules a = some (y, counts)) :
    ∃ t v, a = .visit i t ∧ (Stage.requested q).visit? rules.lease x.record t = some v ∧
      y = x.visit i v ∧ counts = v.counts := by
  cases a with
  | begin q' => cases hi
  | visit j t =>
      obtain rfl : j = i := Option.some.inj hi
      obtain ⟨v, hv, hy, hcounts⟩ := visit_of_step hs hstep
      exact ⟨t, v, rfl, hv, hy, hcounts⟩
  | vote j | combinedVote j | acknowledge j | resume j =>
      obtain rfl : j = i := Option.some.inj hi
      rw [step, hs] at hstep
      cases hstep
  | giveUp j =>
      obtain rfl : j = i := Option.some.inj hi
      rw [step, hs] at hstep
      cases hstep

/-- An operation that is over makes no move. -/
theorem Transaction.step_finished {answer : Answer} (hs : x.stage? i = some (.finished answer))
    (hi : a.operation? = some i) : x.step rules a ≠ some (y, counts) := by
  intro hstep
  obtain ⟨r', s', hgo, -⟩ := go?_of_step hs (fun w => nofun) hi hstep
  cases a <;> cases hgo

/-- While an operation tells participants the record stays as it is. -/
theorem Transaction.step_delivers {all calls : List Call} {answer : Answer}
    (hs : x.stage? i = some s) (h : s.Delivers all answer calls) (hi : a.operation? = some i)
    (hstep : x.step rules a = some (y, counts)) :
    ∃ reply s', a = .acknowledge i reply ∧ y.record = x.record ∧ counts = .zero ∧
      y.stage? i = some s' ∧ ((∃ response, reply = .returned response) →
        s'.Delivers all answer (calls ++ s'.call?.toList)) := by
  obtain ⟨r', s', hgo, hmoved⟩ := go?_of_step hs h.not_awaiting hi hstep
  obtain ⟨reply, rfl, rfl, hnext⟩ := h.go hi hgo
  simp only [step, hs, Option.bind_some, Option.map_eq_some_iff, Prod.mk.injEq] at hstep
  obtain ⟨-, -, -, rfl⟩ := hstep
  exact ⟨reply, s', rfl, hmoved.record, rfl, hmoved.stage?_self, hnext⟩

/-- A visit that finds nothing to expire. -/
theorem Stage.visit?_expire_of_not_lapsing (policy : LeasePolicy)
    (h : r.lapsesAt t.first = false) :
    (Stage.requested .expire).visit? policy r t = some (r.leave (.finished (.expired false))) := by
  rw [visit?, Record.expire, Record.expire?_of_not_lapsing h]

/-- A visit that expires the record. -/
theorem Stage.visit?_expire_of_lapsing (policy : LeasePolicy) (h : r.lapsesAt t.first = true) :
    (Stage.requested .expire).visit? policy r t = some
      { record := r.expired t.second, counts := .abort .leaseExpired, wakes := true
        next := .deliverAborts false r.registry.claimable (.expired true) } := by
  obtain ⟨hu, hl⟩ := Record.lapsesAt_iff.mp h
  exact visit?_lapsed hu hl rfl policy

end Operations

namespace Manager

variable {config : Config} {past turns : List Turn} {m m₁ m₂ m' : Manager} {t now : Timestamp}
  {retention : Duration} {calls : Nat → List Call} {done rest : List Entry} {entry : Entry}
  {operation : Nat} {x y : Transaction} {r : Record} {s : Stage} {move : Move}

/-! ## Evicting an entry -/

theorem entry?_of_mem (hm : m.Numbered) (hentry : entry ∈ m.table) :
    m.entry? entry.id = some entry := by
  obtain ⟨found, hfound⟩ := Option.isSome_iff_exists.mp
    (List.find?_isSome (p := fun e => decide (e.id = entry.id)) |>.mpr
      ⟨entry, hentry, decide_eq_true rfl⟩)
  obtain ⟨hmem, hid⟩ := mem_of_entry?_eq_some hfound
  rw [← List.inj_on_of_nodup_map hm.nodup hmem hentry hid]
  exact hid ▸ hfound

theorem evict?_of_mem (hm : m.Numbered) (hentry : entry ∈ m.table)
    (hr : m.coordinator.record? entry.place = some r) (now : Timestamp) :
    m.evict? entry.id now =
      if r.isEvictable now m.config.retention then some (m.without entry.id) else none := by
  have hrecord : m.record? entry.id = some r := by
    rw [record?, entry?_of_mem hm hentry, Option.bind_some, hr]
  rw [evict?, hrecord]
  rfl

/-! ## Where a sweep stands -/

/-- What a sweep of `m` at `t` has come to when it has visited some entries. -/
structure HasVisited (m : Manager) (t : Timestamp) (retention : Duration)
    (calls : Nat → List Call) (done : List Entry) (m' : Manager) : Prop where
  holdings : m'.holdings = m.holdings.sweptOver t retention done
  calls : ∀ place, calls place = m.holdings.callsOver t done place

/-- A sweep of `m` at `t` is at an entry, and the operation that it runs there is at a stage. -/
structure AtEntry (m : Manager) (t : Timestamp) (retention : Duration) (done : List Entry)
    (entry : Entry) (rest : List Entry) (operation : Nat) (y : Transaction) (s : Stage)
    (m' : Manager) : Prop where
  errand : m'.errand? m.errands.length = some (.expiring
    { now := t, rest := rest, stats := m.holdings.statsOver t retention done } entry operation)
  perm : (done ++ entry :: rest).Perm m.table
  transaction : m'.coordinator.transactions[entry.place]? = some y
  stage : y.stage? operation = some s

/-- Where a sweep of `m` at `t` can stand. -/
inductive Sweeps (m : Manager) (t : Timestamp) (retention : Duration) (calls : Nat → List Call)
    (m' : Manager) : Prop
  | begun : m'.errand? m.errands.length = some (.begun .sweep) → m'.holdings = m.holdings →
    (∀ place, calls place = []) → Sweeps m t retention calls m'
  | between {done rest : List Entry} : m'.errand? m.errands.length = some (.sweeping
      { now := t, rest := rest, stats := m.holdings.statsOver t retention done }) →
    (done ++ rest).Perm m.table → m.HasVisited t retention calls done m' →
    Sweeps m t retention calls m'
  | looking {done rest : List Entry} {entry : Entry} {operation : Nat} {y : Transaction} :
    m.AtEntry t retention done entry rest operation y (.requested .expire) m' →
    m.holdings.records[entry.place]? = some y.record → m.HasVisited t retention calls done m' →
    Sweeps m t retention calls m'
  -- the record has been aborted, and the participants are told
  | telling {done rest : List Entry} {entry : Entry} {operation : Nat} {y : Transaction}
    {r : Record} {s : Stage} : m.AtEntry t retention done entry rest operation y s m' →
    m.holdings.records[entry.place]? = some r → r.lapsesAt t = true →
    s.Delivers r.registry.abortCalls (.expired true) (calls entry.place) →
    m'.holdings = m.holdings.sweptOver t retention (done ++ [entry]) →
    (∀ place, place ≠ entry.place → calls place = m.holdings.callsOver t done place) →
    Sweeps m t retention calls m'
  -- the record has been left as it is
  | passing {done rest : List Entry} {entry : Entry} {operation : Nat} {y : Transaction} :
    m.AtEntry t retention done entry rest operation y (.finished (.expired false)) m' →
    m.holdings.records[entry.place]? = some y.record → y.record.lapsesAt t = false →
    m.HasVisited t retention calls done m' → Sweeps m t retention calls m'
  | ended : m'.errand? m.errands.length =
      some (.finished (.swept (m.holdings.statsOver t retention m.table))) →
    m'.holdings = m.holdings.swept t retention →
    (∀ place, calls place = m.holdings.callsOver t m.table place) → Sweeps m t retention calls m'

/-- The calls with those of one turn more. -/
def andCalls (calls : Nat → List Call) (turn : Turn) (place : Nat) : List Call :=
  calls place ++ callsTo place [turn]

/-- A turn in which no call goes out. -/
theorem andCalls_silent {turn : Turn} {place : Nat} (h : turn.callTo? place = none) :
    andCalls calls turn place = calls place := by
  rw [andCalls, callsTo_singleton, h]
  exact List.append_nil _

theorem AtEntry.stage? (h : m.AtEntry t retention done entry rest operation x s m₁) :
    m₁.coordinator.stage? entry.place operation = some s :=
  Option.bind_eq_some_iff.mpr ⟨x, h.transaction, h.stage⟩

theorem AtEntry.mem (h : m.AtEntry t retention done entry rest operation x s m₁) :
    entry ∈ m.table :=
  h.perm.subset (by simp)

/-- The record that is kept at the place of the entry. -/
theorem AtEntry.getElem?_records (h : m.AtEntry t retention done entry rest operation x s m₁) :
    m₁.holdings.records[entry.place]? = some x.record :=
  (m₁.getElem?_records _).trans (record?_of_transaction h.transaction)

/-- An entry that is still to come is at a place where no entry has been visited. -/
theorem Numbered.place_not_mem (hm : m.Numbered) (hperm : (done ++ entry :: rest).Perm m.table) :
    entry.place ∉ done.map Entry.place := by
  have hnodup := (hperm.map Entry.place).nodup_iff.mpr hm.places_nodup
  rw [List.map_append, List.map_cons, List.nodup_append] at hnodup
  exact fun hmem => hnodup.2.2 _ hmem _ (List.mem_cons_self ..) rfl

/-! ### One move -/

/-- A sweep that has just begun surveys the table. -/
theorem Sweeps.step_begun (he : m₁.errand? m.errands.length = some (.begun .sweep))
    (hholdings : m₁.holdings = m.holdings) (hcalls : ∀ place, calls place = [])
    (hstep : m₁.step move = some m₂) (hown : m₁.owns m.errands.length move = true)
    (hcalm : move.CalmAt t) :
    m.Sweeps t retention (andCalls calls { before := m₁, move := move, after := m₂ }) m₂ := by
  rcases owns_cases hstep hown he with ⟨now, -, hproceed⟩ | ⟨now, order, rfl, -, hperm, rfl⟩ |
    ⟨place, operation, a, x, y, counts, -, hrunning, -⟩
  · cases hproceed
  · obtain rfl : now = t := hcalm
    have htable : m₁.table = m.table := congrArg Holdings.table hholdings
    have hperm : ([] ++ order).Perm m.table := htable ▸ hperm
    refine .between ?_ hperm
      ⟨hholdings.trans (Holdings.sweptOver_nil ..).symm, fun place => ?_⟩
    · exact errand?_put_self he rfl
    · exact (andCalls_silent rfl).trans (hcalls place)
  · cases hrunning

/-- Between two entries a sweep goes on to the next one, or ends. -/
theorem Sweeps.step_between (hm : m.Numbered) (he : m₁.errand? m.errands.length = some (.sweeping
      { now := t, rest := rest, stats := m.holdings.statsOver t retention done }))
    (hperm : (done ++ rest).Perm m.table) (h : m.HasVisited t retention calls done m₁)
    (hstep : m₁.step move = some m₂) (hown : m₁.owns m.errands.length move = true) :
    m.Sweeps t retention (andCalls calls { before := m₁, move := move, after := m₂ }) m₂ := by
  rcases owns_cases hstep hown he with ⟨now, rfl, hproceed⟩ | ⟨now, order, -, hsweep, -⟩ |
    ⟨place, operation, a, x, y, counts, -, hrunning, -⟩
  · have hcalls : ∀ place, andCalls calls
        { before := m₁, move := .proceed m.errands.length now, after := m₂ } place =
          m.holdings.callsOver t done place :=
      fun place => (andCalls_silent rfl).trans (h.calls place)
    cases rest with
    | nil =>
        -- the end
        rw [List.append_nil] at hperm
        obtain rfl := Option.some.inj hproceed
        refine .ended ?_ ?_ fun place => ?_
        · rw [← Holdings.statsOver_perm hperm]
          exact errand?_put_self he rfl
        · show m₁.holdings.countEvicted (done.countP (m.holdings.isDue t retention)) = _
          rw [h.holdings, Holdings.sweptOver_perm hperm, hperm.countP_eq]
          rfl
        · rw [hcalls, Holdings.callsOver_perm hperm]
    | cons entry rest =>
        obtain ⟨⟨m₂, operation⟩, hbegin, rfl⟩ := Option.map_eq_some_iff.mp hproceed
        obtain ⟨x, hx, hbegin⟩ := Option.bind_eq_some_iff.mp hbegin
        obtain ⟨c, hc, heq⟩ := Option.map_eq_some_iff.mp hbegin
        obtain ⟨rfl, rfl⟩ := Prod.mk.inj heq
        obtain ⟨x', y, counts, hx', hbegun, rfl⟩ := Coordinator.step_eq_some_iff.mp hc
        obtain rfl := Option.some.inj (hx'.symm.trans hx)
        obtain ⟨rfl, rfl⟩ := Prod.mk.inj (Option.some.inj hbegun)
        have hrecord : m.holdings.records[entry.place]? = some x'.record := by
          have hnow := (m₁.getElem?_records _).trans (record?_of_transaction hx')
          rw [h.holdings, Holdings.getElem?_sweptOver] at hnow
          simpa [hm.place_not_mem hperm] using hnow
        exact .looking ⟨errand?_put_self he rfl, hperm, Coordinator.getElem?_moved_self hx' _ _,
          List.getElem?_concat_length⟩ hrecord ⟨(holdings_begun hx' _).trans h.holdings, hcalls⟩
  · cases hsweep
  · cases hrunning

/-- A sweep looks at the record of an entry. -/
theorem Sweeps.step_looking (hm : m.Numbered)
    (hat : m.AtEntry t retention done entry rest operation x (.requested .expire) m₁)
    (hr : m.holdings.records[entry.place]? = some x.record)
    (h : m.HasVisited t retention calls done m₁) (hstep : m₁.step move = some m₂)
    (hown : m₁.owns m.errands.length move = true) (hcalm : move.CalmAt t) :
    m.Sweeps t retention (andCalls calls { before := m₁, move := move, after := m₂ }) m₂ := by
  rcases owns_cases hstep hown hat.errand with
    ⟨now, rfl, hproceed⟩ | ⟨now, order, -, hsweep, -⟩ |
    ⟨place, operation', a, x', y, counts, rfl, hrunning, ha, hx, hmove, rfl⟩
  · simp only [proceed, hat.stage?] at hproceed
    cases hproceed
  · cases hsweep
  · obtain ⟨rfl, rfl⟩ := Prod.mk.inj (Option.some.inj hrunning)
    obtain rfl := Option.some.inj (hx.symm.trans hat.transaction)
    obtain ⟨readings, v, rfl, hv, rfl, rfl⟩ := Transaction.step_requested hat.stage ha hmove
    obtain rfl : readings = .steady t := hcalm
    have hnext : (x'.visit operation v).stage? operation = some v.next :=
      (Transaction.stage?_visit hat.stage).trans (if_pos rfl)
    have hy := Coordinator.getElem?_moved_self hx (x'.visit operation v) v.counts
    cases hl : x'.record.lapsesAt t with
    | true =>
        obtain rfl := Option.some.inj
          ((Stage.visit?_expire_of_lapsing _ (t := .steady t) hl).symm.trans hv)
        refine .telling ⟨hat.errand, hat.perm, hy, hnext⟩ hr hl ?_ ?_ fun place hne => ?_
        · -- nobody has been told before
          rw [andCalls, h.calls, Holdings.callsOver_of_not_mem (hm.place_not_mem hat.perm),
            callsTo_act rfl hy hnext, if_pos rfl]
          exact .start _ _
        · rw [holdings_moved, h.holdings, Holdings.sweptOver_concat_of_lapsing hr hl]
          rfl
        · rw [andCalls, h.calls, callsTo_act rfl hy hnext, if_neg hne.symm, List.append_nil]
    | false =>
        obtain rfl := Option.some.inj
          ((Stage.visit?_expire_of_not_lapsing _ (t := .steady t) hl).symm.trans hv)
        refine .passing ⟨hat.errand, hat.perm, hy, hnext⟩ hr hl ⟨?_, fun place => ?_⟩
        · rw [holdings_moved]
          exact (Holdings.put_self hat.getElem?_records).trans h.holdings
        · rw [andCalls, h.calls, callsTo_act rfl hy hnext]
          split <;> exact List.append_nil _

/-- A sweep that has aborted a transaction tells its participants, and then goes on. -/
theorem Sweeps.step_telling
    (hat : m.AtEntry t retention done entry rest operation x s m₁)
    (hr : m.holdings.records[entry.place]? = some r) (hl : r.lapsesAt t = true)
    (hdelivers : s.Delivers r.registry.abortCalls (.expired true) (calls entry.place))
    (hholdings : m₁.holdings = m.holdings.sweptOver t retention (done ++ [entry]))
    (hcalls : ∀ place, place ≠ entry.place → calls place = m.holdings.callsOver t done place)
    (hstep : m₁.step move = some m₂) (hown : m₁.owns m.errands.length move = true)
    (hcalm : move.CalmAt t) :
    m.Sweeps t retention (andCalls calls { before := m₁, move := move, after := m₂ }) m₂ := by
  rcases owns_cases hstep hown hat.errand with
    ⟨now, rfl, hproceed⟩ | ⟨now, order, -, hsweep, -⟩ |
    ⟨place, operation', a, x', y, counts, rfl, hrunning, ha, hx, hmove, rfl⟩
  · -- everybody has been told
    have hstage := hat.stage?
    obtain ⟨owed, rfl, -⟩ := id hdelivers
    cases owed with
    | cons c rest =>
        simp only [proceed, hstage] at hproceed
        cases hproceed
    | nil =>
        simp only [proceed, hstage, Stage.deliverAborts] at hproceed
        obtain rfl := Option.some.inj hproceed
        obtain ⟨-, htold⟩ := hdelivers.eq_of_finished
        have hperm : (done ++ [entry] ++ rest).Perm m.table := by simpa using hat.perm
        refine .between ?_ hperm ⟨hholdings, fun place => ?_⟩
        · rw [Holdings.statsOver_concat, Holdings.lapses_eq hr, Holdings.isDue_eq hr, hl,
            Record.isEvictable_of_lapsing hl]
          exact errand?_put_self hat.errand rfl
        · rw [andCalls_silent rfl]
          by_cases hplace : place = entry.place
          · rw [hplace, htold, Holdings.callsOver_concat_self hr, if_pos hl]
          · rw [hcalls place hplace, Holdings.callsOver_concat_of_ne hplace]
  · cases hsweep
  · obtain ⟨rfl, rfl⟩ := Prod.mk.inj (Option.some.inj hrunning)
    obtain rfl := Option.some.inj (hx.symm.trans hat.transaction)
    obtain ⟨reply, s', rfl, hrecord, rfl, hs', hnext⟩ :=
      Transaction.step_delivers hat.stage hdelivers ha hmove
    have hy := Coordinator.getElem?_moved_self hx y .zero
    refine .telling ⟨hat.errand, hat.perm, hy, hs'⟩ hr hl ?_ ?_ fun place hne => ?_
    · rw [andCalls, callsTo_act rfl hy hs', if_pos rfl]
      exact hnext hcalm
    · rw [holdings_moved, hrecord]
      exact (Holdings.put_self hat.getElem?_records).trans hholdings
    · rw [andCalls, hcalls place hne, callsTo_act rfl hy hs', if_neg hne.symm, List.append_nil]

/-- A sweep that has left a record as it is evicts the entry if it is due, and goes on. -/
theorem Sweeps.step_passing (hm : m.Numbered) (hrun : Run config past m₁)
    (hat : m.AtEntry t config.retention done entry rest operation x (.finished (.expired false)) m₁)
    (hr : m.holdings.records[entry.place]? = some x.record) (hl : x.record.lapsesAt t = false)
    (h : m.HasVisited t config.retention calls done m₁) (hstep : m₁.step move = some m₂)
    (hown : m₁.owns m.errands.length move = true) :
    m.Sweeps t config.retention
      (andCalls calls { before := m₁, move := move, after := m₂ }) m₂ := by
  rcases owns_cases hstep hown hat.errand with
    ⟨now, rfl, hproceed⟩ | ⟨now, order, -, hsweep, -⟩ |
    ⟨place, operation', a, x', y, counts, rfl, hrunning, ha, hx, hmove, rfl⟩
  · have hnew := hm.place_not_mem hat.perm
    have hentry : entry ∈ m₁.table := by
      have htable : m₁.table = (m.holdings.sweptOver t config.retention done).table :=
        congrArg Holdings.table h.holdings
      rw [htable, Holdings.mem_table_sweptOver]
      exact ⟨hat.mem, fun hin => hnew (List.mem_map_of_mem hin.1)⟩
    have hperm : (done ++ [entry] ++ rest).Perm m.table := by simpa using hat.perm
    have hcalls : ∀ place, andCalls calls
        { before := m₁, move := .proceed m.errands.length now, after := m₂ } place =
          m.holdings.callsOver t (done ++ [entry]) place := fun place =>
      ((andCalls_silent rfl).trans (h.calls place)).trans
        (Holdings.callsOver_concat_of_not_lapsing hr hl hnew place).symm
    have hevict := evict?_of_mem hrun.numbered hentry (record?_of_transaction hat.transaction) t
    simp only [proceed, hat.stage?, hevict, hrun.config_eq] at hproceed
    cases hdue : x.record.isEvictable t config.retention with
    | true =>
        rw [hdue, if_pos rfl] at hproceed
        obtain rfl := Option.some.inj hproceed
        refine .between ?_ hperm ⟨?_, hcalls⟩
        · rw [Holdings.statsOver_concat, Holdings.lapses_eq hr, Holdings.isDue_eq hr, hl, hdue]
          exact errand?_put_self hat.errand rfl
        · rw [Holdings.sweptOver_concat_of_due hr hl hdue hm.nodup hat.mem, ← h.holdings]
          rfl
    | false =>
        rw [hdue, if_neg Bool.false_ne_true] at hproceed
        obtain rfl := Option.some.inj hproceed
        refine .between ?_ hperm ⟨?_, hcalls⟩
        · rw [Holdings.statsOver_concat, Holdings.lapses_eq hr, Holdings.isDue_eq hr, hl, hdue]
          exact errand?_put_self hat.errand rfl
        · rw [Holdings.sweptOver_concat_of_kept hr hl hdue]
          exact h.holdings
  · cases hsweep
  · obtain ⟨rfl, rfl⟩ := Prod.mk.inj (Option.some.inj hrunning)
    obtain rfl := Option.some.inj (hx.symm.trans hat.transaction)
    exact absurd hmove (Transaction.step_finished hat.stage ha)

/-- **One move of a sweep** leaves it where a sweep can stand. -/
theorem Sweeps.step (hm : m.Numbered) (hrun : Run config past m₁)
    (h : m.Sweeps t config.retention calls m₁) (hstep : m₁.step move = some m₂)
    (hown : m₁.owns m.errands.length move = true) (hcalm : move.CalmAt t) :
    m.Sweeps t config.retention
      (andCalls calls { before := m₁, move := move, after := m₂ }) m₂ := by
  cases h with
  | begun he hholdings hcalls => exact step_begun he hholdings hcalls hstep hown hcalm
  | between he hperm hvisited => exact step_between hm he hperm hvisited hstep hown
  | looking hat hr hvisited => exact step_looking hm hat hr hvisited hstep hown hcalm
  | telling hat hr hl hdelivers hholdings hcalls =>
      exact step_telling hat hr hl hdelivers hholdings hcalls hstep hown hcalm
  | passing hat hr hl hvisited => exact step_passing hm hrun hat hr hl hvisited hstep hown
  | ended he =>
      rcases owns_cases hstep hown he with ⟨now, -, hproceed⟩ | ⟨now, order, -, hsweep, -⟩ |
        ⟨place, operation, a, x, y, counts, -, hrunning, -⟩
      · cases hproceed
      · cases hsweep
      · cases hrunning

/-- **A sweep along a run**, as long as the clock stands still and no call panics. -/
theorem Sweeps.goes (hm : m.Numbered) (hrun : Run config past m₁)
    (h : m.Sweeps t config.retention calls m₁) (hgoes : Goes m.errands.length m₁ turns m₂)
    (hcalm : ∀ turn ∈ turns, turn.move.CalmAt t) :
    m.Sweeps t config.retention (fun place => calls place ++ callsTo place turns) m₂ := by
  induction hgoes with
  | start => simpa [callsTo] using h
  | next hgoes hstep hown ih =>
      have hsweeps := (ih fun turn hturn => hcalm turn (List.mem_append_left _ hturn)).step hm
        (hgoes.run hrun) hstep hown
        (hcalm _ (List.mem_append_right _ (List.mem_singleton_self _)))
      simp only [callsTo_append, ← List.append_assoc]
      exact hsweeps

theorem SoleRun.sweeps (hrun : Run config past m) (h : m.SoleRun .sweep turns m')
    (hcalm : ∀ turn ∈ turns, turn.move.CalmAt t) :
    m.Sweeps t config.retention (fun place => callsTo place turns) m' := by
  cases h with
  | ask hask hgoes =>
      obtain ⟨he, hholdings, -⟩ := step_ask hask
      have hbegun : m.Sweeps t config.retention (fun _ => []) _ :=
        .begun he hholdings fun place => rfl
      exact hbegun.goes hrun.numbered (hrun.next hask) hgoes
        fun turn hturn => hcalm turn (List.mem_cons_of_mem _ hturn)

/-! ## A sweep comes to its end -/

/-- Errand `k` can come from `m` to `m'` while the clock stands still and no call panics. -/
def CanReach (k : Nat) (t : Timestamp) (m m' : Manager) : Prop :=
  ∃ turns, Goes k m turns m' ∧ ∀ turn ∈ turns, turn.move.CalmAt t

section

variable {k : Nat} {sweep : Sweep}

theorem CanReach.refl (k : Nat) (t : Timestamp) (m : Manager) : CanReach k t m m :=
  ⟨[], .start, fun _ hturn => (nomatch hturn)⟩

theorem CanReach.trans (h : CanReach k t m m₁) (h' : CanReach k t m₁ m₂) : CanReach k t m m₂ := by
  obtain ⟨turns, hgoes, hcalm⟩ := h
  obtain ⟨more, hmore, hcalm'⟩ := h'
  refine ⟨turns ++ more, hgoes.trans hmore, fun turn hturn => ?_⟩
  exact (List.mem_append.mp hturn).elim (hcalm turn) (hcalm' turn)

theorem CanReach.of_step (hstep : m.step move = some m₁) (hown : m.owns k move = true)
    (hcalm : move.CalmAt t) : CanReach k t m m₁ :=
  ⟨_, Goes.start.next hstep hown, fun _ hturn => List.mem_singleton.mp hturn ▸ hcalm⟩

/-- An errand that can go on goes on. -/
theorem CanReach.of_proceed {e e' : Errand} (he : m.errand? k = some e)
    (h : m.proceed k t e = some (m₁.put k e')) (herrands : m₁.errands = m.errands) :
    CanReach k t m (m₁.put k e') ∧ (m₁.put k e').errand? k = some e' := by
  have hstep : m.step (.proceed k t) = some (m₁.put k e') := by
    simp only [Manager.step, he, Option.bind_some, h]
  exact ⟨of_step hstep (beq_self_eq_true k) trivial, errand?_put_self he herrands⟩

/-- The operation that an errand runs makes a move. -/
theorem CanReach.of_act {e : Errand} {place : Nat} {a : Action} {counts : OutcomeCounts}
    (he : m.errand? k = some e) (hrunning : e.running? = some (place, operation))
    (ha : a.operation? = some operation) (hcalm : a.CalmAt t)
    (hx : m.coordinator.transactions[place]? = some x)
    (hstep : x.step m.coordinator.rules a = some (y, counts)) :
    ∃ m₁, CanReach k t m m₁ ∧ m₁.errand? k = some e ∧
      m₁.coordinator.transactions[place]? = some y := by
  obtain ⟨c, hc, hy⟩ := step_act_of hx ha hstep
  refine ⟨_, of_step hc ?_ hcalm, he, hy⟩
  simp [owns, ha, he, hrunning]

/-- A sweep that tells participants goes on to the next entry. -/
theorem reaches_told (owed : List Claim)
    (he : m.errand? k = some (.expiring sweep entry operation))
    (hx : m.coordinator.transactions[entry.place]? = some x)
    (hs : x.stage? operation = some (.deliverAborts false owed (.expired true))) :
    ∃ m', CanReach k t m m' ∧ m'.errand? k = some (.sweeping sweep.expireOne) := by
  induction owed generalizing m x with
  | nil =>
      have hstage : m.coordinator.stage? entry.place operation =
          some (.finished (.expired true)) := Option.bind_eq_some_iff.mpr ⟨x, hx, hs⟩
      exact ⟨m.put k (.sweeping sweep.expireOne),
        CanReach.of_proceed he (by simp only [proceed, hstage]) rfl⟩
  | cons c rest ih =>
      have hstep := Transaction.step_acknowledge m.coordinator.rules (.returned (.answered ())) hs
        rfl
      have hcalm : Action.CalmAt t (.acknowledge operation (.returned (.answered ()))) :=
        ⟨_, rfl⟩
      obtain ⟨m₁, hreach, he₁, hy⟩ := CanReach.of_act he rfl rfl hcalm hx hstep
      obtain ⟨m', hreach', he'⟩ := ih he₁ hy ((Transaction.stage?_put hs).trans (if_pos rfl))
      exact ⟨m', hreach.trans hreach', he'⟩

/-- A sweep that has left a record as it is goes on to the next entry. -/
theorem reaches_passed (he : m.errand? k = some (.expiring sweep entry operation))
    (hx : m.coordinator.transactions[entry.place]? = some x)
    (hs : x.stage? operation = some (.finished (.expired false))) :
    ∃ m' sweep', CanReach k t m m' ∧ m'.errand? k = some (.sweeping sweep') ∧
      sweep'.rest = sweep.rest := by
  have hstage : m.coordinator.stage? entry.place operation =
      some (.finished (.expired false)) := Option.bind_eq_some_iff.mpr ⟨x, hx, hs⟩
  cases hevict : m.evict? entry.id sweep.now with
  | none =>
      obtain ⟨hreach, he'⟩ := CanReach.of_proceed (t := t) he
        (show m.proceed k t _ = some (m.put k (.sweeping sweep)) by
          simp only [proceed, hstage, hevict]) rfl
      exact ⟨_, sweep, hreach, he', rfl⟩
  | some m₁ =>
      obtain ⟨rfl, -⟩ := evict?_eq_some hevict
      obtain ⟨hreach, he'⟩ := CanReach.of_proceed (t := t) he
        (show m.proceed k t _ = some ((m.without entry.id).put k (.sweeping sweep.evictOne)) by
          simp only [proceed, hstage, hevict]) rfl
      exact ⟨_, sweep.evictOne, hreach, he', rfl⟩

/-- A sweep that looks at a record goes on to the next entry. -/
theorem reaches_next (hrun : Run config past m)
    (he : m.errand? k = some (.expiring sweep entry operation))
    (hx : m.coordinator.transactions[entry.place]? = some x)
    (hs : x.stage? operation = some (.requested .expire)) :
    ∃ m' sweep', CanReach k t m m' ∧ m'.errand? k = some (.sweeping sweep') ∧
      sweep'.rest = sweep.rest := by
  have hawake := (hrun.reached.rested hx).awake hs fun w => nofun
  have hnext : ∀ v, (Stage.requested .expire).visit? m.coordinator.rules.lease x.record
      (.steady t) = some v → ∃ m₁, CanReach k t m m₁ ∧
        m₁.errand? k = some (.expiring sweep entry operation) ∧
        m₁.coordinator.transactions[entry.place]? = some (x.visit operation v) := fun v hv =>
    CanReach.of_act (a := .visit operation (.steady t)) he rfl rfl rfl hx
      (Transaction.step_visit hs hawake hv)
  cases hl : x.record.lapsesAt t with
  | true =>
      obtain ⟨m₁, hreach, he₁, hy⟩ := hnext _ (Stage.visit?_expire_of_lapsing _ hl)
      obtain ⟨m', hreach', he'⟩ :=
        reaches_told _ he₁ hy ((Transaction.stage?_visit hs).trans (if_pos rfl))
      exact ⟨m', _, hreach.trans hreach', he', rfl⟩
  | false =>
      obtain ⟨m₁, hreach, he₁, hy⟩ := hnext _ (Stage.visit?_expire_of_not_lapsing _ hl)
      obtain ⟨m', sweep', hreach', he', hrest⟩ :=
        reaches_passed he₁ hy ((Transaction.stage?_visit hs).trans (if_pos rfl))
      exact ⟨m', sweep', hreach.trans hreach', he', hrest⟩

/-- A sweep comes to look at the next entry. -/
theorem reaches_looking (he : m.errand? k = some (.sweeping sweep))
    (hrest : sweep.rest = entry :: rest)
    (hx : m.coordinator.transactions[entry.place]? = some x) :
    ∃ m' y, CanReach k t m m' ∧
      m'.errand? k = some (.expiring { sweep with rest := rest } entry x.operations.length) ∧
      m'.coordinator.transactions[entry.place]? = some y ∧
      y.stage? x.operations.length = some (.requested .expire) := by
  have hbegin : m.begin? entry.place .expire = some ({ m with
      coordinator := m.coordinator.moved entry.place (x.begun .expire) .zero },
      x.operations.length) := by
    rw [begin?, hx, Option.bind_some,
      Coordinator.step_eq_some_iff.mpr ⟨x, x.begun .expire, .zero, hx, rfl, rfl⟩]
    rfl
  have hproceed : m.proceed k t (.sweeping sweep) = some (put { m with
      coordinator := m.coordinator.moved entry.place (x.begun .expire) .zero } k
      (.expiring { sweep with rest := rest } entry x.operations.length)) := by
    simp only [proceed, hrest, hbegin, Option.map_some]
  obtain ⟨hreach, he'⟩ := CanReach.of_proceed he hproceed rfl
  exact ⟨_, x.begun .expire, hreach, he', Coordinator.getElem?_moved_self hx _ .zero,
    List.getElem?_concat_length⟩

end

/-- Every entry that a sweep has yet to visit has its transaction. -/
theorem Sweeps.exists_transaction (hm : m.Numbered) (h : m.Sweeps t retention calls m₁)
    {sweep : Sweep} (he : m₁.errand? m.errands.length = some (.sweeping sweep))
    (hentry : entry ∈ sweep.rest) :
    ∃ x, m₁.coordinator.transactions[entry.place]? = some x := by
  have hstands : ∀ {e : Errand}, m₁.errand? m.errands.length = some e → e = .sweeping sweep :=
    fun he' => Option.some.inj (he'.symm.trans he)
  cases h with
  | between he' hperm hvisited =>
      obtain rfl := Errand.sweeping.inj (hstands he')
      have hlt := hm.place entry (.inl (hperm.subset (List.mem_append_right _ hentry)))
      have hlength : m₁.coordinator.transactions.length = m.issued := by
        have hrecords := congrArg (List.length ∘ Holdings.records) hvisited.holdings
        simpa [holdings, Holdings.sweptOver, issued] using hrecords
      exact ⟨_, List.getElem?_eq_getElem (hlength ▸ hlt)⟩
  | begun he' | ended he' => cases hstands he'
  | looking hat | telling hat | passing hat => cases hstands hat.errand

/-- **A sweep that is between two entries comes to its end**, by induction on the entries that are
left. -/
theorem Sweeps.ends_between (hm : m.Numbered) {sweep : Sweep} (hrest : sweep.rest = rest)
    (hrun : Run config past m₁) (h : m.Sweeps t config.retention calls m₁)
    (he : m₁.errand? m.errands.length = some (.sweeping sweep)) :
    ∃ m' stats, CanReach m.errands.length t m₁ m' ∧
      m'.errand? m.errands.length = some (.finished (.swept stats)) := by
  induction rest generalizing m₁ past calls sweep with
  | nil =>
      have hproceed : m₁.proceed m.errands.length t (.sweeping sweep) =
          some (put { m₁ with evicted := m₁.evicted + UInt64.ofNat sweep.stats.evicted }
            m.errands.length (.finished (.swept sweep.stats))) := by
        simp only [proceed, hrest]
      exact ⟨_, sweep.stats, CanReach.of_proceed he hproceed rfl⟩
  | cons entry rest ih =>
      obtain ⟨x, hx⟩ := h.exists_transaction hm he (hrest ▸ List.mem_cons_self ..)
      obtain ⟨m₂, y, hlooking, he₂, hy, hs⟩ := reaches_looking he hrest hx
      obtain ⟨turns, hgoes, -⟩ := id hlooking
      obtain ⟨m₃, sweep', hnext, he₃, hrest'⟩ := reaches_next (hgoes.run hrun) he₂ hy hs
      obtain ⟨more, hmore, hcalm⟩ := hlooking.trans hnext
      obtain ⟨m', stats, hreach, hended⟩ :=
        ih hrest' (hmore.run hrun) (h.goes hm hrun hmore hcalm) he₃
      exact ⟨m', stats, CanReach.trans ⟨more, hmore, hcalm⟩ hreach, hended⟩

/-- **However far a sweep has come, it can come to its end.** -/
theorem Sweeps.ends (hm : m.Numbered) (hrun : Run config past m₁)
    (h : m.Sweeps t config.retention calls m₁) :
    ∃ m' stats, CanReach m.errands.length t m₁ m' ∧
      m'.errand? m.errands.length = some (.finished (.swept stats)) := by
  have hon : ∀ {m₂ : Manager} {sweep : Sweep}, CanReach m.errands.length t m₁ m₂ →
      m₂.errand? m.errands.length = some (.sweeping sweep) →
      ∃ m' stats, CanReach m.errands.length t m₁ m' ∧
        m'.errand? m.errands.length = some (.finished (.swept stats)) := by
    rintro m₂ sweep ⟨turns, hgoes, hcalm⟩ he
    obtain ⟨m', stats, hreach, hended⟩ :=
      (h.goes hm hrun hgoes hcalm).ends_between hm rfl (hgoes.run hrun) he
    exact ⟨m', stats, CanReach.trans ⟨turns, hgoes, hcalm⟩ hreach, hended⟩
  cases id h with
  | begun he =>
      have hsurvey : m₁.step (.survey m.errands.length t m₁.table) = some (m₁.put m.errands.length
          (.sweeping { now := t, rest := m₁.table, stats := { expired := 0, evicted := 0 } })) := by
        simp only [Manager.step, he, List.isPerm_iff.mpr (List.Perm.refl m₁.table), if_true]
      exact hon (.of_step hsurvey (beq_self_eq_true _) rfl) (errand?_put_self he rfl)
  | between he => exact hon (.refl ..) he
  | looking hat =>
      obtain ⟨m₂, sweep, hreach, he₂, -⟩ :=
        reaches_next hrun hat.errand hat.transaction hat.stage
      exact hon hreach he₂
  | telling hat _ _ hdelivers =>
      obtain ⟨owed, rfl, -⟩ := hdelivers
      obtain ⟨m₂, hreach, he₂⟩ := reaches_told owed hat.errand hat.transaction hat.stage
      exact hon hreach he₂
  | passing hat =>
      obtain ⟨m₂, sweep, hreach, he₂, -⟩ := reaches_passed hat.errand hat.transaction hat.stage
      exact hon hreach he₂
  | ended he => exact ⟨m₁, _, .refl .., he⟩

/-! ## The main result -/

/-- A whole sweep of `m` at `t`: nothing else moves, the clock stands still, no call panics, and the
sweep has come to its end. -/
structure WholeSweep (m : Manager) (t : Timestamp) (turns : List Turn) (m' : Manager)
    (stats : SweepStats) : Prop where
  alone : m.SoleRun .sweep turns m'
  calm : ∀ turn ∈ turns, turn.move.CalmAt t
  ended : m'.errand? m.errands.length = some (.finished (.swept stats))

/-- What a whole sweep has done. -/
theorem WholeSweep.outcome {stats : SweepStats} (hrun : Run config past m)
    (h : m.WholeSweep t turns m' stats) :
    stats = m.holdings.statsOver t config.retention m.table ∧
      m'.holdings = m.holdings.swept t config.retention ∧
      ∀ place, callsTo place turns = m.holdings.callsOver t m.table place := by
  have hstands : ∀ {e : Errand}, m'.errand? m.errands.length = some e →
      e = .finished (.swept stats) := fun he => Option.some.inj (he.symm.trans h.ended)
  cases h.alone.sweeps hrun h.calm with
  | ended he hholdings hcalls =>
      have hresult := Errand.finished.inj (hstands he)
      exact ⟨(Result.swept.inj hresult).symm, hholdings, hcalls⟩
  | begun he | between he => cases hstands he
  | looking hat | telling hat | passing hat => cases hstands hat.errand

/-- A sweep can survey the table in any order, and then comes to its end. -/
theorem Run.sweeps_in_order (hrun : Run config past m) (t : Timestamp) {order : List Entry}
    (horder : order.Perm m.table) :
    ∃ turns m' stats, m.WholeSweep t turns m' stats ∧
      ∃ turn ∈ turns, turn.move = .survey m.errands.length t order := by
  obtain ⟨m₁, hask⟩ : ∃ m₁, m.step (.ask .sweep) = some m₁ := ⟨_, rfl⟩
  obtain ⟨he, hholdings, -⟩ := step_ask hask
  have htable : m₁.table = m.table := congrArg Holdings.table hholdings
  obtain ⟨m₂, hsurvey⟩ : ∃ m₂, m₁.step (.survey m.errands.length t order) = some m₂ := by
    simp only [Manager.step, he, htable, List.isPerm_iff.mpr horder, if_true]
    exact ⟨_, rfl⟩
  have hown : m₁.owns m.errands.length (.survey m.errands.length t order) = true :=
    beq_self_eq_true m.errands.length
  have hbegun : m.Sweeps t config.retention (fun _ => []) m₁ := .begun he hholdings fun _ => rfl
  have hsurveyed := hbegun.step hrun.numbered (hrun.next hask) hsurvey hown rfl
  obtain ⟨m', stats, ⟨more, hmore, hcalm⟩, hended⟩ :=
    hsurveyed.ends hrun.numbered ((hrun.next hask).next hsurvey)
  have hgoes := (Goes.start.next hsurvey hown).trans hmore
  refine ⟨_, m', stats, ⟨.ask hask hgoes, fun turn hturn => ?_, hended⟩,
    { before := m₁, move := .survey m.errands.length t order, after := m₂ }, by simp, rfl⟩
  rcases List.mem_cons.mp hturn with rfl | hturn
  · trivial
  · rcases List.mem_append.mp hturn with hturn | hturn
    · exact List.mem_singleton.mp hturn ▸ rfl
    · exact hcalm turn hturn

/-- What a sweep at `t` that leads from `m` to `m'` is to make of the transaction of an entry. -/
structure Treats (m m' : Manager) (t : Timestamp) (retention : Duration) (entry : Entry)
    (r : Record) : Prop where
  lapsed : r.phase.isTerminal = false → r.lease.hasLapsed t = true →
    m'.entry? entry.id = some entry ∧ m'.record? entry.id = some (r.expired t)
  due : r.phase.isTerminal = true → ∀ settled, r.settledAt = some settled →
    min (settled.micros + retention.micros) 18446744073709551615 < t.micros →
      m'.entry? entry.id = none
  kept : ¬(r.phase.isTerminal = false ∧ r.lease.hasLapsed t = true) →
    (r.phase.isTerminal = true → ∀ settled, r.settledAt = some settled →
      t.micros ≤ min (settled.micros + retention.micros) 18446744073709551615) →
    m'.entry? entry.id = some entry ∧ m'.record? entry.id = some r

/-- A whole sweep makes of every entry what it is to make of it. -/
theorem treats_of_swept (hm : m.Numbered) (hm' : m'.Numbered)
    (hswept : m'.holdings = m.holdings.swept t retention) (hentry : entry ∈ m.table)
    (hr : m.coordinator.record? entry.place = some r) : m.Treats m' t retention entry r := by
  have hr' : m.holdings.records[entry.place]? = some r := (m.getElem?_records _).trans hr
  have htable : ∀ e, e ∈ m'.table ↔ e ∈ m.table ∧ m.holdings.isDue t retention e = false := by
    intro e
    have hmem : e ∈ m'.table ↔ e ∈ (m.holdings.sweptOver t retention m.table).table := by
      rw [← show m'.holdings.table = m'.table from rfl, hswept]
      rfl
    rw [hmem, Holdings.mem_table_sweptOver]
    refine and_congr_right fun hin => ?_
    rw [Bool.eq_false_iff]
    exact not_congr (and_iff_right hin)
  have hrecord : m'.coordinator.record? entry.place = some (r.sweptAt t) := by
    rw [← getElem?_records, hswept]
    refine (Holdings.getElem?_sweptOver m.holdings t retention m.table entry.place).trans ?_
    rw [hr', Option.map_some, if_pos (List.mem_map_of_mem hentry)]
  have hstays : r.isEvictable t retention = false →
      m'.entry? entry.id = some entry ∧ m'.record? entry.id = some (r.sweptAt t) := by
    intro hdue
    have hfound := entry?_of_mem hm'
      ((htable entry).mpr ⟨hentry, (Holdings.isDue_eq hr').trans hdue⟩)
    exact ⟨hfound, by rw [record?, hfound, Option.bind_some, hrecord]⟩
  refine ⟨fun hu hl => ?_, fun hd settled hsettled hlate => ?_, fun hlapsed hdue => ?_⟩
  · have hlapses := Record.lapsesAt_iff.mpr ⟨hu, hl⟩
    rw [← Record.sweptAt_of_lapsing hlapses]
    exact hstays (Record.isEvictable_of_lapsing hlapses t)
  · refine Option.eq_none_iff_forall_ne_some.mpr fun found hfound => ?_
    obtain ⟨hin, hid⟩ := mem_of_entry?_eq_some hfound
    obtain ⟨hin, hnot⟩ := (htable found).mp hin
    obtain rfl := List.inj_on_of_nodup_map hm.nodup hin hentry hid
    rw [Holdings.isDue_eq hr', Record.isEvictable_iff.mpr ⟨hd, settled, hsettled, hlate⟩] at hnot
    cases hnot
  · have hlapses : r.lapsesAt t = false :=
      Bool.eq_false_iff.mpr fun hlapses => hlapsed (Record.lapsesAt_iff.mp hlapses)
    have hearly : r.isEvictable t retention = false := by
      refine Bool.eq_false_iff.mpr fun hevictable => ?_
      obtain ⟨hd, settled, hsettled, hlate⟩ := Record.isEvictable_iff.mp hevictable
      exact absurd (hdue hd settled hsettled) (Nat.not_le_of_lt hlate)
    rw [← Record.sweptAt_of_not_lapsing hlapses]
    exact hstays hearly

/-- **A sweep does its job, in any order, and once.** In any state that a manager can reach, a sweep
is made while nothing else moves, the clock shows `t` and no call panics.

* It can survey the table in any order of its entries, and then comes to its end.
* When it has ended: an undecided transaction of the table whose lease has lapsed is aborted because
  of that and still in the table. A decided one is gone if `t` is later than the decision by more
  than the retention, where the sum stops at the latest instant. Every other one is as it was.
* The statistics are the sizes of these two sets, the totals have grown by them, and every
  transaction has been called as `Holdings.callsOver` says. So neither of these depends on the order
  of the entries.
* Another sweep at `t` counts nothing, calls nobody and changes nothing, however short the retention
  is. -/
theorem sweep_exact (hrun : Run config past m) (t : Timestamp) :
    (∀ order, order.Perm m.table → ∃ turns m' stats, m.WholeSweep t turns m' stats ∧
      ∃ turn ∈ turns, turn.move = .survey m.errands.length t order) ∧
    ∀ turns m' stats, m.WholeSweep t turns m' stats →
      (∀ entry ∈ m.table, ∃ r, m.coordinator.record? entry.place = some r ∧
        m.Treats m' t config.retention entry r) ∧
      m'.holdings = m.holdings.swept t config.retention ∧
      stats = { expired := m.table.countP (m.holdings.lapses t)
                evicted := m.table.countP (m.holdings.isDue t config.retention) } ∧
      m'.coordinator.totals.expired =
        m.coordinator.totals.expired + UInt64.ofNat stats.expired ∧
      m'.evicted = m.evicted + UInt64.ofNat stats.evicted ∧
      (∀ place, callsTo place turns = m.holdings.callsOver t m.table place) ∧
      (∀ turns' k stats', m.WholeSweep t turns' k stats' → k.holdings = m'.holdings ∧
        stats' = stats ∧ ∀ place, callsTo place turns' = callsTo place turns) ∧
      ∀ more k stats', m'.WholeSweep t more k stats' → k.holdings = m'.holdings ∧
        stats' = { expired := 0, evicted := 0 } ∧ ∀ place, callsTo place more = [] := by
  refine ⟨fun order horder => hrun.sweeps_in_order t horder, fun turns m' stats hsweep => ?_⟩
  have hrun' := hsweep.alone.run hrun
  obtain ⟨rfl, hholdings, hcalls⟩ := hsweep.outcome hrun
  refine ⟨fun entry hentry => ?_, hholdings, rfl, ?_, ?_, hcalls, fun turns' k stats' hother => ?_,
    fun more k stats' hnext => ?_⟩
  · have hx := List.getElem?_eq_getElem (hrun.numbered.place entry (.inl hentry))
    exact ⟨_, record?_of_transaction hx,
      treats_of_swept hrun.numbered hrun'.numbered hholdings hentry (record?_of_transaction hx)⟩
  · exact congrArg (fun h => Totals.expired (Holdings.totals h)) hholdings
  · exact congrArg Holdings.evicted hholdings
  · obtain ⟨rfl, hholdings', hcalls'⟩ := hother.outcome hrun
    exact ⟨hholdings'.trans hholdings.symm, rfl,
      fun place => (hcalls' place).trans (hcalls place).symm⟩
  · obtain ⟨rfl, hholdings', hcalls'⟩ := hnext.outcome hrun'
    have hsettled := m.holdings.settled_swept t config.retention
    rw [← hholdings] at hsettled
    obtain ⟨hsame, hnothing, hnobody⟩ := Holdings.swept_of_settled hsettled
    exact ⟨hholdings'.trans hsame, hnothing, fun place => (hcalls' place).trans (hnobody place)⟩

/-- Of three transactions the first one has a party and a short lease, the second one is aborted,
and the third one is active. -/
def lapsedAbortedActive : List Move :=
  let proceed (errand : Nat) : Move := .proceed errand .epoch
  [.ask (.create (.bounded (Duration.ofMillis 1))), proceed 0, proceed 0, proceed 0,
    .ask (.create .forever), proceed 1, proceed 1, proceed 1,
    .ask (.create .forever), proceed 2, proceed 2, proceed 2,
    .ask (.join ⟨1⟩ { key := 0, combines := false }), proceed 3,
    .act 0 (.visit 0 (.steady .epoch)), proceed 3,
    .ask (.abort ⟨2⟩), proceed 4, .act 1 (.visit 0 (.steady .epoch)), proceed 4]

/-- A sweep takes the three transactions from the last one to the first one. Decided transactions
are not retained at all, and still the one that it aborts outlives the next sweep. -/
theorem sweep_exact_of_three :
    ∃ past m turns m' more k, Run { Config.standard with retentionMs := 0 } past m ∧
      m.WholeSweep (.ofMillis 100) turns m' { expired := 1, evicted := 1 } ∧
      (∃ turn ∈ turns,
        turn.move = .survey 5 (.ofMillis 100) [⟨⟨3⟩, 2⟩, ⟨⟨2⟩, 1⟩, ⟨⟨1⟩, 0⟩]) ∧
      (∃ r, m'.record? ⟨1⟩ = some r ∧ r.phase = .aborted ∧ r.abortCause = some .leaseExpired) ∧
      m'.entry? ⟨2⟩ = none ∧ m'.entry? ⟨3⟩ = some ⟨⟨3⟩, 2⟩ ∧
      callsTo 0 turns =
        [{ position := 0, participant := { key := 0, combines := false }, verb := .abort }] ∧
      m'.WholeSweep (.ofMillis 100) more k { expired := 0, evicted := 0 } ∧
      k.holdings = m'.holdings := by
  have hrun : Run { Config.standard with retentionMs := 0 } _ _ :=
    Run.of_play lapsedAbortedActive rfl
  obtain ⟨horders, hsweeps⟩ := sweep_exact hrun (.ofMillis 100)
  obtain ⟨turns, m', stats, hsweep, horder⟩ :=
    horders [⟨⟨3⟩, 2⟩, ⟨⟨2⟩, 1⟩, ⟨⟨1⟩, 0⟩] (List.isPerm_iff.mp rfl)
  obtain ⟨htreated, -, rfl, -, -, hcalls, -, hagain⟩ := hsweeps turns m' stats hsweep
  obtain ⟨r₁, hr₁, hfirst⟩ := htreated ⟨⟨1⟩, 0⟩ (by decide)
  obtain rfl := Option.some.inj hr₁
  obtain ⟨r₂, hr₂, hsecond⟩ := htreated ⟨⟨2⟩, 1⟩ (by decide)
  obtain rfl := Option.some.inj hr₂
  obtain ⟨r₃, hr₃, hthird⟩ := htreated ⟨⟨3⟩, 2⟩ (by decide)
  obtain ⟨hfirst', -⟩ := sweep_exact (hsweep.alone.run hrun) (.ofMillis 100)
  obtain ⟨more, k, stats', hnext, -⟩ := hfirst' m'.table (.refl _)
  obtain ⟨hsame, rfl, -⟩ := hagain more k stats' hnext
  obtain rfl := Option.some.inj hr₃
  have hkept := hthird.kept (by decide) fun hd => absurd hd (by decide)
  exact ⟨_, _, turns, m', more, k, hrun, hsweep, horder,
    ⟨_, (hfirst.lapsed rfl rfl).2, rfl, rfl⟩, hsecond.due rfl _ rfl (by decide), hkept.1, hcalls 0,
    hnext, hsame⟩

end Manager

end LeasedCommit
