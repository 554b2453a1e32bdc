import LeasedCommit.Proofs.Accounting

set_option autoImplicit false

/-! # Where a created transaction can be

A transaction that was created is in the table until a sweep evicts it. A sweep adds what it has
evicted to the total when it ends, and not before: a sweep that breaks off, because a party
panicked while it was told of an abort, takes its count with it (`Turn.lost`). So the total of
evictions falls short by what such sweeps had evicted, and by nothing else as long as the
numbers last (`table_accounting`). -/

namespace LeasedCommit

namespace Errand

/-- The transactions that an errand has in hand: a new one that is not in the table yet, or those
that are evicted and not in the total yet. -/
def inHand : Errand → Nat
  | .storing _ => 1
  | .sweeping sweep | .expiring sweep _ _ => sweep.stats.evicted
  | _ => 0

/-- The evictions that are in no total when an errand has gone from one stand to another. -/
def losesAt : Errand → Errand → Nat
  | .expiring sweep _ _, .panicked _ => sweep.stats.evicted
  | _, _ => 0

theorem Plain.inHand {e : Errand} (h : e.Plain) : e.inHand = 0 := by
  cases e with
  | storing => cases h.storing?
  | sweeping | expiring => cases h.sweep?
  | _ => rfl

theorem Plain.losesAt {e : Errand} (h : e.Plain) (e' : Errand) : e.losesAt e' = 0 := by
  cases e with
  | expiring => cases h.sweep?
  | _ => rfl

end Errand

namespace Manager

/-- The number of entries that make way for the one that an errand is about to store. -/
def displacedBy (m : Manager) (e : Errand) : Nat :=
  e.storing?.elim 0 fun entry => m.table.countP fun old => old.id = entry.id

namespace Turn

/-- The evictions that are lost in a move: those of a sweep that a panic ends. -/
def lost (t : Turn) : Nat :=
  match t.move.errand?.bind t.before.errand?, t.move.errand?.bind t.after.errand? with
  | some e, some e' => e.losesAt e'
  | _, _ => 0

/-- The entries that make way for a new one in a move. -/
def displaced (t : Turn) : Nat := (t.move.errand?.bind t.before.errand?).elim 0 t.before.displacedBy

end Turn

variable {config : Config} {turns : List Turn} {m m₁ : Manager} {i : Nat} {e e' : Errand}

/-! ## The balance of one move -/

theorem length_filter_id (table : List Entry) (id : TransactionId) :
    (table.filter fun e => e.id ≠ id).length + table.countP (fun e => e.id = id) =
      table.length := by
  rw [List.length_eq_countP_add_countP (fun e => decide (e.id = id)) (l := table),
    ← List.countP_eq_length_filter, Nat.add_comm]
  simp only [decide_eq_true_eq, ne_eq]

/-- An entry that is evicted is the only one of its number. -/
theorem Numbered.length_without (h : m.Numbered) {id : TransactionId} {record : Record}
    (hrecord : m.record? id = some record) :
    (m.without id).table.length + 1 = m.table.length := by
  simp only [record?, entry?, Option.bind_eq_some_iff] at hrecord
  obtain ⟨entry, hentry, -⟩ := hrecord
  have hid : entry.id = id := by simpa using List.find?_some hentry
  have hone : m.table.countP (fun e => e.id = id) = 1 := by
    have hmem : id ∈ m.table.map Entry.id :=
      hid ▸ List.mem_map_of_mem (List.mem_of_find?_eq_some hentry)
    have hcount := List.count_eq_one_of_mem h.nodup hmem
    rw [List.count, List.countP_map] at hcount
    exact hcount
  rw [← length_filter_id m.table id, hone]
  rfl

/-- Every transaction ever opened is in the table, in hand, or counted as evicted, unless the move
loses it. -/
theorem Does.balance (hm : m.Numbered) (h : m.Does e m₁ e') :
    ∃ n, m₁.evicted = m.evicted + UInt64.ofNat n ∧
      m₁.table.length + e'.inHand + e.losesAt e' + m.displacedBy e + m.issued + n =
        m.table.length + e.inHand + m₁.issued := by
  have hsame : m.evicted = m.evicted + UInt64.ofNat 0 := (UInt64.add_zero _).symm
  cases h with
  | goes hp hp' =>
      refine ⟨0, hsame, ?_⟩
      rw [hp.inHand, hp'.inHand, hp.losesAt, displacedBy, hp.storing?]
      rfl
  | begins hp hp' hc =>
      refine ⟨0, hsame, ?_⟩
      rw [hp.inHand, hp'.inHand, hp.losesAt, displacedBy, hp.storing?, issued, issued,
        Coordinator.step_length hc]
      rfl
  | visits _ hc =>
      refine ⟨0, hsame, ?_⟩
      rw [issued, issued, Coordinator.step_length hc]
      rfl
  | opens =>
      refine ⟨0, hsame, ?_⟩
      rw [issued_opened]
      show m.table.length + 1 + m.issued = m.table.length + 0 + (m.issued + 1)
      omega
  | @stores entry expiration =>
      refine ⟨0, hsame, ?_⟩
      have hlength := length_filter_id m.table entry.id
      show (m.table.filter (fun e => e.id ≠ entry.id) ++ [entry]).length + 0 + 0 +
        m.table.countP (fun old => old.id = entry.id) + m.issued =
          m.table.length + 1 + m.issued
      rw [List.length_append, List.length_singleton]
      omega
  | @evicts sweep entry operation record hrecord _ =>
      refine ⟨0, hsame, ?_⟩
      have hlength := hm.length_without hrecord
      show (m.without entry.id).table.length + (sweep.stats.evicted + 1) + m.issued =
        m.table.length + sweep.stats.evicted + m.issued
      omega
  | @unwinds sweep =>
      refine ⟨0, hsame, ?_⟩
      show m.table.length + 0 + sweep.stats.evicted + 0 + m.issued =
        m.table.length + sweep.stats.evicted + m.issued
      omega
  | @settles sweep =>
      refine ⟨sweep.stats.evicted, rfl, ?_⟩
      show m.table.length + 0 + m.issued + sweep.stats.evicted =
        m.table.length + sweep.stats.evicted + m.issued
      omega
  | counts | surveys | expires | keeps => exact ⟨0, hsame, rfl⟩

/-- The balance along a run. -/
theorem Run.balance (h : Run config turns m) :
    ∃ n, m.evicted = UInt64.ofNat n ∧
      m.table.length + (m.errands.map Errand.inHand).sum + n +
        (turns.map Turn.lost).sum + (turns.map Turn.displaced).sum = m.issued := by
  induction h with
  | start => exact ⟨0, rfl, rfl⟩
  | @next turns m m' move hrun hstep ih =>
      obtain ⟨n, hevicted, hsofar⟩ := ih
      rw [List.map_append, List.map_append, List.sum_append, List.sum_append, List.map_singleton,
        List.map_singleton, List.sum_singleton, List.sum_singleton]
      rcases step_cases hstep with ⟨task, hmove, rfl⟩ | ⟨place, action, c, hmove, hc, rfl⟩ |
        ⟨i, e, m₁, e', hmove, he, hdoes, rfl⟩
      · refine ⟨n, hevicted, ?_⟩
        simp only [Turn.lost, Turn.displaced, hmove, List.map_append, List.sum_append]
        exact hsofar
      · refine ⟨n, hevicted, ?_⟩
        simp only [Turn.lost, Turn.displaced, hmove, issued, Coordinator.step_length hc]
        exact hsofar
      · obtain ⟨more, hmore, hbalance⟩ := hdoes.balance hrun.numbered
        have hsum := sum_map_set (f := Errand.inHand) he e'
        have hlt : i < m₁.errands.length :=
          hdoes.errands ▸ (List.getElem?_eq_some_iff.mp he).1
        have he' : (m₁.put i e').errand? i = some e' := List.getElem?_set_self hlt
        refine ⟨n + more, ?_, ?_⟩
        · show m₁.evicted = UInt64.ofNat (n + more)
          rw [hmore, hevicted, UInt64.ofNat_add]
        simp only [Turn.lost, Turn.displaced, hmove, Option.bind_some, he, he']
        show m₁.table.length + ((m₁.errands.set i e').map Errand.inHand).sum + (n + more) +
          ((turns.map Turn.lost).sum + e.losesAt e') +
          ((turns.map Turn.displaced).sum + m.displacedBy e) = m₁.issued
        rw [hdoes.errands]
        omega

/-! ## No entry makes way while the numbers last -/

/-- The new transaction that an errand holds. -/
def held? (m : Manager) (i : Nat) : Option Entry := (m.errand? i).bind Errand.storing?

/-- The new transactions are at different places, and at none that is in the table. -/
structure Apart (m : Manager) : Prop where
  held : ∀ i j a b, m.held? i = some a → m.held? j = some b → i ≠ j → a.place ≠ b.place
  table : ∀ i a, m.held? i = some a → ∀ b ∈ m.table, b.place ≠ a.place

theorem held?_known {a : Entry} (h : m.held? i = some a) : m.Knows a := by
  obtain ⟨e, he, hstoring⟩ := Option.bind_eq_some_iff.mp h
  exact .inr ⟨e, List.mem_of_getElem? he, hstoring⟩

/-- After an errand has moved, the others hold what they held. -/
theorem held?_put {j : Nat} {a : Entry} (hm : m₁.errands = m.errands)
    (h : (m₁.put i e').held? j = some a) :
    (j ≠ i ∧ m.held? j = some a) ∨ (j = i ∧ e'.storing? = some a) := by
  obtain ⟨e, he, hstoring⟩ := Option.bind_eq_some_iff.mp h
  have hset : (m.errands.set i e')[j]? = some e := hm ▸ he
  rw [List.getElem?_set] at hset
  split at hset
  · rename_i hij
    split at hset
    · obtain rfl := Option.some.inj hset
      exact .inr ⟨hij.symm, hstoring⟩
    · cases hset
  · rename_i hij
    exact .inl ⟨fun h => hij h.symm, Option.bind_eq_some_iff.mpr ⟨e, hset, hstoring⟩⟩

theorem Apart.keep {m' : Manager} (h : m.Apart)
    (hheld : ∀ j a, m'.held? j = some a → m.held? j = some a)
    (htable : ∀ b ∈ m'.table, b ∈ m.table) : m'.Apart where
  held i j a b ha hb hne := h.held i j a b (hheld i a ha) (hheld j b hb) hne
  table i a ha b hb := h.table i a (hheld i a ha) b (htable b hb)

theorem Apart.does (h : m.Apart) (hm : m.Numbered) (he : m.errand? i = some e)
    (hdoes : m.Does e m₁ e') : (m₁.put i e').Apart := by
  have hput {j : Nat} {a : Entry} (ha : (m₁.put i e').held? j = some a) :
      (j ≠ i ∧ m.held? j = some a) ∨ (j = i ∧ e'.storing? = some a) :=
    held?_put hdoes.errands ha
  -- whatever errand moves, unless it holds a new transaction then
  have hplain : e'.storing? = none →
      ∀ j a, (m₁.put i e').held? j = some a → m.held? j = some a := by
    intro hnone j a ha
    rcases hput ha with ⟨-, ha⟩ | ⟨-, ha⟩
    · exact ha
    · rw [hnone] at ha
      cases ha
  cases hdoes with
  | opens =>
      -- the new place is beyond all others
      have hnew {j : Nat} {a : Entry} (ha : m.held? j = some a) : a.place < m.issued :=
        hm.place a (held?_known ha)
      refine ⟨fun j k a b ha hb hne => ?_, fun j a ha b hb => ?_⟩
      · rcases hput ha with ⟨-, hold⟩ | ⟨hj, hself⟩ <;>
          rcases hput hb with ⟨-, hold'⟩ | ⟨hk, hself'⟩
        · exact h.held j k a b hold hold' hne
        · obtain rfl := Option.some.inj hself'
          exact Nat.ne_of_lt (hnew hold)
        · obtain rfl := Option.some.inj hself
          exact Nat.ne_of_gt (hnew hold')
        · exact absurd (hj.trans hk.symm) hne
      · rcases hput ha with ⟨-, hold⟩ | ⟨-, hself⟩
        · exact h.table j a hold b hb
        · obtain rfl := Option.some.inj hself
          exact Nat.ne_of_lt (hm.place b (.inl hb))
  | @stores entry expiration =>
      have hentry : m.held? i = some entry := Option.bind_eq_some_iff.mpr ⟨_, he, rfl⟩
      refine ⟨fun j k a b ha hb => h.held j k a b (hplain rfl j a ha) (hplain rfl k b hb),
        fun j a ha b hb => ?_⟩
      rcases hput ha with ⟨hji, hold⟩ | ⟨-, hself⟩
      · rcases List.mem_append.mp hb with hb | hb
        · exact h.table j a hold b (List.mem_of_mem_filter hb)
        · obtain rfl := List.mem_singleton.mp hb
          exact h.held i j b a hentry hold (Ne.symm hji)
      · cases hself
  | goes _ hp' | begins _ hp' _ => exact h.keep (hplain hp'.storing?) fun _ => id
  | evicts => exact h.keep (hplain rfl) fun _ => List.mem_of_mem_filter
  | counts | surveys | visits | expires | keeps | unwinds | settles =>
      exact h.keep (hplain rfl) fun _ => id

theorem Run.apart (h : Run config turns m) : m.Apart := by
  refine Run.invariant ⟨fun _ _ _ _ ha => ?_, fun _ _ _ b hb => ?_⟩ (fun m task ih => ?_)
    (fun _ _ _ _ _ _ ih _ => ih.keep (fun _ _ => id) fun _ => id)
    (fun _ _ _ _ _ _ hrun ih he hdoes => ih.does hrun.numbered he hdoes) h
  · simp [held?, errand?, create] at ha
  · simp [create] at hb
  · refine ih.keep (fun j a ha => ?_) fun _ => id
    obtain ⟨e, he, hstoring⟩ := Option.bind_eq_some_iff.mp ha
    have hget : (m.errands ++ [.begun task])[j]? = some e := he
    rw [List.getElem?_append] at hget
    split at hget
    · exact Option.bind_eq_some_iff.mpr ⟨e, hget, hstoring⟩
    -- a task that has just been asked for holds nothing
    · obtain rfl := List.mem_singleton.mp (List.mem_of_getElem? hget)
      cases hstoring

/-- As long as the numbers last, no entry has the number of a new one. -/
theorem Apart.displacedBy_eq_zero (h : m.Apart) (hm : m.Numbered) (he : m.errand? i = some e)
    (hbound : m.issued < UInt64.size) : m.displacedBy e = 0 := by
  cases hstoring : e.storing? with
  | none => rw [displacedBy, hstoring, Option.elim_none]
  | some entry =>
      have hheld : m.held? i = some entry := Option.bind_eq_some_iff.mpr ⟨e, he, hstoring⟩
      have hknown := held?_known hheld
      rw [displacedBy, hstoring, Option.elim_some, List.countP_eq_zero]
      intro old hold
      rw [decide_eq_true_eq, hm.id old (.inl hold), hm.id entry hknown]
      have hplace := hm.place old (.inl hold)
      have hplace' := hm.place entry hknown
      exact fun hid => h.table i entry hheld old hold (numberAt_inj (by omega) (by omega) hid)

/-- No transaction is ever forgotten by the coordinator. -/
theorem issued_le {m' : Manager} {move : Move} (h : m.step move = some m') :
    m.issued ≤ m'.issued := by
  rcases step_cases h with ⟨task, -, rfl⟩ | ⟨place, action, c, -, hc, rfl⟩ |
    ⟨i, e, m₁, e', -, -, hdoes, rfl⟩
  · exact Nat.le_refl _
  · exact Nat.le_of_eq (Coordinator.step_length hc).symm
  · show m.issued ≤ m₁.issued
    rcases hdoes.coordinator with heq | ⟨request, now, heq⟩ | ⟨place, action, hc⟩
    · exact Nat.le_of_eq (by rw [issued, issued, heq])
    · rw [issued, issued, heq, Coordinator.openTransaction, List.length_append]
      exact Nat.le_add_right _ _
    · exact Nat.le_of_eq (Coordinator.step_length hc).symm

theorem Run.displaced_eq_zero (h : Run config turns m) (hbound : m.issued < UInt64.size) :
    (turns.map Turn.displaced).sum = 0 := by
  induction h with
  | start => rfl
  | @next turns m m' move hrun hstep ih =>
      have hbound' : m.issued < UInt64.size := Nat.lt_of_le_of_lt (issued_le hstep) hbound
      rw [List.map_append, List.sum_append, ih hbound', List.map_singleton, List.sum_singleton,
        Nat.zero_add, Turn.displaced]
      cases he : move.errand?.bind m.errand? with
      | none => rfl
      | some e =>
          obtain ⟨i, -, he⟩ := Option.bind_eq_some_iff.mp he
          exact hrun.apart.displacedBy_eq_zero hrun.numbered he hbound'

/-! ## The balance when nobody is busy -/

/-- When every errand is over, a transaction that was created is in the table, or in the total of
evictions, or was evicted by a sweep that a panic has ended, or had to make way for another one
of its number. The totals are words of 64 bits, so that is an equation modulo `2 ^ 64`. As long as
the numbers last nothing makes way, and the equation is exact. -/
theorem table_accounting (h : Run config turns m) (hover : ∀ e ∈ m.errands, e.isOver = true) :
    m.metrics.created = (m.metrics.tracked + m.metrics.evicted +
      (turns.map Turn.lost).sum + (turns.map Turn.displaced).sum) % UInt64.size ∧
    (m.issued < UInt64.size →
      m.metrics.created = m.metrics.tracked + m.metrics.evicted + (turns.map Turn.lost).sum) := by
  have hnone : ∀ e ∈ m.errands, e.creates = false ∧ e.inHand = 0 := by
    intro e he
    have := hover e he
    cases e with
    | finished | panicked => exact ⟨rfl, rfl⟩
    | _ => cases this
  have hinHand : (m.errands.map Errand.inHand).sum = 0 := by
    refine List.sum_eq_zero_iff_forall_eq_nat.mpr fun n hn => ?_
    obtain ⟨e, he, rfl⟩ := List.mem_map.mp hn
    exact (hnone e he).2
  obtain ⟨n, hn, hbalance⟩ := h.balance
  rw [hinHand] at hbalance
  have hcreated : m.metrics.created = m.issued % UInt64.size := by
    show m.created.toNat = m.issued % UInt64.size
    rw [h.created_of_idle fun e he => (hnone e he).1, UInt64.toNat_ofNat']
  have hevicted : m.metrics.evicted = n % UInt64.size := by
    show m.evicted.toNat = n % UInt64.size
    rw [hn, UInt64.toNat_ofNat']
  have htracked : m.metrics.tracked = m.table.length := rfl
  refine ⟨?_, fun hbound => ?_⟩
  · rw [hcreated, hevicted, htracked, ← hbalance, Nat.add_zero]
    simp only [UInt64.size]
    omega
  · have hdisplaced := h.displaced_eq_zero hbound
    rw [hcreated, hevicted, htracked, Nat.mod_eq_of_lt hbound, Nat.mod_eq_of_lt (by omega)]
    omega

/-- Of three transactions two are in the table and one was evicted. -/
theorem table_accounting_of_three :
    ∃ turns m, Run .standard turns m ∧ (∀ e ∈ m.errands, e.isOver = true) ∧
      m.metrics.created = 3 ∧ m.metrics.tracked = 2 ∧ m.metrics.evicted = 1 ∧
      m.metrics.created = m.metrics.tracked + m.metrics.evicted + (turns.map Turn.lost).sum := by
  have hrun : Run .standard _ _ := Run.of_play threeTransactions rfl
  obtain ⟨-, hbalance⟩ := table_accounting hrun (by decide)
  exact ⟨_, _, hrun, by decide, rfl, rfl, rfl, hbalance (by decide)⟩

/-- The first transaction is aborted. A sweep evicts it and then finds the lease of the second one
lapsed, whose party panics when it is told. -/
def brokenSweep : List Move :=
  let late : Timestamp := .ofMicros 100000000
  let proceed (errand : Nat) : Move := .proceed errand .epoch
  [.ask (.create .forever), proceed 0, proceed 0, proceed 0,
    .ask (.create (.bounded (Duration.ofMillis 1))), proceed 1, proceed 1, proceed 1,
    .ask (.join ⟨2⟩ { key := 0, combines := false }), proceed 2,
    .act 1 (.visit 0 (.steady .epoch)), proceed 2,
    .ask (.abort ⟨1⟩), proceed 3, .act 0 (.visit 0 (.steady .epoch)), proceed 3,
    .ask .sweep, .survey 4 late [⟨⟨1⟩, 0⟩, ⟨⟨2⟩, 1⟩], proceed 4,
    .act 0 (.visit 1 (.steady late)), proceed 4, proceed 4, .act 1 (.visit 1 (.steady late)),
    .act 1 (.acknowledge 1 (.panicked "down")), proceed 4]

/-- A sweep that has evicted one transaction breaks off at the next. Nothing is under way any
more, but one of the two transactions is neither in the table nor in the total of evictions. -/
theorem table_accounting_broken_sweep :
    ∃ turns m, Run .standard turns m ∧ (∀ e ∈ m.errands, e.isOver = true) ∧
      m.metrics.created = 2 ∧ m.metrics.tracked = 1 ∧ m.metrics.evicted = 0 ∧
      m.metrics.created ≠ m.metrics.tracked + m.metrics.evicted := by
  have hrun : Run .standard _ _ := Run.of_play brokenSweep rfl
  exact ⟨_, _, hrun, by decide, rfl, rfl, rfl, by decide⟩

end Manager

end LeasedCommit
