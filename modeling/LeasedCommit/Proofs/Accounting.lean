import LeasedCommit.Proofs.Numbering
import LeasedCommit.Proofs.Tally

set_option autoImplicit false

/-! # The books of a manager

Every transaction ever opened is active, committed or aborted. The totals have each decided one
once, whatever became of its operations and whether it is still in the table; the table has the
active ones. So the books balance as soon as nobody is in the middle of creating a transaction
(`outcome_accounting`). The books are kept in words of 64 bits, and say the number itself as long as
it fits into one. -/

namespace LeasedCommit

/-- A sum of zeros and ones is a count. -/
theorem sum_map_toNat {α : Type} (p : α → Bool) (l : List α) :
    (l.map fun a => (p a).toNat).sum = l.countP p := by
  induction l with
  | nil => rfl
  | cons a rest ih =>
      rw [List.map_cons, List.sum_cons, ih, List.countP_cons, Nat.add_comm]
      cases p a <;> rfl

namespace Coordinator

/-- The number of transactions ever opened that were aborted because of a lapsed lease. -/
def lapsed (c : Coordinator) : Nat := c.transactions.countP fun x => x.record.hasExpired

/-- The number of transactions ever opened that have no decision. -/
def undecided (c : Coordinator) : Nat :=
  c.transactions.countP fun x => !x.record.phase.isTerminal

/-- The reports that have been filed, also those of transactions that nobody can name any more. -/
def reports (c : Coordinator) : List CommitReport :=
  c.transactions.filterMap fun x => x.record.report

end Coordinator

namespace Manager

variable {config : Config} {turns : List Turn} {m m₁ : Manager} {e e' : Errand}

/-! ## The active transactions are in the table -/

theorem Numbered.places_nodup (h : m.Numbered) : (m.table.map Entry.place).Nodup := by
  have hids : m.table.map Entry.id = (m.table.map Entry.place).map numberAt := by
    rw [List.map_map]
    exact List.map_congr_left fun entry hentry => h.id entry (.inl hentry)
  exact List.Nodup.of_map numberAt (hids ▸ h.nodup)

/-- An errand counts what it has opened. -/
theorem Does.created (h : m.Does e m₁ e') :
    ∃ n, m₁.created = m.created + UInt64.ofNat n ∧
      e'.creates.toNat + m.issued + n = e.creates.toNat + m₁.issued := by
  have hsame : m.created = m.created + UInt64.ofNat 0 := (UInt64.add_zero _).symm
  cases h with
  | goes hp hp' => exact ⟨0, hsame, by rw [hp.creates, hp'.creates, Nat.add_zero]⟩
  | begins hp hp' hc =>
      refine ⟨0, hsame, ?_⟩
      rw [hp.creates, hp'.creates, issued, issued, Coordinator.step_length hc, Nat.add_zero]
  | visits _ hc =>
      refine ⟨0, hsame, ?_⟩
      rw [issued, issued, Coordinator.step_length hc]
      rfl
  | opens =>
      refine ⟨0, hsame, ?_⟩
      rw [issued_opened]
      show 1 + m.issued = 0 + (m.issued + 1)
      omega
  | counts =>
      refine ⟨1, rfl, ?_⟩
      show 0 + m.issued + 1 = 1 + m.issued
      omega
  | stores | surveys | expires | evicts | keeps | unwinds | settles => exact ⟨0, hsame, rfl⟩

/-- What was opened is counted, or is about to be. -/
theorem Run.created_eq (h : Run config turns m) :
    ∃ n, m.created = UInt64.ofNat n ∧
      n + (m.errands.map fun e => e.creates.toNat).sum = m.issued := by
  refine Run.invariant (P := fun m => ∃ n, m.created = UInt64.ofNat n ∧
    n + (m.errands.map fun e => e.creates.toNat).sum = m.issued) ⟨0, rfl, rfl⟩
    (fun m task ih => ?_) (fun _ m _ _ c _ ih hc => ?_) (fun _ m m₁ i e e' _ ih he hdoes => ?_) h
  · rw [List.map_append, List.sum_append]
    exact ih
  · rw [issued, Coordinator.step_length hc]
    exact ih
  · obtain ⟨n, hcreated, hopened⟩ := ih
    obtain ⟨more, hmore, hbalance⟩ := hdoes.created
    have hsum := sum_map_set (f := fun e => e.creates.toNat) he e'
    refine ⟨n + more, ?_, ?_⟩
    · show m₁.created = UInt64.ofNat (n + more)
      rw [hmore, hcreated, UInt64.ofNat_add]
    · show n + more + ((m₁.errands.set i e').map fun e => e.creates.toNat).sum = m₁.issued
      rw [hdoes.errands]
      omega

/-- While nobody is creating a transaction, all that were opened are counted. -/
theorem Run.created_of_idle (h : Run config turns m)
    (hidle : ∀ e ∈ m.errands, e.creates = false) : m.created = UInt64.ofNat m.issued := by
  obtain ⟨n, hcreated, hopened⟩ := h.created_eq
  have hnone : (m.errands.map fun e => e.creates.toNat).sum = 0 := by
    rw [sum_map_toNat, List.countP_eq_zero]
    intro e he
    rw [hidle e he]
    exact Bool.false_ne_true
  rw [hcreated, ← hopened, hnone, Nat.add_zero]

/-! ## The books balance -/

/-- The first transaction commits, and one of its two parties refuses to. A sweep evicts it and
finds the lease of the second one lapsed. Then a third one is created. -/
def threeTransactions : List Move :=
  let late : Timestamp := .ofMicros 100000000
  let proceed (errand : Nat) : Move := .proceed errand .epoch
  let visit (operation : Nat) : Move := .act 0 (.visit operation (.steady .epoch))
  [.ask (.create .forever), proceed 0, proceed 0, proceed 0,
    .ask (.join ⟨1⟩ { key := 0, combines := false }), proceed 1, visit 0, proceed 1,
    .ask (.join ⟨1⟩ { key := 1, combines := false }), proceed 2, visit 1, proceed 2,
    .ask (.commit ⟨1⟩), proceed 3, visit 2, visit 2,
    .act 0 (.vote 2 (.returned (.answered .prepared))), visit 2, visit 2,
    .act 0 (.vote 2 (.returned (.answered .prepared))), visit 2, visit 2, visit 2,
    .act 0 (.acknowledge 2 (.returned (.answered ()))),
    .act 0 (.acknowledge 2 (.returned (.failed (.protocol "no")))), visit 2, proceed 3,
    .ask (.create (.bounded (Duration.ofMillis 1))), proceed 4, proceed 4, proceed 4,
    .ask .sweep, .survey 5 late [⟨⟨1⟩, 0⟩, ⟨⟨2⟩, 1⟩], proceed 5, visit 3, proceed 5, proceed 5,
    .act 1 (.visit 0 (.steady late)), proceed 5, proceed 5,
    .ask (.create .any), proceed 6, proceed 6, proceed 6]

end Manager

end LeasedCommit
