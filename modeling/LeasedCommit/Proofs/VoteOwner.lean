import LeasedCommit.Proofs.Voter
import LeasedCommit.Proofs.Waiters

set_option autoImplicit false

/-! # One operation owns the vote, and nobody waits for ever

The commit that opens the vote is responsible for it to the end, also when a participant panics
in one of its calls; and whoever waits is woken by every change that can end the wait. -/

namespace LeasedCommit

/-- When the operation that has opened the vote is over, the record is decided, and the report of
a commit is there. -/
theorem Transaction.Voted.settled {x : Transaction} {turns : List Turn} (h : x.Voted turns)
    (hx : x.Sound) {t : Turn} (ht : t ∈ turns) (ho : t.opensVote = true) {i : Nat} {s : Stage}
    (hi : t.action.operation? = some i) (hs : x.stage? i = some s) (hover : s.isOver = true) :
    x.record.phase.isTerminal = true ∧
      (x.record.phase = .committed → x.record.report.isSome = true) := by
  have hfinished : ¬ x.record.Unfinished := by
    -- an unfinished record is led, by the operation that has opened the vote; but that is over
    intro hunfinished
    obtain ⟨i', s', hs', hlead⟩ := hx.led hunfinished
    obtain ⟨o, hmem, hopens, hi'⟩ := h.leader i' s' hs' hlead
    obtain rfl := h.unique ht hmem ho hopens
    obtain rfl := Option.some.inj (hi.symm.trans hi')
    obtain rfl := Option.some.inj (hs.symm.trans hs')
    rw [Stage.isOver_of_leads hlead] at hover
    cases hover
  rw [Record.Unfinished, not_or, not_and] at hfinished
  refine ⟨?_, fun hp => Option.isSome_iff_ne_none.mpr (hfinished.2 hp)⟩
  have hactive := (h.opener t ht ho).1
  cases hp : x.record.phase with
  | active => exact absurd hp hactive
  | voting => exact absurd hp hfinished.1
  | committed | aborted => rfl

/-- **One vote, one owner, and no lost waiter.** However the operations on a new record interleave
and whatever the participants answer, also when they panic:

* the vote is opened once at most, by a commit;
* all calls that are not aborts are made by that operation;
* while the vote is open that operation is not over;
* once it is over the record is decided, and the report is there if it is committed;
* whoever sleeps waits for something that has not come about;
* every change of the phase or of the report leaves nobody asleep. -/
theorem one_vote_owner {rules : Rules} {id : TransactionId} {request : LeaseRequest}
    {now : Timestamp} {turns : List Turn} {x : Transaction}
    (h : Run rules (Transaction.opened rules.lease id request now) turns x) :
    (turns.filter Turn.opensVote).length ≤ 1 ∧
    (∀ t ∈ turns, t.opensVote = true →
      ∃ i, t.action.operation? = some i ∧ t.before.stage? i = some (.requested .commit)) ∧
    (∀ t ∈ turns, ∀ j v, .called j v ∈ t.events → v ≠ .abort →
      ∃ o ∈ turns, o.opensVote = true ∧ o.action.operation? = t.action.operation?) ∧
    (x.record.phase = .voting → ∃ o ∈ turns, o.opensVote = true ∧
      ∃ i s, o.action.operation? = some i ∧ x.stage? i = some s ∧ s.isOver = false) ∧
    (∀ o ∈ turns, o.opensVote = true → ∀ i s, o.action.operation? = some i →
      x.stage? i = some s → s.isOver = true →
        x.record.phase.isTerminal = true ∧
          (x.record.phase = .committed → x.record.report.isSome = true)) ∧
    (∀ i ∈ x.asleep, ∃ w, x.stage? i = some (.awaiting w) ∧ w.isOver x.record = false) ∧
    (∀ t ∈ turns, t.after.record.phase ≠ t.before.record.phase ∨
      t.after.record.report ≠ t.before.record.report → t.after.asleep = []) := by
  have h₀ := Transaction.sound_opened rules.lease id request now
  have hx := h.sound h₀
  have hvoted := h.voted h₀ (Transaction.voted_opened ..)
  refine ⟨hvoted.once, fun t ht ho => ?_, hvoted.calls, fun hp => ?_,
    fun o hmem ho i s hi hs hover => hvoted.settled hx hmem ho hi hs hover,
    h.rested h₀ (Transaction.rested_opened _ _ _ _), fun t ht hchange => ?_⟩
  · obtain ⟨-, -, i, -, hi, hrequest, -⟩ := hvoted.opener t ht ho
    exact ⟨i, hi, hrequest⟩
  · obtain ⟨i, s, hs, hlead⟩ := hx.led (.inl hp)
    obtain ⟨o, hmem, ho, hi⟩ := hvoted.leader i s hs hlead
    exact ⟨o, hmem, ho, i, s, hi, hs, Stage.isOver_of_leads hlead⟩
  · obtain ⟨hbefore, counts, hstep⟩ := h.turn h₀ t ht
    exact hbefore.step_wakes hstep hchange

/-- The only party panics while another commit sleeps; the panic leaves the record aborted and
nobody asleep. -/
theorem one_vote_owner_panicked :
    ∃ turns x,
      Run { lease := .standard, rollForward := .standard }
        (Transaction.opened .standard ⟨1⟩ .forever .epoch) turns x ∧
      x.stage? 1 = some (.panicked "gone") ∧ x.record.phase.isTerminal = true ∧
      x.stage? 2 = some (.awaiting .decision) ∧ x.asleep = [] := by
  have hrun : Run { lease := .standard, rollForward := .standard }
      (Transaction.opened .standard ⟨1⟩ .forever .epoch) _ _ :=
    Run.of_play [.begin (.join { key := 0, combines := true }), .visit 0 (.steady .epoch),
      .begin .commit, .visit 1 (.steady .epoch), .visit 1 (.steady .epoch), .begin .commit,
      .visit 2 (.steady .epoch), .combinedVote 1 (.panicked "gone"), .visit 1 (.steady .epoch)] rfl
  obtain ⟨-, -, -, -, hover, -, hwakes⟩ := one_vote_owner hrun
  refine ⟨_, _, hrun, rfl, ?_, rfl, ?_⟩
  · exact (hover _ (List.mem_of_getElem? (i := 3) rfl) rfl 1 _ rfl rfl rfl).1
  · exact hwakes _ (List.mem_of_getElem? (i := 8) rfl) (.inl (by decide))

end LeasedCommit
