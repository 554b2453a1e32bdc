import LeasedCommit.Proofs.Accord

set_option autoImplicit false

/-! # Atomic commitment

A transaction commits only when every slot has voted for it, and nobody is told to commit in a
transaction in which somebody is told to abort. -/

namespace LeasedCommit

/-- A record commits only after the vote of every slot for it. -/
theorem Run.becomes_committed {rules : Rules} {x₀ x y : Transaction} {turns : List Turn}
    {action : Action} {counts : OutcomeCounts} (h₀ : x₀.Sound) (hstart : x₀.Accords [])
    (h : Run rules x₀ turns x) (hstep : x.step rules action = some (y, counts))
    (hx : x.record.phase ≠ .committed) (hy : y.record.phase = .committed) :
    ∀ j < y.record.registry.size, .yes y.record.registry.size j ∈ history turns := by
  have hsound := h.sound h₀
  have haccords := h.accords h₀ hstart
  rcases Transaction.step_cases hsound.shape hsound.fits hstep with
    ⟨q, -, rfl⟩ | ⟨i, s, r', s', -, hm, hmoved⟩
  · exact absurd hy hx
  · rw [hmoved.record] at hy ⊢
    exact haccords.decided hsound hm hmoved hx hy

/-- **Atomic commitment.** However the operations on a new record interleave and whatever the
participants answer:

* the record commits only after every slot has voted for it;
* a commit call goes out only when the record is committed, and an abort call only when it is
  aborted;
* so no run has commit calls and abort calls. -/
theorem atomic_commitment {rules : Rules} {id : TransactionId} {request : LeaseRequest}
    {now : Timestamp} {turns : List Turn} {x : Transaction}
    (h : Run rules (Transaction.opened rules.lease id request now) turns x) :
    (x.record.phase = .committed →
      ∀ j < x.record.registry.size, .yes x.record.registry.size j ∈ history turns) ∧
    (∀ action y counts, x.step rules action = some (y, counts) → x.record.phase ≠ .committed →
      y.record.phase = .committed →
        ∀ j < y.record.registry.size, .yes y.record.registry.size j ∈ history turns) ∧
    (∀ t ∈ turns, ∀ j,
      (.called j .commit ∈ t.events → t.after.record.phase = .committed) ∧
      (.called j .abort ∈ t.events → t.after.record.phase = .aborted)) ∧
    ¬ ((∃ j, .called j .commit ∈ history turns) ∧ ∃ j, .called j .abort ∈ history turns) := by
  have h₀ := Transaction.sound_opened rules.lease id request now
  have hstart := Transaction.accords_opened rules.lease id request now
  have haccords := h.accords h₀ hstart
  refine ⟨haccords.votes, fun action y counts hstep => h.becomes_committed h₀ hstart hstep,
    fun t ht j => ⟨h.calls_backed h₀ ht, h.calls_backed h₀ ht⟩, ?_⟩
  rintro ⟨⟨j, hcommit⟩, ⟨k, habort⟩⟩
  have hcommitted : x.record.phase = .committed := haccords.calls j .commit hcommit
  have haborted : x.record.phase = .aborted := haccords.calls k .abort habort
  rw [hcommitted] at haborted
  cases haborted

/-- Two parties join, vote for the commit, and are told to commit. -/
theorem atomic_commitment_of_two :
    ∃ turns x,
      Run { lease := .standard, rollForward := .standard }
        (Transaction.opened .standard ⟨1⟩ .forever .epoch) turns x ∧
      x.record.phase = .committed ∧ .yes 2 0 ∈ history turns ∧ .yes 2 1 ∈ history turns := by
  have hrun : Run { lease := .standard, rollForward := .standard }
      (Transaction.opened .standard ⟨1⟩ .forever .epoch) _ _ := Run.of_play twoPartyCommit rfl
  have h := (atomic_commitment hrun).1 rfl
  exact ⟨_, _, hrun, rfl, h 0 (by decide), h 1 (by decide)⟩

end LeasedCommit
