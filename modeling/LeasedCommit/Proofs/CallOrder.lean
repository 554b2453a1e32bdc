import LeasedCommit.Proofs.Accord
import LeasedCommit.Proofs.Voter

set_option autoImplicit false

/-! # The calls that a slot receives

Every slot is asked at most once, in the way that the number of slots demands, and is then told
to abort once, or told to commit until a call is not lost. -/

namespace LeasedCommit

/-- The question that was put is the one for the number of slots. -/
theorem Verb.Backed.eq_asking {r : Record} {v : Verb} (h : v.Backed r)
    (hv : v = .prepare ∨ v = .prepareAndCommit) : v = .asking r.registry.size := by
  unfold asking
  rcases hv with rfl | rfl
  · have h2 := h.2
    rw [if_neg (by omega)]
  · rw [if_pos h.2]

theorem Verb.asking_ne_abort (n : Nat) : asking n ≠ .abort := by
  unfold asking
  split <;> decide

/-- **The calls to one slot.** However the operations on a new record interleave and whatever the
participants answer, what passes at a slot is in the language `Protocol`: nothing, one abort, one
question, one question and one abort, or `prepare` and commit calls of which all but the last are
lost on the way. A commit or an abort is not sent before the question has come back. The question
is the one for the number of slots that the record has when its vote is opened, and goes out only
once the vote is open. -/
theorem calls_in_order {rules : Rules} {id : TransactionId} {request : LeaseRequest}
    {now : Timestamp} {turns : List Turn} {x : Transaction}
    (h : Run rules (Transaction.opened rules.lease id request now) turns x) (j : Nat) :
    Protocol (.asking x.record.registry.size) j (eventsAt j (history turns)) ∧
    (∀ t ∈ turns, t.opensVote = true →
      t.before.record.registry.size = x.record.registry.size) ∧
    (∀ t ∈ turns, .called j (.asking x.record.registry.size) ∈ t.events →
      ∃ o ∈ turns, o.opensVote = true) := by
  have h₀ := Transaction.sound_opened rules.lease id request now
  have haccords := h.accords h₀ (Transaction.accords_opened ..)
  have hvoted := h.voted h₀ (Transaction.voted_opened ..)
  refine ⟨?_, fun t ht ho => (hvoted.opener t ht ho).2.1, fun t ht hcall => ?_⟩
  · obtain ⟨ask, hask, hprotocol⟩ := protocol_of_standing (haccords.unbroken j)
    refine hprotocol.with_ask fun hcall => ?_
    exact (haccords.calls j ask (mem_of_mem_eventsAt hcall)).eq_asking hask
  · obtain ⟨o, ho, hopens, -⟩ := hvoted.calls t ht j _ hcall (Verb.asking_ne_abort _)
    exact ⟨o, ho, hopens⟩

/-- Both parties are asked to prepare and then told to commit once. -/
theorem calls_in_order_of_two :
    ∃ turns x,
      Run { lease := .standard, rollForward := .standard }
        (Transaction.opened .standard ⟨1⟩ .forever .epoch) turns x ∧
      Protocol .prepare 1 (eventsAt 1 (history turns)) ∧
      eventsAt 1 (history turns) =
        [.called 1 .prepare, .voted 1 (.returned (.answered .prepared)), .called 1 .commit,
          .told 1 .commit (.returned (.answered ()))] := by
  have hrun : Run { lease := .standard, rollForward := .standard }
      (Transaction.opened .standard ⟨1⟩ .forever .epoch) _ _ := Run.of_play twoPartyCommit rfl
  exact ⟨_, _, hrun, (calls_in_order hrun 1).1, rfl⟩

end LeasedCommit
