import LeasedCommit.Proofs.Advance

set_option autoImplicit false

/-! # What a visit does to the decision and the report

Of all that a visit can change, those who wait and the totals are concerned with the phase, the
cause of an abort and the report alone. `Record.Effect` lists what can become of these, together
with what is counted and whether the visit wakes everybody, and `Stage.visit?_effect` shows that
there is nothing else. -/

namespace LeasedCommit

/-- What a visit can do: the record before it and after it, what it counts, and whether it wakes
everybody who waits. -/
inductive Record.Effect (r : Record) : Record → OutcomeCounts → Bool → Prop
  | quiet {r' : Record} : r'.phase = r.phase → r'.abortCause = r.abortCause →
    r'.report = r.report → Effect r r' .zero false
  | opens {r' : Record} : r.phase = .active → r'.phase = .voting → r'.report = r.report →
    Effect r r' .zero true
  | aborts {r' : Record} {cause : AbortCause} : r.phase.isTerminal = false →
    r'.phase = .aborted → r'.abortCause = some cause → r'.report = r.report →
    Effect r r' (.abort cause) true
  | commits {r' : Record} : r.phase = .voting → r'.phase = .committed → r'.report = r.report →
    Effect r r' .commit true
  | reports {r' : Record} {report : CommitReport} : r.report = none → r'.phase = r.phase →
    r'.abortCause = r.abortCause → r'.report = some report →
    Effect r r' (.undelivered report.failures.length) true

namespace Record

variable {r : Record} {t : Readings}

/-- The effect is the same on a record that differs in its lease or its slots. -/
theorem Effect.congr {r₀ r' : Record} {counts : OutcomeCounts} {wakes : Bool}
    (h : r₀.Effect r' counts wakes) (hp : r₀.phase = r.phase)
    (hcause : r₀.abortCause = r.abortCause) (hreport : r₀.report = r.report) :
    r.Effect r' counts wakes := by
  cases h with
  | quiet hp' hcause' hreport' =>
      exact .quiet (hp'.trans hp) (hcause'.trans hcause) (hreport'.trans hreport)
  | opens ha hp' hreport' => exact .opens (hp ▸ ha) hp' (hreport'.trans hreport)
  | aborts hu hp' hcause' hreport' =>
      exact .aborts (hp ▸ hu) hp' hcause' (hreport'.trans hreport)
  | commits hv hp' hreport' => exact .commits (hp ▸ hv) hp' (hreport'.trans hreport)
  | reports hnone hp' hcause' hreport' =>
      exact .reports (hreport ▸ hnone) (hp'.trans hp) (hcause'.trans hcause) hreport'

theorem leave_effect (next : Stage) :
    r.Effect (r.leave next).record (r.leave next).counts (r.leave next).wakes :=
  .quiet rfl rfl rfl

theorem abortFor_effect (cause : AbortCause) (now : Timestamp) :
    r.Effect (r.abortFor cause now).record (r.abortFor cause now).counts
      (r.abortFor cause now).wakes := by
  cases hu : r.phase.isTerminal with
  | false =>
      rw [abortFor_eq hu r.lease]
      exact .aborts hu rfl rfl rfl
  | true =>
      -- a decision stands
      have hmove : r.move? .aborted now = none := by
        cases hp : r.phase <;> simp_all [move?, Phase.isTerminal, Phase.canBecome]
      rw [abortFor, hmove]
      exact .quiet rfl rfl rfl

theorem expire?_effect {a : Abort} (h : r.expire? t = some a) :
    r.Effect a.record a.counts a.wakes := by
  obtain ⟨hu, -, rfl⟩ := expire?_eq_some h
  exact .aborts hu rfl rfl rfl

theorem decideAbort_effect (cause : AbortCause) (now : Timestamp) :
    r.Effect (r.decideAbort cause now).record (r.decideAbort cause now).counts
      (r.decideAbort cause now).wakes := by
  by_cases hp : r.phase = .voting
  · rw [decideAbort_voting hp r.lease]
    exact .aborts (by rw [hp]; rfl) rfl rfl rfl
  · rw [decideAbort, if_neg hp]
    exact .quiet rfl rfl rfl

theorem decideCommit_effect :
    r.Effect (r.decideCommit t).record (r.decideCommit t).counts (r.decideCommit t).wakes := by
  by_cases hp : r.phase = .voting
  · cases hl : r.lease.hasLapsed t.first with
    | true =>
        rw [decideCommit_lapsed hp hl]
        exact .aborts (by rw [hp]; rfl) rfl rfl rfl
    | false =>
        rw [decideCommit_valid hp hl]
        exact .commits hp rfl rfl
  · rw [decideCommit, if_neg hp]
    exact .quiet rfl rfl rfl

theorem join_effect (p : Participant) :
    r.Effect (r.join p t).record (r.join p t).counts (r.join p t).wakes := by
  unfold join
  split
  · rename_i a ha
    exact expire?_effect ha
  · split
    · exact leave_effect _
    · split
      · exact .quiet rfl rfl rfl
      · exact leave_effect _

theorem openVote_effect :
    r.Effect (r.openVote t).record (r.openVote t).counts (r.openVote t).wakes := by
  unfold openVote
  split
  · rename_i a ha
    exact expire?_effect ha
  · split
    · rename_i hp
      have hm : r.moved .voting t.second = { r with phase := .voting } := by
        simp [moved, move?, hp, Phase.canBecome, Phase.isTerminal]
      simp only [hm]
      exact .opens hp rfl rfl
    all_goals exact leave_effect _

theorem abort_effect : r.Effect (r.abort t).record (r.abort t).counts (r.abort t).wakes := by
  unfold abort
  split
  · exact leave_effect _
  · exact leave_effect _
  all_goals
    split
    · exact (abortFor_effect (r := { r with lease := r.lease.markExpired }) _ _).congr rfl rfl rfl
    · exact abortFor_effect _ _

theorem renew_effect (policy : LeasePolicy) (request : LeaseRequest) :
    r.Effect (r.renew policy request t).record (r.renew policy request t).counts
      (r.renew policy request t).wakes := by
  unfold renew
  split
  · rename_i a ha
    exact expire?_effect ha
  · split
    · exact leave_effect _
    · split <;> exact .quiet rfl rfl rfl

theorem cancel_effect : r.Effect (r.cancel t).record (r.cancel t).counts (r.cancel t).wakes := by
  unfold cancel
  split
  · rename_i a ha
    exact expire?_effect ha
  · split
    · exact leave_effect _
    · split
      · rename_i lease _
        exact (abortFor_effect (r := { r with lease := lease }) _ _).congr rfl rfl rfl
      · exact .quiet rfl rfl rfl

theorem expire_effect : r.Effect (r.expire t).record (r.expire t).counts (r.expire t).wakes := by
  unfold expire
  split
  · rename_i a ha
    exact expire?_effect ha
  · exact leave_effect _

theorem askSlot_effect (k n : Nat) :
    r.Effect (r.askSlot k n).record (r.askSlot k n).counts (r.askSlot k n).wakes := by
  unfold askSlot
  split
  · exact leave_effect _
  · split
    · exact .quiet rfl rfl rfl
    · exact leave_effect _

theorem askSole_effect :
    r.Effect (r.askSole t).record (r.askSole t).counts (r.askSole t).wakes := by
  unfold askSole
  split
  · exact leave_effect _
  · split
    · exact .quiet rfl rfl rfl
    · exact decideAbort_effect _ _

/-- A slot is resolved first, and then the record is aborted. -/
theorem resolved_effect (k : Nat) (p : Progress) (cause : AbortCause) (now : Timestamp) :
    r.Effect ((r.resolved k p).decideAbort cause now).record
      ((r.resolved k p).decideAbort cause now).counts
      ((r.resolved k p).decideAbort cause now).wakes :=
  (decideAbort_effect (r := r.resolved k p) cause now).congr rfl rfl rfl

theorem countVote_effect (k n : Nat) (vote : Response Vote) :
    r.Effect (r.countVote k n vote t).record (r.countVote k n vote t).counts
      (r.countVote k n vote t).wakes := by
  unfold countVote
  split
  · exact .quiet rfl rfl rfl
  · exact resolved_effect _ _ _ _
  · exact resolved_effect _ _ _ _

/-- The slots have no part in the effect. -/
theorem Effect.resolved {r' : Record} {counts : OutcomeCounts} {wakes : Bool}
    (h : r.Effect r' counts wakes) (k : Nat) (p : Progress) :
    r.Effect (r'.resolved k p) counts wakes := by
  cases h with
  | quiet hp hcause hreport => exact .quiet hp hcause hreport
  | opens ha hp hreport => exact .opens ha hp hreport
  | aborts hu hp hcause hreport => exact .aborts hu hp hcause hreport
  | commits hv hp hreport => exact .commits hv hp hreport
  | reports hnone hp hcause hreport => exact .reports hnone hp hcause hreport

theorem countSole_effect (vote : Response CombinedVote) :
    r.Effect (r.countSole vote t).record (r.countSole vote t).counts
      (r.countSole vote t).wakes := by
  unfold countSole
  split
  · exact decideCommit_effect.resolved _ _
  · exact resolved_effect _ _ _ _
  · exact resolved_effect _ _ _ _

theorem settleInterrupted_effect (message : String) :
    r.Effect (r.settleInterrupted message t).record (r.settleInterrupted message t).counts
      (r.settleInterrupted message t).wakes := by
  cases hp : r.phase with
  | voting =>
      rw [settleInterrupted_voting hp]
      exact .aborts (by rw [hp]; rfl) rfl rfl rfl
  | committed =>
      cases hreport : r.report with
      | none =>
          rw [settleInterrupted_committed hp hreport]
          exact .reports hreport rfl rfl rfl
      | some report =>
          simp only [settleInterrupted, hp, hreport]
          exact leave_effect _
  | active | aborted =>
      simp only [settleInterrupted, hp]
      exact leave_effect _

end Record

/-- **All that a visit can do** to the decision and the report. -/
theorem Stage.visit?_effect {policy : LeasePolicy} {r : Record} {t : Readings} {s : Stage}
    {v : Visit} (hs : s.Fits r) (h : s.visit? policy r t = some v) :
    r.Effect v.record v.counts v.wakes := by
  cases s with
  | requested q =>
      cases q <;> cases h
      · exact Record.join_effect _
      · exact Record.openVote_effect
      · exact Record.abort_effect
      · exact Record.renew_effect _ _
      · exact Record.cancel_effect
      · exact Record.expire_effect
      · exact Record.leave_effect _
  -- whoever looks changes nothing
  | awaiting w => cases h; exact Record.leave_effect _
  | asking k n => cases h; exact Record.askSlot_effect k n
  | voteHeard k n vote => cases h; exact Record.countVote_effect k n vote
  | askingSole => cases h; exact Record.askSole_effect
  | soleHeard vote => cases h; exact Record.countSole_effect vote
  | deciding => cases h; exact Record.decideCommit_effect
  -- claims change the slots alone
  | rollingForward => cases h; exact .quiet rfl rfl rfl
  | reporting report =>
      cases h
      obtain ⟨-, hreport, -, -⟩ := hs
      exact .reports hreport rfl rfl rfl
  | abandoning => cases h; exact .quiet rfl rfl rfl
  | unwinding m => cases h; exact Record.settleInterrupted_effect m
  | votePending | solePending | commitPending | pausing | abortPending | finished | panicked =>
      cases h

end LeasedCommit
