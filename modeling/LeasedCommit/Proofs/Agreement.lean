import LeasedCommit.Proofs.Service

set_option autoImplicit false

/-! # One outcome, and everybody agrees on it

The phase of a record goes forward to one decision, which then stands with all that belongs to it.
Every answer that tells of the decision tells of that one. -/

namespace LeasedCommit

/-! ## The record along a run -/

section Runs

variable {rules : Rules} {x y : Transaction} {turns : List Turn}

theorem Transaction.Sound.step_later {action : Action} {counts : OutcomeCounts} (hx : x.Sound)
    (h : x.step rules action = some (y, counts)) : x.record.Later y.record := by
  rcases Transaction.step_cases hx.shape hx.fits h with ⟨q, -, rfl⟩ | ⟨i, s, r', s', -, hm, hy⟩
  · exact .refl _
  · rw [hy.record]
    exact hx.later hm hy

/-- What a record was decided with stays as it is. -/
theorem Run.decided (hx : x.Sound) (h : Run rules x turns y)
    (hd : x.record.phase.isTerminal = true) :
    y.record.phase = x.record.phase ∧ y.record.abortCause = x.record.abortCause ∧
      y.record.settledAt = x.record.settledAt ∧ y.record.lease = x.record.lease ∧
      y.record.registry.size = x.record.registry.size := by
  induction h with
  | start => exact ⟨rfl, rfl, rfl, rfl, rfl⟩
  | next hrun hstep ih =>
      obtain ⟨hp, hcause, hsettled, hlease, hsize⟩ := ih
      have hl := (hrun.sound hx).step_later hstep
      have hd' := hd
      rw [← hp] at hd'
      obtain ⟨hcause', hsettled', hlease'⟩ := hl.decided hd'
      exact ⟨(hl.phase_eq hd').trans hp, hcause'.trans hcause, hsettled'.trans hsettled,
        hlease'.trans hlease, (hl.size (Phase.ne_active_of_isTerminal hd')).trans hsize⟩

/-- A report that is filed stays filed. -/
theorem Run.report_eq (hx : x.Sound) (h : Run rules x turns y) {report : CommitReport}
    (hreport : x.record.report = some report) : y.record.report = some report := by
  induction h with
  | start => exact hreport
  | next hrun hstep ih =>
      rcases ((hrun.sound hx).step_later hstep).report with h | ⟨h, -⟩
      · rw [h, ih]
      · rw [ih] at h
        cases h

end Runs

/-! ## Answers that tell of the decision -/

/-- The decision that an answer tells of. -/
def Answer.outcome? : Answer → Option Outcome
  | .committed _ | .refused (.notModifiable ..) | .refused (.cannotAbort ..) => some .committed
  | .done | .expired true | .refused (.cannotCommit ..) => some .aborted
  | .reached phase | .refused (.cannotJoin _ phase) => phase.outcome?
  | _ => none

theorem Phase.outcome?_eq_some {p : Phase} {o : Outcome} (h : p.outcome? = some o) :
    p.isTerminal = true ∧ p = o.phase := by
  cases p <;> cases h <;> exact ⟨rfl, rfl⟩

theorem Answer.TrueOf.phase_eq {r : Record} {a : Answer} {o : Outcome} (h : a.TrueOf r)
    (ho : a.outcome? = some o) : r.phase = o.phase := by
  cases a with
  | committed report =>
      cases ho
      exact h.1
  | done =>
      cases ho
      exact h
  | expired aborted =>
      cases aborted with
      | true =>
          cases ho
          exact h rfl
      | false => cases ho
  | reached phase =>
      obtain ⟨hterm, rfl⟩ := Phase.outcome?_eq_some ho
      exact h hterm
  | refused error =>
      cases error with
      | cannotJoin id phase =>
          obtain ⟨hterm, rfl⟩ := Phase.outcome?_eq_some ho
          exact h.2.2 hterm
      | cannotCommit id cause =>
          cases ho
          exact h.2.1
      | cannotAbort | notModifiable =>
          cases ho
          exact h.2.2
      | _ => cases ho
  | joined | renewed | timedOut => cases ho

/-- What a commit can answer, and what that says about the record. -/
theorem Request.Admits.commit_cases {r : Record} {a : Answer} (h : Request.Admits .commit a)
    (ha : a.TrueOf r) :
    (∃ report, a = .committed report ∧ r.phase = .committed ∧ r.report = some report) ∨
    (∃ cause, a = .refused (.cannotCommit r.id cause) ∧ r.phase = .aborted ∧
      r.abortCause = some cause) ∨
    (a = .refused (.notModifiable r.id .committed) ∧ r.phase = .committed) := by
  cases a with
  | committed report => exact .inl ⟨report, rfl, ha⟩
  | refused error =>
      cases error with
      | cannotCommit id cause =>
          obtain ⟨rfl, hp, hcause⟩ := ha
          exact .inr (.inl ⟨cause, rfl, hp, hcause⟩)
      | notModifiable id phase =>
          obtain ⟨rfl, rfl, hp⟩ := ha
          exact .inr (.inr ⟨rfl, hp⟩)
      | _ => exact h.elim
  | _ => exact h.elim

/-- What an abort can answer, and what that says about the record. -/
theorem Request.Admits.abort_cases {r : Record} {a : Answer} (h : Request.Admits .abort a)
    (ha : a.TrueOf r) :
    (a = .done ∧ r.phase = .aborted) ∨
    (a = .refused (.cannotAbort r.id .committed) ∧ r.phase = .committed) := by
  cases a with
  | done => exact .inl ⟨rfl, ha⟩
  | refused error =>
      cases error with
      | cannotAbort id outcome =>
          obtain ⟨rfl, rfl, hp⟩ := ha
          exact .inr ⟨rfl, hp⟩
      | _ => exact h.elim
  | _ => exact h.elim

/-! ## The main result -/

/-- **One outcome.** However the operations on a new record interleave and whatever the
participants answer:

* the phase moves only along the protocol;
* a decided record keeps its phase, cause, time of decision, lease and number of slots;
* a report that is filed stays filed;
* a commit returns the report of the record or the cause of its abort, or finds it committed;
* an abort is done just on an aborted record, and refused on a committed one;
* every answer that tells of the decision tells of that of the record, so no two differ. -/
theorem single_outcome {rules : Rules} {id : TransactionId} {request : LeaseRequest}
    {now : Timestamp} {turns : List Turn} {x : Transaction}
    (h : Run rules (Transaction.opened rules.lease id request now) turns x) :
    (∀ t ∈ turns, t.after.record.phase = t.before.record.phase ∨
      (t.before.record.phase, t.after.record.phase) ∈
        [(Phase.active, Phase.voting), (Phase.active, Phase.aborted),
          (Phase.voting, Phase.committed), (Phase.voting, Phase.aborted)]) ∧
    (∀ more y, Run rules x more y → x.record.phase.isTerminal = true →
      y.record.phase = x.record.phase ∧ y.record.abortCause = x.record.abortCause ∧
        y.record.settledAt = x.record.settledAt ∧ y.record.lease = x.record.lease ∧
        y.record.registry.size = x.record.registry.size) ∧
    (∀ more y report, Run rules x more y → x.record.report = some report →
      y.record.report = some report) ∧
    (∀ i a, (requests turns)[i]? = some .commit → x.stage? i = some (.finished a) →
      (∃ report, a = .committed report ∧ x.record.phase = .committed ∧
        x.record.report = some report) ∨
      (∃ cause, a = .refused (.cannotCommit x.record.id cause) ∧ x.record.phase = .aborted ∧
        x.record.abortCause = some cause) ∨
      (a = .refused (.notModifiable x.record.id .committed) ∧ x.record.phase = .committed)) ∧
    (∀ i a, (requests turns)[i]? = some .abort → x.stage? i = some (.finished a) →
      (a = .done ∧ x.record.phase = .aborted) ∨
      (a = .refused (.cannotAbort x.record.id .committed) ∧ x.record.phase = .committed)) ∧
    (∀ i a o, x.stage? i = some (.finished a) → a.outcome? = some o →
      x.record.phase = o.phase) ∧
    (∀ i i' a a' o o', x.stage? i = some (.finished a) → x.stage? i' = some (.finished a') →
      a.outcome? = some o → a'.outcome? = some o' → o = o') := by
  have h₀ := Transaction.sound_opened rules.lease id request now
  have hx := h.sound h₀
  have hserves := h.serves h₀ (Transaction.serves_opened ..)
  have htells : ∀ i a o, x.stage? i = some (.finished a) → a.outcome? = some o →
      x.record.phase = o.phase :=
    fun i a o hs ho => Answer.TrueOf.phase_eq (hx.fits i _ hs) ho
  refine ⟨fun t ht => ?_, fun more y hmore hd => hmore.decided hx hd,
    fun more y report hmore hreport => hmore.report_eq hx hreport,
    fun i a hq hs => (hserves.stages i _ _ hs hq).commit_cases (hx.fits i _ hs),
    fun i a hq hs => (hserves.stages i _ _ hs hq).abort_cases (hx.fits i _ hs), htells,
    fun i i' a a' o o' hs hs' ho ho' => ?_⟩
  · obtain ⟨hbefore, counts, hstep⟩ := h.turn h₀ t ht
    refine (hbefore.step_later hstep).phase.imp_right fun hmove => ?_
    cases hp : t.before.record.phase <;> cases hp' : t.after.record.phase <;>
      rw [hp, hp'] at hmove <;> first | decide | cases hmove
  · have hphases := (htells i a o hs ho).symm.trans (htells i' a' o' hs' ho')
    cases o <;> cases o' <;> first | rfl | cases hphases

/-- Two commits and a late abort of one transaction: the first commits, the second waits for it
and returns the same report, and the abort is refused. -/
theorem single_outcome_of_three :
    ∃ turns x,
      Run { lease := .standard, rollForward := .standard }
        (Transaction.opened .standard ⟨1⟩ .forever .epoch) turns x ∧
      requests turns = [.commit, .commit, .abort] ∧
      (∃ report, x.stage? 0 = some (.finished (.committed report)) ∧
        x.stage? 1 = some (.finished (.committed report)) ∧ x.record.report = some report) ∧
      x.stage? 2 = some (.finished (.refused (.cannotAbort x.record.id .committed))) ∧
      x.record.phase = .committed := by
  have hrun : Run { lease := .standard, rollForward := .standard }
      (Transaction.opened .standard ⟨1⟩ .forever .epoch) _ _ :=
    Run.of_play [.begin .commit, .visit 0 (.steady .epoch), .begin .commit,
      .visit 1 (.steady .epoch), .visit 0 (.steady .epoch), .visit 0 (.steady .epoch),
      .begin .abort, .visit 2 (.steady .epoch), .visit 0 (.steady .epoch),
      .visit 1 (.steady .epoch)] rfl
  obtain ⟨-, -, -, hcommit, -, htells, -⟩ := single_outcome hrun
  rcases hcommit 1 _ rfl rfl with ⟨report, ha, -, hreport⟩ | ⟨cause, ha, -⟩ | ⟨ha, -⟩
  · cases ha
    exact ⟨_, _, hrun, rfl, ⟨_, rfl, rfl, hreport⟩, rfl, htells 2 _ .committed rfl rfl⟩
  · cases ha
  · cases ha

end LeasedCommit
