import LeasedCommit.Proofs.Later

set_option autoImplicit false

/-! # A move keeps the record in shape and the operations fit

For one move of one operation the file proves what becomes of the record (`Advance.shape`), of the
operation that moves (`Advance.fits`), and of the others: those that do not lead rely only on what
lasts (`Stage.Fits.later`), and the one that leads is not disturbed by those that do not
(`Stage.Fits.beside`). -/

namespace LeasedCommit

/-! ## The vote goes from slot to slot -/

namespace Registry.PolledTo

variable {g : Registry} {k : Nat}

theorem of_all_joined (h : ∀ i p, g.progress? i = some p → p = .joined) : g.PolledTo 0 .joined := by
  intro i p hp
  rw [h i p hp]
  simp

theorem ask (h : g.PolledTo k .joined) : (g.setProgress k .preparing).PolledTo k .preparing := by
  intro i p hp
  rw [progress?_setProgress] at hp
  split at hp
  · rename_i hk
    obtain ⟨-, -, rfl⟩ := Option.map_eq_some_iff.mp hp
    simp [hk]
  · rename_i hk
    rw [h i p hp, if_neg (Ne.symm hk), if_neg (Ne.symm hk)]

theorem prepared (h : g.PolledTo k .preparing) :
    (g.setProgress k .prepared).PolledTo (k + 1) .joined := by
  intro i p hp
  rw [progress?_setProgress] at hp
  split at hp
  · rename_i hk
    obtain ⟨-, -, rfl⟩ := Option.map_eq_some_iff.mp hp
    rw [if_pos (by omega)]
  · rename_i hk
    rw [h i p hp, if_neg (Ne.symm hk)]
    by_cases hlt : i < k
    · rw [if_pos hlt, if_pos (by omega)]
    · rw [if_neg hlt, if_neg (by omega)]
      simp

/-- At the end of the vote everybody is prepared. -/
theorem all_prepared (h : g.PolledTo g.size .joined) {i : Nat} {p : Progress}
    (hp : g.progress? i = some p) : p = .prepared := by
  rw [h i p hp, if_pos (lt_size_of_progress? hp)]

/-- While the vote goes on, nobody is settled and one slot at most has been asked. -/
theorem progress_cases {here : Progress} (h : g.PolledTo k here) {i : Nat} {p : Progress}
    (hp : g.progress? i = some p) : p = .prepared ∨ p = .joined ∨ (i = k ∧ p = here) := by
  have := h i p hp
  split at this
  · exact .inl this
  · split at this
    · rename_i hk
      exact .inr (.inr ⟨hk, this⟩)
    · exact .inr (.inl this)

end Registry.PolledTo

/-- While the vote is open, the slots are as the poll says. -/
theorem Record.Polls.polledTo {r : Record} {k : Nat} {here : Progress} (h : r.Polls k here)
    (hp : r.phase = .voting) : r.registry.PolledTo k here := by
  rcases h with ha | ⟨-, hpoll⟩
  · rw [hp] at ha
    cases ha
  · exact hpoll

/-! ## The shape of the record -/

namespace Record.Shape

variable {r : Record}

/-- The shape of a new record. -/
theorem create (id : TransactionId) (lease : Lease) (now : Timestamp) :
    (Record.create id lease now).Shape where
  cause := by simp [Record.create]
  settledAt := by simp [Record.create, Phase.isTerminal]
  report := by simp [Record.create]
  frozen := by simp [Record.create, Registry.empty]
  active := by simp [Record.create]
  voting := by simp [Record.create]
  committed := by simp [Record.create]
  aborted := by simp [Record.create]

/-- A change of the slots alone, once joining has stopped. -/
theorem withRegistry (h : r.Shape) {g : Registry} (hn : r.phase ≠ .active)
    (hf : g.frozen = r.registry.frozen) (hsize : g.size = r.registry.size)
    (hv : r.phase = .voting → ∃ k here, (here = .joined ∨ here = .preparing) ∧ g.PolledTo k here)
    (hc : r.phase = .committed → ∀ i p, g.progress? i = some p → p = .prepared ∨
      p = .settled .commit ∨ (p = .settled .committedInPrepare ∧ r.registry.size = 1))
    (ha : r.phase = .aborted → g.Uncommitted) : (r.withRegistry g).Shape where
  cause := h.cause
  settledAt := h.settledAt
  report report hr := by
    obtain ⟨h₁, h₂, h₃⟩ := h.report report hr
    exact ⟨h₁, h₂, h₃.trans hsize.symm⟩
  frozen := by rw [withRegistry_registry, hf]; exact h.frozen
  active hp := absurd hp hn
  voting := hv
  committed hp i p hi := by rw [withRegistry_registry, hsize]; exact hc hp i p hi
  aborted := ha

theorem withRegistry_voting (h : r.Shape) (hp : r.phase = .voting) {g : Registry}
    (hf : g.frozen = r.registry.frozen) (hsize : g.size = r.registry.size) {k : Nat}
    {here : Progress} (hhere : here = .joined ∨ here = .preparing) (hpoll : g.PolledTo k here) :
    (r.withRegistry g).Shape := by
  refine h.withRegistry (by rw [hp]; decide) hf hsize (fun _ => ⟨k, here, hhere, hpoll⟩) ?_ ?_
  all_goals
    intro hp'
    rw [hp] at hp'
    cases hp'

theorem withRegistry_committed (h : r.Shape) (hp : r.phase = .committed) {g : Registry}
    (hf : g.frozen = r.registry.frozen) (hsize : g.size = r.registry.size)
    (hc : ∀ i p, g.progress? i = some p → p = .prepared ∨ p = .settled .commit ∨
      (p = .settled .committedInPrepare ∧ r.registry.size = 1)) : (r.withRegistry g).Shape := by
  refine h.withRegistry (by rw [hp]; decide) hf hsize ?_ (fun _ => hc) ?_
  all_goals
    intro hp'
    rw [hp] at hp'
    cases hp'

theorem withRegistry_aborted (h : r.Shape) (hp : r.phase = .aborted) {g : Registry}
    (hf : g.frozen = r.registry.frozen) (hsize : g.size = r.registry.size)
    (ha : g.Uncommitted) : (r.withRegistry g).Shape := by
  refine h.withRegistry (by rw [hp]; decide) hf hsize ?_ ?_ (fun _ => ha)
  all_goals
    intro hp'
    rw [hp] at hp'
    cases hp'

/-- No undecided record has a report. -/
theorem report_eq_none (h : r.Shape) (hp : r.phase ≠ .committed) : r.report = none := by
  cases hr : r.report with
  | none => rfl
  | some report => exact absurd (h.report report hr).1 hp

/-- Before a decision nobody is settled, and one slot at most has been asked. -/
theorem undecided (h : r.Shape) (hu : r.phase.isTerminal = false) :
    ∃ k, ∀ i p, r.registry.progress? i = some p →
      p = .prepared ∨ p = .joined ∨ (i = k ∧ p = .preparing) := by
  cases hp : r.phase with
  | active => exact ⟨0, fun i p hi => .inr (.inl (h.active hp i p hi))⟩
  | voting =>
      obtain ⟨k, here, hhere, hpoll⟩ := h.voting hp
      refine ⟨k, fun i p hi => ?_⟩
      rcases hpoll.progress_cases hi with h' | h' | ⟨hk, rfl⟩
      · exact .inl h'
      · exact .inr (.inl h')
      · rcases hhere with rfl | rfl
        · exact .inr (.inl rfl)
        · exact .inr (.inr ⟨hk, rfl⟩)
  | committed | aborted => rw [hp] at hu; exact absurd hu (by decide)

/-- The shape of a record that is aborted. -/
theorem abort (h : r.Shape) (hu : r.phase.isTerminal = false) {lease : Lease} {cause : AbortCause}
    {now : Timestamp} {g : Registry} (hf : g.frozen = true)
    (ha : g.Uncommitted) : ((r.aborted lease cause now).withRegistry g).Shape where
  cause := by simp
  settledAt := by simp [Phase.isTerminal]
  report report hr := by
    have hnone := h.report_eq_none (by intro hp; rw [hp] at hu; exact absurd hu (by decide))
    rw [withRegistry_report, aborted_report, hnone] at hr
    exact absurd hr (by simp)
  frozen := by simp [hf]
  active hp := absurd hp (by simp)
  voting hp := absurd hp (by simp)
  committed hp := absurd hp (by simp)
  aborted _ := ha

/-- The shape of a record that commits. -/
theorem commit (h : r.Shape) (hp : r.phase = .voting) {now : Timestamp} {g : Registry}
    (hf : g.frozen = true)
    (hc : ∀ i p, g.progress? i = some p →
      p = .prepared ∨ (p = .settled .committedInPrepare ∧ g.size = 1)) :
    ((r.committed now).withRegistry g).Shape where
  cause := by
    have := h.cause
    rw [hp] at this
    simpa using this
  settledAt := by simp [Phase.isTerminal]
  report report hr := by
    have hnone := h.report_eq_none (by rw [hp]; decide)
    rw [withRegistry_report, committed_report, hnone] at hr
    exact absurd hr (by simp)
  frozen := by simp [hf]
  active hp := absurd hp (by simp)
  voting hp := absurd hp (by simp)
  committed _ i p hi := by
    rcases hc i p hi with h | h
    · exact .inl h
    · exact .inr (.inr h)
  aborted hp := absurd hp (by simp)

/-- The shape of a record that gets its report. -/
theorem fileReport (h : r.Shape) (hp : r.phase = .committed) {report : CommitReport}
    (hid : report.id = r.id) (hn : report.participants = r.registry.size) :
    { r with report := some report }.Shape where
  cause := h.cause
  settledAt := h.settledAt
  report _ hr := by
    cases hr
    exact ⟨hp, hid, hn⟩
  frozen := h.frozen
  active := h.active
  voting := h.voting
  committed := h.committed
  aborted := h.aborted

end Record.Shape

namespace Registry.Uncommitted

variable {g : Registry}

/-- Slot `k` is dealt with in another way than by a commit. -/
theorem setProgress {k : Nat} {p : Progress} (h : g.Uncommitted)
    (hk : g.progress? k = some .preparing) (hp : p ≠ .settled .commit)
    (hp' : p ≠ .settled .committedInPrepare) : (g.setProgress k p).Uncommitted := by
  obtain ⟨k', h⟩ := h
  refine ⟨k', fun i q hi => ?_⟩
  rw [progress?_setProgress] at hi
  split at hi
  · rename_i hik
    obtain ⟨-, -, rfl⟩ := Option.map_eq_some_iff.mp hi
    exact ⟨hp, hp', fun _ => hik ▸ (h k _ hk).2.2 rfl⟩
  · exact h i q hi

theorem claimAll (h : g.Uncommitted) : (g.claimAll .abort).1.Uncommitted := by
  obtain ⟨k, h⟩ := h
  refine ⟨k, fun i q hi => ?_⟩
  rw [progress?_claimAll] at hi
  obtain ⟨p, hp, rfl⟩ := Option.map_eq_some_iff.mp hi
  obtain ⟨h₁, h₂, h₃⟩ := h i p hp
  unfold Progress.claimed
  split
  · simp
  · exact ⟨h₁, h₂, h₃⟩

end Registry.Uncommitted

theorem Record.Shape.uncommitted {r : Record} (h : r.Shape) (hu : r.phase.isTerminal = false) :
    r.registry.Uncommitted := by
  obtain ⟨k, h⟩ := h.undecided hu
  refine ⟨k, fun i q hi => ?_⟩
  rcases h i q hi with rfl | rfl | ⟨hk, rfl⟩
  · simp
  · simp
  · simp [hk]

theorem Stage.Settles.ne_settled {s : Stage} {k : Nat} {p : Progress} (h : s.Settles k p) :
    p ≠ .settled .commit ∧ p ≠ .settled .committedInPrepare := by
  cases h <;> simp

theorem Advance.shape {rules : Rules} {r r' : Record} {a : Action} {s s' : Stage}
    (h : Advance rules r a s r' s') (hr : r.Shape) (hs : s.Fits r) : r'.Shape := by
  cases h with
  | join hp =>
      rename_i t p
      -- an active record has nothing but slots to which nothing was sent
      have hj : ∀ i q, (r.registry.enlist p).progress? i = some q → q = .joined := by
        intro i q hi
        rw [Registry.progress?_enlist] at hi
        split at hi
        · exact (Option.some.inj hi).symm
        · exact hr.active hp i q hi
      have hnone := hr.report_eq_none (by rw [hp]; decide)
      refine ⟨hr.cause, hr.settledAt, fun report h => ?_, hr.frozen, fun _ => hj,
        fun h => ?_, fun h => ?_, fun h => ?_⟩
      · exact absurd (hnone.symm.trans h) (by simp)
      all_goals exact absurd (hp.symm.trans h) (by decide)
  | renew hu => exact ⟨hr.cause, hr.settledAt, hr.report, hr.frozen, hr.active, hr.voting,
      hr.committed, hr.aborted⟩
  | abort hu => exact hr.abort hu rfl (hr.uncommitted hu).claimAll
  | openVote hp =>
      have hnone := hr.report_eq_none (by rw [hp]; decide)
      refine ⟨?_, ?_, fun report h => ?_, by simp, fun h => ?_, fun _ => ?_, fun h => ?_,
        fun h => ?_⟩
      · have := hr.cause
        rw [hp] at this
        simpa using this
      · have := hr.settledAt
        rw [hp] at this
        simpa [Phase.isTerminal] using this
      · exact absurd (hnone.symm.trans h) (by simp)
      · exact absurd h (by simp)
      -- no slot has been asked yet
      · exact ⟨0, .joined, .inl rfl, Registry.PolledTo.of_all_joined (hr.active hp)⟩
      all_goals exact absurd h (by simp)
  | ask hp _ =>
      exact hr.withRegistry_voting hp (by simp) (by simp) (.inr rfl) (hs.2.2.2.polledTo hp).ask
  | askSole hp _ =>
      exact hr.withRegistry_voting hp (by simp) (by simp) (.inr rfl) (hs.2.polledTo hp).ask
  | prepared hk =>
      -- the vote may have been aborted while the question was open
      obtain ⟨-, -, -, hp | ⟨hp, hpoll⟩⟩ := hs
      · exact hr.withRegistry_aborted hp (by simp) (by simp)
          ((hr.aborted hp).setProgress hk (by decide) (by decide))
      · exact hr.withRegistry_voting hp (by simp) (by simp) (.inl rfl) hpoll.prepared
  | refuse hp hk hsettles =>
      have hu : r.phase.isTerminal = false := by rw [hp]; rfl
      have hslots : r.registry.freeze.Uncommitted := hr.uncommitted hu
      exact hr.abort hu (by simp) (hslots.setProgress hk hsettles.ne_settled.1
        hsettles.ne_settled.2)
  | late hp hk hsettles =>
      exact hr.withRegistry_aborted hp (by simp) (by simp)
        ((hr.aborted hp).setProgress hk hsettles.ne_settled.1 hsettles.ne_settled.2)
  | lapse hp | interruptVote hp =>
      have hu : r.phase.isTerminal = false := by rw [hp]; rfl
      exact hr.abort (g := r.registry.freeze) hu rfl (hr.uncommitted hu)
  | decide hp _ =>
      have hpoll := hs.2.polledTo hp
      exact hr.commit (g := r.registry.freeze) hp rfl fun i p hi => .inl (hpoll.all_prepared hi)
  | decideSole hp _ hk =>
      obtain ⟨hsize, -, -⟩ := hs
      refine hr.commit hp (by simp) fun i p hi => .inr ⟨?_, by simpa using hsize⟩
      exact Registry.eq_of_sole (r := r.registry.freeze) hsize hi
  | rollForward =>
      obtain ⟨hp, -, hslots⟩ := hs
      refine hr.withRegistry_committed hp (by simp) (by simp) fun i p hi => ?_
      rw [Registry.progress?_claimAll] at hi
      obtain ⟨q, hq, rfl⟩ := Option.map_eq_some_iff.mp hi
      have := hslots i q hq
      split at this
      -- the only slot has committed in the combined call, and nobody claims it
      · rename_i hsize
        subst this
        exact .inr (.inr ⟨rfl, hsize⟩)
      · subst this
        exact .inr (.inl rfl)
  | file =>
      obtain ⟨hp, -, hid, hn⟩ := hs
      exact hr.fileReport hp hid hn
  | interruptCommit hp _ => exact hr.fileReport hp rfl rfl
  | abandon =>
      exact hr.withRegistry_aborted hs (by simp) (by simp) (hr.aborted hs).claimAll
  | _ => exact hr

/-! ## The stage of the operation that moves -/

theorem Record.Shape.cannotCommit_true {r : Record} (h : r.Shape) (hp : r.phase = .aborted) :
    (Answer.refused r.cannotCommit).TrueOf r := by
  obtain ⟨cause, hc⟩ := Option.isSome_iff_exists.mp (h.cause.mpr hp)
  exact ⟨rfl, hp, by simp [Record.statedCause, hc]⟩

theorem Wait.answer_true {w : Wait} {r : Record} (h : r.Shape) (hw : w.isOver r = true) :
    (w.answer r).TrueOf r := by
  cases w with
  | phase target => exact trueOf_reached r
  | decision =>
      simp only [isOver, Bool.or_eq_true, beq_iff_eq, Option.isSome_iff_exists] at hw
      rcases hw with hp | ⟨report, hreport⟩
      · have hnone := h.report_eq_none (by rw [hp]; decide)
        simp only [answer, hp, hnone]
        exact h.cannotCommit_true hp
      · have hp := (h.report report hreport).1
        simp only [answer, hp, hreport]
        exact ⟨hp, hreport⟩

namespace Stage

variable {r : Record}

theorem fits_deliverAborts (hp : r.phase = .aborted) {a : Answer} (ha : a.TrueOf r) (owner : Bool)
    (owed : List Claim) : (deliverAborts owner owed a).Fits r := by
  cases owed with
  | nil => exact ha
  | cons c rest => exact ⟨hp, ha⟩

theorem fits_deliverCommits (hp : r.phase = .committed) (hreport : r.report = none) {n : Nat}
    (hn : n = r.registry.size) (owed : List Claim) (failures : List CommitFailure) :
    (deliverCommits r.id n owed failures).Fits r := by
  cases owed with
  | nil => exact ⟨hp, hreport, rfl, hn⟩
  | cons c rest => exact ⟨hp, hreport, hn⟩

theorem fits_ask {k n : Nat} (hn : n = r.registry.size) (h2 : 2 ≤ n) (hk : k ≤ n)
    (hpoll : r.Polls k .joined) : (ask k n).Fits r := by
  unfold ask
  split
  · rename_i hlt
    exact ⟨hn, h2, hlt, hpoll⟩
  · rename_i hle
    have hkn : k = r.registry.size := by omega
    subst hkn
    exact ⟨by omega, hpoll⟩

theorem fits_firstQuestion (hr : r.Shape) (hp : r.phase = .active) :
    (Record.firstQuestion r.registry.size).Fits r.voting := by
  have hpoll : r.voting.Polls 0 .joined :=
    .inr ⟨rfl, Registry.PolledTo.of_all_joined (hr.active hp)⟩
  rcases hsize : r.registry.size with _ | _ | n
  · refine ⟨by simp [hsize], ?_⟩
    rw [show r.voting.registry.size = 0 from hsize]
    exact hpoll
  · exact ⟨by simpa using hsize, hpoll⟩
  · exact ⟨by simpa using hsize.symm, by omega, by omega, hpoll⟩

theorem polls_withRegistry_ask {k : Nat} (hp : r.phase = .voting) (hpoll : r.Polls k .joined) :
    (r.withRegistry (r.registry.setProgress k .preparing)).Polls k .preparing :=
  .inr ⟨hp, (hpoll.polledTo hp).ask⟩

end Stage

theorem Advance.fits {rules : Rules} {r r' : Record} {a : Action} {s s' : Stage}
    (h : Advance rules r a s r' s') (hr : r.Shape) (hs : s.Fits r) : s'.Fits r' := by
  cases h with
  | answer _ ha => exact ha
  | look hw => exact Wait.answer_true hr hw
  | giveUp _ ha => exact ha
  | join | renew => trivial
  | abort hu _ _ ha =>
      refine Stage.fits_deliverAborts rfl ?_ _ _
      -- claims do not touch what the answer is about
      exact ha.later (Record.Later.withRegistry (by simp))
  | openVote hp => exact Stage.fits_firstQuestion hr hp
  | ask hp hk =>
      obtain ⟨hn, h2, -, hpoll⟩ := hs
      exact ⟨by simpa using hn, h2, Registry.progress?_setProgress_self hk .preparing,
        Stage.polls_withRegistry_ask hp hpoll⟩
  | askSole hp hk =>
      obtain ⟨hn, hpoll⟩ := hs
      exact ⟨by simpa using hn, Registry.progress?_setProgress_self hk .preparing,
        Stage.polls_withRegistry_ask hp hpoll⟩
  | giveIn _ hp => exact hp
  | prepared hk =>
      obtain ⟨hn, h2, -, hpoll⟩ := hs
      have hlt := Registry.lt_size_of_progress? hk
      refine Stage.fits_ask (by simpa using hn) h2 (by omega) ?_
      rcases hpoll with hp | ⟨hp, hpoll⟩
      · exact .inl hp
      · exact .inr ⟨hp, hpoll.prepared⟩
  | refuse | lapse => rfl
  | late hp => exact hp
  | decide hp _ =>
      obtain ⟨hsize, hpoll⟩ := hs
      have hpoll := hpoll.polledTo hp
      refine ⟨rfl, hr.report_eq_none (by rw [hp]; decide), fun i p hi => ?_⟩
      rw [if_neg (by simpa using hsize)]
      exact hpoll.all_prepared hi
  | decideSole hp _ hk =>
      obtain ⟨hsize, -, -⟩ := hs
      refine ⟨rfl, hr.report_eq_none (by rw [hp]; decide), fun i p hi => ?_⟩
      rw [if_pos (by simpa using hsize)]
      exact Registry.eq_of_sole (r := r.registry.freeze) hsize hi
  | rollForward =>
      obtain ⟨hp, hreport, -⟩ := hs
      exact Stage.fits_deliverCommits (r := r.withRegistry (r.registry.claimAll .commit).1) hp
        hreport (by simp) _ _
  | file =>
      obtain ⟨hp, -, -, -⟩ := hs
      exact ⟨hp, rfl⟩
  | abandon =>
      refine Stage.fits_deliverAborts (r := r.withRegistry (r.registry.claimAll .abort).1) hs ?_ _ _
      exact (hr.cannotCommit_true hs).later (Record.Later.withRegistry (by simp))
  | voteReturns => exact hs
  | votePanics =>
      -- the poll breaks off where it stands
      obtain ⟨-, -, -, hpoll⟩ := hs
      exact .inl ⟨_, hpoll⟩
  | soleGoesOn | soleReturns => exact hs
  | solePanics =>
      obtain ⟨-, -, hpoll⟩ := hs
      exact .inl ⟨_, hpoll⟩
  | commitReturns =>
      obtain ⟨hp, hreport, hn⟩ := hs
      exact Stage.fits_deliverCommits hp hreport hn _ _
  | commitLost | repeatCommit => exact hs
  | commitPanics =>
      obtain ⟨hp, hreport, -⟩ := hs
      exact .inr ⟨hp, hreport⟩
  | abortReturns =>
      obtain ⟨hp, ha⟩ := hs
      exact Stage.fits_deliverAborts hp ha _ _
  | abortPanics =>
      split
      · exact .inl ⟨0, .inl hs.1⟩
      · trivial
  | _ => trivial

/-! ## The stages of the other operations -/

namespace Stage.Fits

variable {r : Record} {t : Stage}

theorem ne_active (h : t.Fits r) (ht : t.leads = true) : r.phase ≠ .active := by
  have hpolls : ∀ {k : Nat} {here : Progress}, r.Polls k here → r.phase ≠ .active := by
    rintro k here (hp | ⟨hp, -⟩) <;> rw [hp] <;> decide
  cases t with
  | requested | awaiting | finished | panicked => cases ht
  | asking | votePending | voteHeard => exact hpolls h.2.2.2
  | solePending | soleHeard => exact hpolls h.2.2
  | askingSole | deciding => exact hpolls h.2
  | rollingForward | commitPending | pausing | reporting | abortPending =>
      rw [h.1]
      decide
  | abandoning =>
      rw [show r.phase = .aborted from h]
      decide
  | unwinding =>
      rcases h with ⟨k, h⟩ | ⟨hp, -⟩
      · exact hpolls h
      · rw [hp]
        decide

/-- An operation that does not lead relies on nothing but what lasts. -/
theorem later {r' : Record} (h : t.Fits r) (ht : t.leads = false) (hl : r.Later r') :
    t.Fits r' := by
  cases t with
  | requested | awaiting | panicked => trivial
  | finished => exact Answer.TrueOf.later h hl
  | abortPending owner => exact ⟨hl.aborted h.1, h.2.later hl⟩
  | _ => cases ht

/-- An abort by another operation leaves alone the slot whose question is open. -/
theorem besideAbort (h : t.Fits r) (ht : t.leads = true) (hu : r.phase.isTerminal = false)
    {lease : Lease} {cause : AbortCause} {now : Timestamp} :
    t.Fits ((r.aborted lease cause now).withRegistry (r.registry.freeze.claimAll .abort).1) := by
  have hopen : ∀ {k : Nat}, r.registry.progress? k = some .preparing →
      (r.registry.freeze.claimAll .abort).1.progress? k = some .preparing := by
    intro k hk
    rw [Registry.progress?_claimAll, Registry.progress?_freeze, hk]
    rfl
  cases t with
  | requested | awaiting | finished | panicked => cases ht
  | asking => exact ⟨by simpa using h.1, h.2.1, h.2.2.1, .inl rfl⟩
  | votePending | voteHeard => exact ⟨by simpa using h.1, h.2.1, hopen h.2.2.1, .inl rfl⟩
  | askingSole | deciding => exact ⟨by simpa using h.1, .inl rfl⟩
  | solePending | soleHeard => exact ⟨by simpa using h.1, hopen h.2.1, .inl rfl⟩
  | rollingForward | commitPending | pausing | reporting | abortPending =>
      rw [h.1] at hu
      exact absurd hu (by decide)
  | abandoning =>
      rw [show r.phase = .aborted from h] at hu
      exact absurd hu (by decide)
  | unwinding => exact .inl ⟨0, .inl rfl⟩

/-- The operation that leads is not disturbed by the others. -/
theorem beside {rules : Rules} {r' : Record} {a : Action} {s s' : Stage} (h : t.Fits r)
    (ht : t.leads = true) (hm : Advance rules r a s r' s') (hs : s.leads = false) : t.Fits r' := by
  cases hm with
  -- the vote is open, or over, as soon as somebody leads
  | join hp | openVote hp => exact absurd hp (h.ne_active ht)
  | renew => cases t <;> exact h
  | abort hu => exact h.besideAbort ht hu
  | refuse _ _ hsettles | late _ _ hsettles => cases hsettles <;> cases hs
  | ask | askSole | prepared | lapse | decide | decideSole | rollForward | file | abandon
  | interruptVote | interruptCommit => cases hs
  | _ => exact h

end Stage.Fits

end LeasedCommit
