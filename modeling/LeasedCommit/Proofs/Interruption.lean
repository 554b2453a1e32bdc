import LeasedCommit.Proofs.Accord
import LeasedCommit.Proofs.Decision
import LeasedCommit.Proofs.Waiters

set_option autoImplicit false

/-! # A roll-forward that breaks off

Every slot is marked as told to commit before the first commit call goes out (`Record.Told`). If a
commit call panics, the report is read off these marks (`Record.interruptedReport`). So it names all
slots, those that have confirmed the commit among them, and those that have not been called. -/

namespace LeasedCommit

/-! ## While the commits are delivered -/

/-- The record has committed, and every slot is marked as told. -/
structure Record.Told (r : Record) : Prop where
  phase : r.phase = .committed
  several : 2 ≤ r.registry.size
  marked : r.registry.AllSettled .commit

/-- The report in which nobody has confirmed. -/
def Record.unconfirmedReport (r : Record) : CommitReport :=
  { id := r.id, participants := r.registry.size
    failures := (List.range r.registry.size).map unconfirmed }

/-- Whether an operation is delivering the commits. -/
def Stage.delivers : Stage → Bool
  | .commitPending _ | .pausing _ => true
  | _ => false

@[simp] theorem Stage.delivers_deliverAborts (owner : Bool) (owed : List Claim) (a : Answer) :
    (deliverAborts owner owed a).delivers = false := by
  cases owed <;> rfl

@[simp] theorem Stage.delivers_ask (k n : Nat) : (ask k n).delivers = false := by
  unfold ask
  split <;> rfl

@[simp] theorem Stage.delivers_firstQuestion (n : Nat) :
    (Record.firstQuestion n).delivers = false := by
  rcases n with _ | _ | n <;> rfl

theorem Record.Told.interruptedReport_eq {r : Record} (h : r.Told) :
    r.interruptedReport = r.unconfirmedReport := by
  rw [interruptedReport, h.marked.toldToCommit_eq, unconfirmedReport]

theorem Record.Later.unconfirmedReport_eq {r r' : Record} (h : r.Later r')
    (hp : r.phase ≠ .active) : r'.unconfirmedReport = r.unconfirmedReport := by
  rw [unconfirmedReport, h.id, h.size hp, unconfirmedReport]

/-- All slots are prepared when an operation sets about to tell them, unless the only one has
committed in the combined call. -/
theorem Stage.Fits.told {r : Record} (h : Stage.rollingForward.Fits r) {c : Claim}
    (hc : c ∈ r.registry.claimable) : (r.withRegistry (r.registry.claimAll .commit).1).Told := by
  obtain ⟨hp, -, hslots⟩ := h
  obtain ⟨p, hprogress, haccepts⟩ :=
    Registry.canClaim_iff.mp (Registry.canClaim_of_mem_claimable hc)
  have hlt := Registry.lt_size_of_progress? hprogress
  have hsize : r.registry.size ≠ 1 := by
    intro hsize
    have hp := hslots _ p hprogress
    rw [if_pos hsize] at hp
    rw [hp] at haccepts
    cases haccepts
  refine ⟨hp, ?_, ?_⟩
  · rw [Record.withRegistry_registry, Registry.size_claimAll]
    omega
  · refine Registry.AllSettled.claimAll (fun i hi => ?_) .commit
    obtain ⟨q, hq⟩ := Registry.lt_size_iff.mp hi
    refine Registry.canClaim_iff.mpr ⟨q, hq, ?_⟩
    rw [hslots i q hq, if_neg hsize]
    rfl

section Moves

variable {rules : Rules} {r r' : Record} {a : Action} {s s' : Stage}

theorem Advance.told (h : Advance rules r a s r' s') (hs : s.Fits r)
    (ht : s.delivers = true → r.Told) (hs' : s'.delivers = true) : r'.Told := by
  cases h with
  | rollForward =>
      cases hclaims : r.registry.claimable with
      | nil =>
          rw [hclaims] at hs'
          cases hs'
      | cons c rest => exact hs.told (by rw [hclaims]; exact List.mem_cons_self ..)
  | commitReturns | commitLost | repeatCommit => exact ht rfl
  | abort | abandon | abortReturns | prepared | openVote => simp at hs'
  | abortPanics => split at hs' <;> cases hs'
  | _ => cases hs'

/-- Nothing that happens later touches the marks. -/
theorem Advance.told_stays (h : Advance rules r a s r' s') (hs : s.Fits r) (ht : r.Told) :
    r'.Told := by
  have hl := h.later hs
  have hsize := hl.size (by rw [ht.phase]; decide)
  refine ⟨hl.committed ht.phase, by rw [hsize]; exact ht.several, fun i hi => ?_⟩
  rw [hsize] at hi
  exact h.settled_stays (ht.marked i hi)

/-- An operation that unwinds out of a commit call files the report and ends. -/
theorem Advance.unwinds {m : String} (h : Advance rules r a (.unwinding m) r' s') (ht : r.Told) :
    s' = .panicked m ∧ r'.report = some r.unconfirmedReport := by
  have hphase := ht.phase
  cases h with
  | interruptCommit => exact ⟨rfl, congrArg some ht.interruptedReport_eq⟩
  | interruptVote hp | interruptLate hp =>
      rw [hphase] at hp
      cases hp
  | giveIn hask => rcases hask with ⟨k, n, h⟩ | h | h <;> cases h
  | refuse _ _ hsettles | late _ _ hsettles => cases hsettles

end Moves

/-! ## Along a run -/

section Runs

variable {rules : Rules} {x₀ x : Transaction} {turns : List Turn}

theorem Run.told (h₀ : x₀.Sound)
    (hstart : ∀ i s, x₀.stage? i = some s → s.delivers = true → x₀.record.Told)
    (h : Run rules x₀ turns x) :
    ∀ i s, x.stage? i = some s → s.delivers = true → x.record.Told := by
  refine Run.invariant (P := fun _ x => ∀ i s, x.stage? i = some s → s.delivers = true →
    x.record.Told) h₀ hstart ?_ ?_ h
  · intro turns x q _ ih i s hs hdelivers
    rcases Transaction.stage?_begun hs with hs | ⟨-, rfl⟩
    · exact ih i s hs hdelivers
    · cases hdelivers
  · intro turns x y a i s r' s' hx ih _ hm hy i' t ht hdelivers
    rw [hy.record]
    have hfits := hx.fits i s hy.stage
    rcases hy.stage?_cases ht with ⟨-, rfl⟩ | ⟨-, ht⟩
    · exact hm.told hfits (ih i s hy.stage) hdelivers
    · exact hm.told_stays hfits (ih i' t ht hdelivers)

/-- An operation that unwinds out of a commit call has its report to file, or has filed it. -/
theorem Run.unwound {i : Nat} {m : String} (h₀ : x₀.Sound)
    (hi : x₀.stage? i = some (.unwinding m)) (ht : x₀.record.Told) (h : Run rules x₀ turns x) :
    x.record.Told ∧ x.record.unconfirmedReport = x₀.record.unconfirmedReport ∧
      (x.stage? i = some (.unwinding m) ∨
        (x.stage? i = some (.panicked m) ∧
          x.record.report = some x₀.record.unconfirmedReport)) := by
  refine Run.invariant (P := fun _ x => x.record.Told ∧
    x.record.unconfirmedReport = x₀.record.unconfirmedReport ∧
      (x.stage? i = some (.unwinding m) ∨ (x.stage? i = some (.panicked m) ∧
        x.record.report = some x₀.record.unconfirmedReport))) h₀ ⟨ht, rfl, .inl hi⟩ ?_ ?_ h
  · rintro turns x q _ ⟨ht, hsame, hs | ⟨hs, hreport⟩⟩
    · exact ⟨ht, hsame, .inl (Transaction.stage?_begun_of_some hs)⟩
    · exact ⟨ht, hsame, .inr ⟨Transaction.stage?_begun_of_some hs, hreport⟩⟩
  · rintro turns x y a i' s r' s' hx ⟨ht, hsame, hcases⟩ _ hm hy
    have hfits := hx.fits i' s hy.stage
    have hl := hm.later hfits
    rw [hy.record]
    refine ⟨hm.told_stays hfits ht, ?_, ?_⟩
    · rw [hl.unconfirmedReport_eq (by rw [ht.phase]; decide), hsame]
    by_cases hne : i = i'
    · -- the operation itself moves, so it has not ended, and ends now
      subst hne
      rcases hcases with hs | ⟨hs, -⟩ <;> obtain rfl := Option.some.inj (hs.symm.trans hy.stage)
      · obtain ⟨rfl, hreport⟩ := hm.unwinds ht
        rw [hsame] at hreport
        exact .inr ⟨hy.stage?_self, hreport⟩
      · cases hm.isOver_eq_false
    · rw [hy.stage?_of_ne hne]
      refine hcases.imp_right fun ⟨hs, hreport⟩ => ⟨hs, ?_⟩
      rcases hl.report with hr | ⟨hr, -⟩
      · rw [hr, hreport]
      · rw [hreport] at hr
        cases hr

theorem Transaction.Sound.report_eq_none {i : Nat} {m : String} (hx : x.Sound)
    (hs : x.stage? i = some (.unwinding m)) (hp : x.record.phase = .committed) :
    x.record.report = none := by
  rcases hx.fits i _ hs with ⟨k, h | ⟨h, -⟩⟩ | ⟨-, hreport⟩
  · rw [hp] at h
    cases h
  · rw [hp] at h
    cases h
  · exact hreport

/-- The report can be filed at any time. -/
theorem Transaction.step_unwinding {i : Nat} {m : String} (hrested : x.Rested)
    (hs : x.stage? i = some (.unwinding m)) (ht : x.record.Told) (hreport : x.record.report = none)
    (clock : Readings) :
    ∃ y, x.step rules (.visit i clock) = some (y, .undelivered x.record.registry.size) ∧
      y.record.report = some x.record.unconfirmedReport := by
  have hawake : i ∉ x.asleep := hrested.awake hs (fun w h => by cases h)
  have hsettles : x.record.settleInterrupted m clock =
      { record := { x.record with report := some x.record.unconfirmedReport }
        counts := .undelivered x.record.registry.size, wakes := true, next := .panicked m } := by
    rw [Record.settleInterrupted_committed ht.phase hreport, ht.interruptedReport_eq]
    simp [Record.unconfirmedReport]
  have hvisit : (Stage.unwinding m).visit? rules.lease x.record clock = some _ :=
    congrArg some hsettles
  exact ⟨_, step_visit hs hawake hvisit, rfl⟩

end Runs

/-! ## The main result -/

/-- **A roll-forward that breaks off.** However the operations on a new record interleave: a commit
call of the roll-forward is made only when at least two slots have joined and all have voted for the
commit. If it panics, the record stays committed. The operation that made the call files a report in
a visit that it can make at any time, and adds the number of slots to the commits that could not be
delivered. The report names every slot, in join order, with no attempt and a lost call, also the
slots that have confirmed the commit before. -/
theorem interrupted_roll_forward {rules : Rules} {id : TransactionId} {request : LeaseRequest}
    {now : Timestamp} {past rest : List Turn} {t : Turn} {x : Transaction}
    (h : Run rules (Transaction.opened rules.lease id request now) (past ++ t :: rest) x)
    {i : Nat} {m : String} {d : Delivery} (ha : t.action = .acknowledge i (.panicked m))
    (hs : t.before.stage? i = some (.commitPending d)) :
    x.record.phase = .committed ∧ 2 ≤ x.record.registry.size ∧
    (∀ j < x.record.registry.size, .yes x.record.registry.size j ∈ history past) ∧
    ((x.stage? i = some (.unwinding m) ∧ x.record.report = none ∧
      ∀ clock, ∃ y,
        x.step rules (.visit i clock) = some (y, .undelivered x.record.registry.size) ∧
          y.record.report = some x.record.unconfirmedReport) ∨
      (x.stage? i = some (.panicked m) ∧ x.record.report = some x.record.unconfirmedReport)) := by
  have h₀ := Transaction.sound_opened rules.lease id request now
  obtain ⟨hpast, ⟨counts, hstep⟩, hrest⟩ := h.cut
  have ht := hpast.sound h₀
  have htold : t.before.record.Told :=
    hpast.told h₀ (fun i s h => by simp at h) i _ hs rfl
  -- the panic leaves the record as it is
  obtain ⟨r', s', hm, hy⟩ := ht.advance hstep (by rw [ha]; rfl) hs
  have hpanics : r' = t.before.record ∧ s' = .unwinding m := by
    rw [ha] at hm
    cases hm
    exact ⟨rfl, rfl⟩
  obtain ⟨hrecord, rfl⟩ := hpanics
  have hafter : t.after.record = t.before.record := hy.record.trans hrecord
  obtain ⟨hx, hsame, hcases⟩ :=
    hrest.unwound (ht.step hstep) hy.stage?_self (by rw [hafter]; exact htold)
  have hsize : x.record.registry.size = t.before.record.registry.size := by
    have := congrArg CommitReport.participants hsame
    rw [hafter] at this
    exact this
  refine ⟨hx.phase, hx.several, ?_, ?_⟩
  · rw [hsize]
    exact (hpast.accords h₀ (Transaction.accords_opened ..)).votes htold.phase
  · rw [← hsame] at hcases
    refine hcases.imp_left fun hunwinding => ⟨hunwinding, ?_⟩
    have hrested := h.rested h₀ (Transaction.rested_opened _ _ _ _)
    have hreport := (h.sound h₀).report_eq_none hunwinding hx.phase
    exact ⟨hreport, Transaction.step_unwinding hrested hunwinding hx hreport⟩

/-- Two parties have voted for the commit, and the first of them is being told. -/
def twoPartyVote : List Action :=
  let visit (i : Nat) : Action := .visit i (.steady .epoch)
  [.begin (.join { key := 0, combines := false }), visit 0,
    .begin (.join { key := 1, combines := false }), visit 1, .begin .commit, visit 2, visit 2,
    .vote 2 (.returned (.answered .prepared)), visit 2, visit 2,
    .vote 2 (.returned (.answered .prepared)), visit 2, visit 2, visit 2]

/-- The first commit call panics, and nobody has confirmed. -/
theorem interrupted_roll_forward_at_once :
    ∃ turns x,
      Run { lease := .standard, rollForward := .standard }
        (Transaction.opened .standard ⟨1⟩ .forever .epoch) turns x ∧
      x.stage? 2 = some (.panicked "down") ∧ x.record.phase = .committed ∧
      x.record.report = some
        { id := ⟨1⟩, participants := 2
          failures := [Record.unconfirmed 0, Record.unconfirmed 1] } := by
  have hvote : Run { lease := .standard, rollForward := .standard }
      (Transaction.opened .standard ⟨1⟩ .forever .epoch) _ _ := Run.of_play twoPartyVote rfl
  have hrun := hvote.trans
    (Run.of_play [.acknowledge 2 (.panicked "down"), .visit 2 (.steady .epoch)] rfl)
  obtain ⟨hphase, -, -, hcases⟩ := interrupted_roll_forward hrun rfl rfl
  rcases hcases with ⟨hs, -⟩ | ⟨hs, hreport⟩
  · cases hs
  · exact ⟨_, _, hrun, hs, hphase, hreport⟩

/-- The positions whose commit call has not been answered. -/
def unconfirmedAt (n : Nat) (events : List Event) : List Nat :=
  (List.range n).filter fun j => decide (.told j .commit (.returned (.answered ())) ∉ events)

/-- The first party has confirmed the commit when the call to the second one panics. The report
names both. -/
theorem interrupted_roll_forward_names_confirmed :
    ∃ past t rest x,
      Run { lease := .standard, rollForward := .standard }
        (Transaction.opened .standard ⟨1⟩ .forever .epoch) (past ++ t :: rest) x ∧
      (∃ d, t.action = .acknowledge 2 (.panicked "down") ∧
        t.before.stage? 2 = some (.commitPending d)) ∧
      unconfirmedAt 2 (history past) = [1] ∧
      ∃ report, x.record.report = some report ∧
        report.failures.map CommitFailure.position = [0, 1] := by
  have hvote : Run { lease := .standard, rollForward := .standard }
      (Transaction.opened .standard ⟨1⟩ .forever .epoch) _ _ :=
    Run.of_play (twoPartyVote ++ [.acknowledge 2 (.returned (.answered ()))]) rfl
  have hrun := hvote.trans
    (Run.of_play [.acknowledge 2 (.panicked "down"), .visit 2 (.steady .epoch)] rfl)
  exact ⟨_, _, _, _, hrun, ⟨_, rfl, rfl⟩, by decide, _, rfl, rfl⟩

end LeasedCommit
