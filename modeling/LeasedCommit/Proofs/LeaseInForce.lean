import LeasedCommit.Proofs.Accord
import LeasedCommit.Proofs.Decision
import LeasedCommit.Proofs.Waiters

set_option autoImplicit false

/-! # A lapsed lease never commits

The status of a lease always agrees with the cause of the abort (`Record.LeaseAgrees`), so a record
that is not aborted has a valid lease. The decision to commit looks at the expiration once more,
with the clock reading that becomes the time of the decision. If the lease has lapsed by then, the
record aborts although all slots have voted for the commit, and every slot is told so
(`Run.abandoned`). -/

namespace LeasedCommit

/-! ## The status of the lease -/

/-- The status in which an abort leaves the lease. -/
def AbortCause.leaseStatus : AbortCause → LeaseStatus
  | .leaseCancelled => .cancelled
  | .leaseExpired => .expired
  | _ => .valid

/-- The lease is in the status in which the abort has left it, and valid without an abort. -/
def Record.LeaseAgrees (r : Record) : Prop :=
  r.lease.status = (r.abortCause.map AbortCause.leaseStatus).getD .valid

theorem Lease.status_markExpired {l : Lease} (h : l.status = .valid) :
    l.markExpired.status = .expired := by
  rw [markExpired, if_pos h]

theorem Lease.expiration_markExpired (l : Lease) : l.markExpired.expiration = l.expiration := by
  unfold markExpired
  split <;> rfl

theorem Lease.hasPassed_of_hasLapsed {l : Lease} {now : Timestamp} (h : l.hasLapsed now = true) :
    l.expiration.hasPassed now = true := by
  simp only [hasLapsed, Bool.and_eq_true] at h
  exact h.2

/-- A valid lease that has not lapsed is not past its expiration. -/
theorem Lease.hasPassed_eq_false {l : Lease} {now : Timestamp} (h : l.hasLapsed now = false)
    (hvalid : l.status = .valid) : l.expiration.hasPassed now = false := by
  simpa [hasLapsed, hvalid] using h

/-- An abort leaves a valid lease in the status that belongs to its cause. -/
theorem Stage.Aborts.status {r : Record} {t : Readings} {s : Stage} {lease : Lease}
    {cause : AbortCause} {now : Timestamp} (h : s.Aborts r t lease cause now)
    (hvalid : r.lease.status = .valid) : lease.status = cause.leaseStatus := by
  cases h with
  | forfeits hforfeits =>
      cases hforfeits with
      | lapsed => exact Lease.status_markExpired hvalid
      | requested => exact hvalid
      | cancelled _ hcancel => rw [Lease.cancel_eq_true hcancel, AbortCause.leaseStatus]
  | refuses _ hrefuses =>
      cases hrefuses with
      | soleLapsed => exact Lease.status_markExpired hvalid
      | _ => exact hvalid
  | lapses => exact Lease.status_markExpired hvalid
  | interrupts => exact hvalid

theorem Record.Shape.abortCause_eq_none {r : Record} (h : r.Shape) (hp : r.phase ≠ .aborted) :
    r.abortCause = none := by
  rw [← Option.not_isSome_iff_eq_none, h.cause]
  exact hp

/-- A record that is not aborted has a valid lease. -/
theorem Record.LeaseAgrees.status_eq_valid {r : Record} (h : r.LeaseAgrees) (hr : r.Shape)
    (hp : r.phase ≠ .aborted) : r.lease.status = .valid := by
  rw [LeaseAgrees, hr.abortCause_eq_none hp] at h
  exact h

theorem Record.LeaseAgrees.status_eq {r : Record} (h : r.LeaseAgrees) {cause : AbortCause}
    (hcause : r.abortCause = some cause) : r.lease.status = cause.leaseStatus := by
  rw [LeaseAgrees, hcause] at h
  exact h

section Moves

variable {rules : Rules} {r r' : Record} {a : Action} {s s' : Stage}

/-- Only an abort takes its validity from a lease. -/
theorem Advance.lease_status (h : Advance rules r a s r' s') (hp' : r'.phase ≠ .aborted) :
    r'.lease.status = r.lease.status := by
  cases h with
  | renew _ hrenew =>
      obtain ⟨-, -, hlease⟩ := Lease.renew_eq_some hrenew
      show Lease.status _ = _
      rw [hlease]
  | abort | refuse | lapse | interruptVote => exact absurd rfl hp'
  | _ => rfl

theorem Advance.leaseAgrees (h : Advance rules r a s r' s') (hr : r.Shape) (hs : s.Fits r)
    (ha : r.LeaseAgrees) : r'.LeaseAgrees := by
  by_cases hp : r.phase = .aborted
  · obtain ⟨hcause, -, hlease⟩ := (h.later hs).decided (by rw [hp]; rfl)
    rw [Record.LeaseAgrees, hcause, hlease]
    exact ha
  have hvalid := ha.status_eq_valid hr hp
  by_cases hp' : r'.phase = .aborted
  · obtain ⟨i, t, lease, cause, now, -, haborts, hlease, hcause, -⟩ := h.aborts hp hp'
    rw [Record.LeaseAgrees, hcause, hlease]
    exact haborts.status hvalid
  · have hnone := (h.shape hr hs).abortCause_eq_none hp'
    rw [Record.LeaseAgrees, hnone, h.lease_status hp']
    exact hvalid

end Moves

theorem Run.leaseAgrees {rules : Rules} {x₀ x : Transaction} {turns : List Turn} (h₀ : x₀.Sound)
    (hstart : x₀.record.LeaseAgrees) (h : Run rules x₀ turns x) : x.record.LeaseAgrees := by
  refine Run.invariant (P := fun _ x => x.record.LeaseAgrees) h₀ hstart ?_ ?_ h
  · intro turns x q _ ih
    exact ih
  · intro turns x y a i s r' s' hx ih _ hm hy
    rw [hy.record]
    exact hm.leaseAgrees hx.shape (hx.fits i s hy.stage) ih

/-! ## The decision with all votes in -/

/-- With all votes in, the record commits, or its lease has lapsed and it aborts. In that case every
slot can still be claimed. -/
theorem Advance.decides {rules : Rules} {r r' : Record} {i : Nat} {t : Readings} {s s' : Stage}
    (h : Advance rules r (.visit i t) s r' s') (hs : s.Fits r) (hp : r.phase = .voting)
    (hall : s.hasAllVotes = true) :
    (r.lease.hasLapsed t.first = false ∧ r'.phase = .committed) ∨
    (r.lease.hasLapsed t.first = true ∧ r'.phase = .aborted ∧
      r'.abortCause = some .leaseExpired ∧ s' = .abandoning ∧
      ∀ j < r'.registry.size, r'.registry.canClaim j = true) := by
  cases h with
  | decide _ hl => exact .inl ⟨hl, rfl⟩
  | decideSole _ hl => exact .inl ⟨hl, rfl⟩
  | lapse _ hl =>
      refine .inr ⟨hl, rfl, rfl, rfl, fun j hj => ?_⟩
      obtain ⟨p, hprogress⟩ := Registry.lt_size_iff.mp hj
      obtain rfl := (hs.2.polledTo hp).all_prepared hprogress
      exact Registry.canClaim_iff.mpr ⟨_, hprogress, rfl⟩
  | refuse _ hk hsettles hrefuses =>
      cases hrefuses with
      | soleLapsed hl =>
          cases hsettles
          refine .inr ⟨hl, rfl, rfl, rfl, fun j hj => ?_⟩
          have hsize : r.registry.size = 1 := hs.1
          have hj' : j < r.registry.size := by simpa using hj
          obtain rfl : j = 0 := by omega
          rw [Record.withRegistry_registry, Registry.canClaim_setProgress, if_pos rfl,
            Registry.progress?_freeze, hk]
          rfl
      | _ => cases hall
  | giveIn _ ha | late ha =>
      rw [hp] at ha
      cases ha
  | _ => cases hall

/-- An operation that has all votes has heard them from every slot. -/
theorem Transaction.Accords.allVotes {x : Transaction} {events : List Event} (h : x.Accords events)
    (hx : x.Sound) {i : Nat} {s : Stage} (hs : x.stage? i = some s) (hp : x.record.phase = .voting)
    (hall : s.hasAllVotes = true) :
    ∀ j < x.record.registry.size, .yes x.record.registry.size j ∈ events := by
  intro j hj
  exact mem_of_standing ((hx.fits i s hs).standing_eq_yes hp hall (h.held i s hs) h.free hj)

/-! ## The aborts that follow -/

/-- The operation that leads an aborted record goes on to claim every slot, and nobody comes in
between. -/
theorem Run.abandoned {rules : Rules} {x₀ x : Transaction} {turns : List Turn} {i : Nat}
    (h₀ : x₀.Sound) (hi : x₀.stage? i = some .abandoning) (h : Run rules x₀ turns x) :
    (x.stage? i = some .abandoning ∧ x.record = x₀.record) ∨
      ∀ j, x₀.record.registry.canClaim j = true →
        x.record.registry.progress? j = some (.settled .abort) := by
  refine Run.invariant (P := fun _ x => (x.stage? i = some .abandoning ∧ x.record = x₀.record) ∨
    ∀ j, x₀.record.registry.canClaim j = true →
      x.record.registry.progress? j = some (.settled .abort)) h₀ (.inl ⟨hi, rfl⟩) ?_ ?_ h
  · intro turns x q _ ih
    rcases ih with ⟨hs, hrecord⟩ | hsettled
    · exact .inl ⟨Transaction.stage?_begun_of_some hs, hrecord⟩
    · exact .inr hsettled
  · intro turns x y a i' s r' s' hx ih _ hm hy
    rw [hy.record]
    rcases ih with ⟨hs, hrecord⟩ | hsettled
    · by_cases hne : i = i'
      · -- the operation itself moves, and claims
        subst hne
        obtain rfl := Option.some.inj (hs.symm.trans hy.stage)
        cases hm with
        | abandon =>
            refine .inr fun j hj => ?_
            rw [← hrecord] at hj
            exact Registry.progress?_claimAll_of_canClaim hj .abort
        | giveIn hask => rcases hask with ⟨k, n, h⟩ | h | h <;> cases h
        | refuse _ _ hsettles | late _ _ hsettles => cases hsettles
      · -- any other operation does not lead, and leaves the record alone
        have hlead : s.leads = false := by
          rw [← Bool.not_eq_true]
          intro hlead
          exact hne (hx.leader i i' _ s hs hy.stage rfl hlead)
        have hphase : x.record.phase = .aborted := hx.fits i _ hs
        rw [hm.eq_of_terminal hlead (by rw [hphase]; rfl)]
        exact .inl ⟨(hy.stage?_of_ne hne).trans hs, hrecord⟩
    · exact .inr fun j hj => hm.settled_stays (hsettled j hj)

/-- The visit with which the operation that leads claims every slot can always be made. -/
theorem Transaction.step_abandoning {rules : Rules} {x : Transaction} (hrested : x.Rested) {i : Nat}
    (hs : x.stage? i = some .abandoning)
    (hopen : ∀ j < x.record.registry.size, x.record.registry.canClaim j = true) (t : Readings) :
    ∃ y counts, x.step rules (.visit i t) = some (y, counts) ∧
      y.record.registry.AllSettled .abort := by
  have hawake : i ∉ x.asleep := hrested.awake hs (fun w h => by cases h)
  exact ⟨_, _, step_visit hs hawake rfl, Registry.AllSettled.claimAll hopen .abort⟩

/-! ## Turns that decide, seen from the end of a run -/

section Turns

variable {rules : Rules} {x₀ x : Transaction} {turns past rest : List Turn} {t : Turn}

/-- A record that has committed did so within its lease. -/
theorem Run.commit_turn (h₀ : x₀.Sound) (hstart : x₀.record.phase ≠ .committed)
    (h : Run rules x₀ turns x) (hp : x.record.phase = .committed) :
    ∃ past t rest, turns = past ++ t :: rest ∧
      ∃ i s clock, t.action = .visit i clock ∧ t.before.stage? i = some s ∧
        s.hasAllVotes = true ∧ t.before.record.phase = .voting ∧
        t.after.record.phase = .committed ∧ x.record.settledAt = some clock.first ∧
        x.record.lease = t.before.record.lease ∧ x.record.lease.hasLapsed clock.first = false := by
  obtain ⟨past, t, rest, rfl, hbefore, hafter, -, -, ht', hrest, i, s, s', hi, hm, hy⟩ :=
    h.crossing_move (P := fun r => r.phase = .committed) h₀ hstart hp
  obtain ⟨i', clock, ha, hvoting, hall, hl, hlease, hsettled⟩ := hm.commits hbefore hafter
  rw [ha] at hi
  obtain rfl := Option.some.inj hi
  -- what the record was decided with is what it has at the end
  obtain ⟨-, -, hsettled', hlease', -⟩ := hrest.decided ht' (by rw [hafter]; rfl)
  have hsame : x.record.lease = t.before.record.lease := hlease'.trans hlease
  refine ⟨past, t, rest, rfl, _, s, clock, ha, hy.stage, hall, hvoting, hafter,
    hsettled'.trans hsettled, hsame, ?_⟩
  rw [hsame]
  exact hl

/-- What a turn with all votes in leads to. -/
theorem Run.counted (h₀ : x₀.Sound) (h : Run rules x₀ (past ++ t :: rest) x) {i : Nat} {s : Stage}
    {clock : Readings} (ha : t.action = .visit i clock) (hs : t.before.stage? i = some s)
    (hall : s.hasAllVotes = true) (hp : t.before.record.phase = .voting) :
    x.record.registry.size = t.before.record.registry.size ∧
    ((t.before.record.lease.hasLapsed clock.first = false ∧ x.record.phase = .committed) ∨
      (t.before.record.lease.hasLapsed clock.first = true ∧ x.record.phase = .aborted ∧
        x.record.abortCause = some .leaseExpired ∧ t.after.stage? i = some .abandoning ∧
        ∀ j < x.record.registry.size, t.after.record.registry.canClaim j = true)) := by
  obtain ⟨hpast, ⟨counts, hstep⟩, hrest⟩ := h.cut
  have ht := hpast.sound h₀
  have hfits := ht.fits i s hs
  obtain ⟨r', s', hm, hy⟩ := ht.advance hstep (by rw [ha]; rfl) hs
  have hsize : r'.registry.size = t.before.record.registry.size :=
    (hm.later hfits).size (by rw [hp]; decide)
  rw [ha] at hm
  -- either way the record is decided, and stays so
  have hlasts := hrest.decided (ht.step hstep)
  rw [hy.record] at hlasts ⊢
  rcases hm.decides hfits hp hall with ⟨hl, hr'⟩ | ⟨hl, hr', hcause, rfl, hopen⟩
  · obtain ⟨hphase, -, -, -, hsame⟩ := hlasts (by rw [hr']; rfl)
    exact ⟨hsame.trans hsize, .inl ⟨hl, hphase.trans hr'⟩⟩
  · obtain ⟨hphase, hcause', -, -, hsame⟩ := hlasts (by rw [hr']; rfl)
    rw [← hsame] at hopen
    exact ⟨hsame.trans hsize,
      .inr ⟨hl, hphase.trans hr', hcause'.trans hcause, hy.stage?_self, hopen⟩⟩

end Turns

/-! ## The main result -/

/-- **A lapsed lease never commits.** However the operations on a new record interleave, whatever
the participants answer and wherever the clock goes:

* a committed record has a valid lease. It was decided in a visit with all votes in, while the vote
  was open, with the lease that it has still, and at a clock reading that its expiration had not
  passed;
* a visit with all votes in, while the vote is open, follows the vote of every slot for the commit.
  If the lease has not lapsed the record commits;
* if it has lapsed the record is aborted for that and its lease has expired. The operation then
  claims every slot for an abort, in a visit that it can make at any time. -/
theorem commit_within_lease {rules : Rules} {id : TransactionId} {request : LeaseRequest}
    {now : Timestamp} {turns : List Turn} {x : Transaction}
    (h : Run rules (Transaction.opened rules.lease id request now) turns x) :
    (x.record.phase = .committed → x.record.lease.status = .valid ∧
      ∃ past t rest, turns = past ++ t :: rest ∧
        ∃ i s clock, t.action = .visit i clock ∧ t.before.stage? i = some s ∧
          s.hasAllVotes = true ∧ t.before.record.phase = .voting ∧
          t.after.record.phase = .committed ∧ x.record.settledAt = some clock.first ∧
          x.record.lease = t.before.record.lease ∧
          x.record.lease.expiration.hasPassed clock.first = false) ∧
    (∀ past t rest, turns = past ++ t :: rest → ∀ i s clock, t.action = .visit i clock →
      t.before.stage? i = some s → s.hasAllVotes = true → t.before.record.phase = .voting →
      (∀ j < x.record.registry.size, .yes x.record.registry.size j ∈ history past) ∧
      (t.before.record.lease.hasLapsed clock.first = false → x.record.phase = .committed) ∧
      (t.before.record.lease.hasLapsed clock.first = true →
        x.record.phase = .aborted ∧ x.record.abortCause = some .leaseExpired ∧
        x.record.lease.status = .expired ∧
        (x.record.registry.AllSettled .abort ∨
          (x.stage? i = some .abandoning ∧ ∀ clock', ∃ y counts,
            x.step rules (.visit i clock') = some (y, counts) ∧
              y.record.registry.AllSettled .abort)))) := by
  have h₀ := Transaction.sound_opened rules.lease id request now
  have hagrees := h.leaseAgrees h₀ rfl
  constructor
  · intro hp
    have hvalid : x.record.lease.status = .valid :=
      hagrees.status_eq_valid (h.sound h₀).shape (by rw [hp]; decide)
    obtain ⟨past, t, rest, hcut, i, s, clock, ha, hs, hall, hvoting, hafter, hsettled, hlease,
      hl⟩ := h.commit_turn h₀ (by intro h; cases h) hp
    exact ⟨hvalid, past, t, rest, hcut, i, s, clock, ha, hs, hall, hvoting, hafter, hsettled,
      hlease, Lease.hasPassed_eq_false hl hvalid⟩
  · rintro past t rest rfl i s clock ha hs hall hp
    obtain ⟨hpast, ⟨counts, hstep⟩, hrest⟩ := h.cut
    have ht := hpast.sound h₀
    have haccords := hpast.accords h₀ (Transaction.accords_opened ..)
    obtain ⟨hsize, hcases⟩ := h.counted h₀ ha hs hall hp
    refine ⟨?_, fun hl => ?_, fun hl => ?_⟩
    · rw [hsize]
      exact haccords.allVotes ht hs hp hall
    · rcases hcases with ⟨-, hcommitted⟩ | ⟨hl', -⟩
      · exact hcommitted
      · rw [hl] at hl'
        cases hl'
    · rcases hcases with ⟨hl', -⟩ | ⟨-, haborted, hcause, habandoning, hopen⟩
      · rw [hl] at hl'
        cases hl'
      refine ⟨haborted, hcause, hagrees.status_eq hcause, ?_⟩
      rcases hrest.abandoned (ht.step hstep) habandoning with ⟨hs', hrecord⟩ | hsettled
      · refine .inr ⟨hs', fun clock' => ?_⟩
        have hrested := h.rested h₀ (Transaction.rested_opened _ _ _ _)
        refine Transaction.step_abandoning hrested hs' (fun j hj => ?_) clock'
        rw [hrecord]
        exact hopen j hj
      · exact .inl fun j hj => hsettled j (hopen j hj)

/-- The only party commits in the combined call, but the answer comes a millisecond after the lease
has lapsed. -/
theorem commit_within_lease_lapsed :
    ∃ turns x,
      Run { lease := .standard, rollForward := .standard }
        (Transaction.opened .standard ⟨1⟩ (.bounded (Duration.ofMillis 1)) .epoch) turns x ∧
      .soleVoted (.returned (.answered .committed)) ∈ history turns ∧
      x.record.phase = .aborted ∧ x.record.abortCause = some .leaseExpired ∧
      x.record.lease.status = .expired := by
  have hvote : Run { lease := .standard, rollForward := .standard }
      (Transaction.opened .standard ⟨1⟩ (.bounded (Duration.ofMillis 1)) .epoch) _ _ :=
    Run.of_play [.begin (.join { key := 0, combines := true }), .visit 0 (.steady .epoch),
      .begin .commit, .visit 1 (.steady .epoch), .visit 1 (.steady .epoch),
      .combinedVote 1 (.returned (.answered .committed))] rfl
  have hrun := hvote.trans (Run.of_play [.visit 1 (.steady (.ofMicros 2000))] rfl)
  obtain ⟨-, hcounted⟩ := commit_within_lease hrun
  obtain ⟨hvotes, -, hlapsed⟩ := hcounted _ _ [] rfl 1 (.soleHeard (.answered .committed)) _
    rfl rfl rfl rfl
  obtain ⟨hphase, hcause, hstatus, -⟩ := hlapsed rfl
  refine ⟨_, _, hrun, ?_, hphase, hcause, hstatus⟩
  rw [history_append]
  exact List.mem_append_left _ (hvotes 0 (by decide))

end LeasedCommit
