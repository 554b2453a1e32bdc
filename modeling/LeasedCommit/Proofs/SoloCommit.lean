import LeasedCommit.Proofs.PlainParty
import LeasedCommit.Proofs.SoloMoves

set_option autoImplicit false

/-! # Commit is two-phase commit

If nothing else is called on an active record and its lease does not lapse, what has passed and
what is due make up the script of two-phase commit all along (`SoloRun.follows`). The number of
moves is bounded, so the commit ends, with the calls and the answer of the script. -/

namespace LeasedCommit

/-! ## Along a run -/

section Runs

variable {rules : Rules} {ρ : Replies} {i : Nat} {x y : Transaction} {turns : List Turn}
  {s₀ : Stage}

/-- **What has passed and what is due make up the script.** The stage of the operation, and what is
known of it: the rest of the script is due, and the moves made and left are bounded by those left
at the start. -/
theorem SoloRun.follows (hx : x.Sound) (hs₀ : x.stage? i = some s₀)
    (hundisturbed : s₀.Undisturbed rules.rollForward.maxRetries.toNat x.record)
    (hbound : rules.rollForward.maxRetries.toNat + 1 < UInt32.size)
    (h : SoloRun rules ρ i x turns y) :
    ∃ s, y.stage? i = some s ∧ s.Undisturbed rules.rollForward.maxRetries.toNat y.record ∧
      (s.due ρ rules.rollForward.maxRetries.toNat y.record).run (history turns) =
        (s₀.due ρ rules.rollForward.maxRetries.toNat x.record).run [] ∧
      turns.length + s.movesLeft rules.rollForward.maxRetries.toNat y.record ≤
        s₀.movesLeft rules.rollForward.maxRetries.toNat x.record ∧
      y.record.registry.participants = x.record.registry.participants := by
  induction h with
  | start => exact ⟨s₀, hs₀, hundisturbed, rfl, by simp, rfl⟩
  | @next turns y z a counts hrun hstep hi hintime hgives ih =>
      obtain ⟨s, hs, hquiet, hdue, hleft, hparties⟩ := ih
      have hy := hrun.run.sound hx
      have hw : ∀ w, s ≠ .awaiting w := by
        rintro w rfl
        exact hquiet
      obtain ⟨r', s', hgo, hmoved⟩ := Transaction.go?_of_step hs hw hi hstep
      have hnext :
          s.Continues ρ rules.rollForward.maxRetries.toNat (history turns) y.record a r' s' :=
        Stage.continues (hy.fits i s hs) hbound hquiet hintime (fun c => hgives s c hs) hgo
      refine ⟨s', hmoved.stage?_self, ?_, ?_, ?_, ?_⟩
      · rw [hmoved.record]
        exact hnext.undisturbed
      · rw [hmoved.record, history_concat, hmoved.events hi, ← hnext.due, hdue]
      · have hlt := hnext.movesLeft
        rw [hmoved.record, List.length_append, List.length_singleton]
        omega
      · rw [← hparties]
        rcases Transaction.step_cases hy.shape hy.fits hstep with
          ⟨q, rfl, -⟩ | ⟨j, s₁, r₁, s₁', hj, hm, hmoved₁⟩
        · cases hi
        · obtain rfl : j = i := Option.some.inj (hj.symm.trans hi)
          obtain rfl : s₁ = s := Option.some.inj (hmoved₁.stage.symm.trans hs)
          rcases hm.participants with hsame | ⟨p, rfl, -⟩
          · rw [hmoved₁.record, hsame]
          · cases hquiet.1

/-- A commit that has the record to itself is finished or can move on. -/
theorem SoloRun.finished_or_next (hx : x.Sound) (hrested : x.Rested) (hs₀ : x.stage? i = some s₀)
    (hundisturbed : s₀.Undisturbed rules.rollForward.maxRetries.toNat x.record)
    (hbound : rules.rollForward.maxRetries.toNat + 1 < UInt32.size)
    (h : SoloRun rules ρ i x turns y) :
    (∃ answer, y.stage? i = some (.finished answer)) ∨
      ∃ t z, SoloRun rules ρ i x (turns ++ [t]) z := by
  obtain ⟨s, hs, hquiet, -⟩ := h.follows hx hs₀ hundisturbed hbound
  by_cases hover : ∃ answer, s = .finished answer
  · obtain ⟨answer, rfl⟩ := hover
    exact .inl ⟨answer, hs⟩
  · have hawake : i ∉ y.asleep := by
      refine (h.run.rested hx hrested).awake hs ?_
      rintro w rfl
      exact hquiet
    have hmoves : ∃ a r' s', a.operation? = some i ∧ a.InTime y.record.lease ∧
        (∀ c, s.call? = some c → ρ.Gives (history turns) c a) ∧
          s.go? rules y.record a = some (r', s') :=
      Stage.exists_go i _ hquiet (fun answer heq => hover ⟨answer, heq⟩) (history turns)
    obtain ⟨a, r', s', hi, hintime, hgives, hgo⟩ := hmoves
    obtain ⟨z, counts, hstep⟩ := Transaction.step_of_go? hs hawake hi hgo
    refine .inr ⟨_, z, h.next hstep hi hintime fun s₁ c hs₁ hc => ?_⟩
    obtain rfl := Option.some.inj (hs₁.symm.trans hs)
    exact hgives c hc

/-- A commit that has the record to itself can be finished. -/
theorem SoloRun.completes (hx : x.Sound) (hrested : x.Rested) (hs₀ : x.stage? i = some s₀)
    (hundisturbed : s₀.Undisturbed rules.rollForward.maxRetries.toNat x.record)
    (hbound : rules.rollForward.maxRetries.toNat + 1 < UInt32.size)
    (h : SoloRun rules ρ i x turns y) :
    ∃ more z answer, SoloRun rules ρ i x (turns ++ more) z ∧
      z.stage? i = some (.finished answer) := by
  -- by induction on the number of moves that can still be made
  generalize hn : s₀.movesLeft rules.rollForward.maxRetries.toNat x.record - turns.length = n
  induction n generalizing turns y with
  | zero =>
      rcases h.finished_or_next hx hrested hs₀ hundisturbed hbound with ⟨answer, hover⟩ | ⟨t, z, hz⟩
      · exact ⟨[], y, answer, by simpa using h, hover⟩
      · obtain ⟨s, -, -, -, hleft, -⟩ := hz.follows hx hs₀ hundisturbed hbound
        rw [List.length_append, List.length_singleton] at hleft
        omega
  | succ n ih =>
      rcases h.finished_or_next hx hrested hs₀ hundisturbed hbound with ⟨answer, hover⟩ | ⟨t, z, hz⟩
      · exact ⟨[], y, answer, by simpa using h, hover⟩
      · have hfewer : s₀.movesLeft rules.rollForward.maxRetries.toNat x.record -
            (turns ++ [t]).length = n := by
          rw [List.length_append, List.length_singleton]
          omega
        obtain ⟨more, last, answer, hlast, hover⟩ := ih hz hfewer
        exact ⟨t :: more, last, answer, by simpa using hlast, hover⟩

end Runs

/-! ## The main result -/

/-- **Commit is two-phase commit.** Take any active record, whatever has been called on it, and a
commit that is called on it and has it to itself from then on: nothing else moves, and the lease
has not lapsed whenever the clock is read. However the parties reply, and however their replies
depend on what has passed, the calls and the answer are those of `Script.twoPhase`:

* up to any moment, what has passed is a beginning of what the script says;
* a finished commit has made all calls of the script and answers what the script answers. It does
  not panic;
* it has made at most so many moves, and can always be finished.

Every call to a slot goes to the party that has joined there. -/
theorem commit_follows_twoPhase {rules : Rules} {id : TransactionId} {request : LeaseRequest}
    {now : Timestamp} {before : List Turn} {x : Transaction} {i : Nat}
    (hbefore : Run rules (Transaction.opened rules.lease id request now) before x)
    (hactive : x.record.phase = .active) (hi : x.stage? i = some (.requested .commit))
    (hbound : rules.rollForward.maxRetries.toNat + 1 < UInt32.size) (ρ : Replies) :
    ∃ answer events,
      (Script.twoPhase ρ rules.rollForward.maxRetries.toNat x.record.id
        x.record.registry.participants).run [] = (answer, events) ∧
      ∀ turns y, SoloRun rules ρ i x turns y →
        history turns <+: events ∧
        (∀ a, y.stage? i = some (.finished a) → a = answer ∧ history turns = events) ∧
        (∀ message, y.stage? i ≠ some (.panicked message)) ∧
        turns.length ≤ x.record.registry.size * (2 * rules.rollForward.maxRetries.toNat + 4) + 7 ∧
        (∃ more z, SoloRun rules ρ i x (turns ++ more) z ∧
          z.stage? i = some (.finished answer) ∧ history (turns ++ more) = events) ∧
        ∀ c ∈ callsMade turns,
          x.record.registry.participants[c.position]? = some c.participant := by
  have h₀ := Transaction.sound_opened rules.lease id request now
  have hx := hbefore.sound h₀
  have hrested := hbefore.rested h₀ (Transaction.rested_opened rules.lease id request now)
  have hundisturbed : (Stage.requested .commit).Undisturbed rules.rollForward.maxRetries.toNat
      x.record := ⟨rfl, hactive⟩
  obtain ⟨answer, events, hscript⟩ : ∃ answer events,
      (Script.twoPhase ρ rules.rollForward.maxRetries.toNat x.record.id
        x.record.registry.participants).run [] = (answer, events) := ⟨_, _, rfl⟩
  -- a finished commit leaves nothing due
  have hfinished : ∀ turns y a, SoloRun rules ρ i x turns y → y.stage? i = some (.finished a) →
      a = answer ∧ history turns = events := by
    intro turns y a hrun ha
    obtain ⟨s, hs, -, hdue, -⟩ := hrun.follows hx hi hundisturbed hbound
    obtain rfl := Option.some.inj (hs.symm.trans ha)
    exact Prod.mk.inj (hdue.trans hscript)
  refine ⟨answer, events, hscript, fun turns y hrun => ?_⟩
  obtain ⟨s, hs, hquiet, -, hleft, hparties⟩ := hrun.follows hx hi hundisturbed hbound
  obtain ⟨more, z, a, hmore, ha⟩ := hrun.completes hx hrested hi hundisturbed hbound
  obtain ⟨rfl, hevents⟩ := hfinished _ z a hmore ha
  refine ⟨?_, fun a' ha' => hfinished turns y a' hrun ha', fun message hpanic => ?_, ?_,
    ⟨more, z, hmore, ha, hevents⟩, fun c hc => ?_⟩
  · rw [← hevents, history_append]
    exact List.prefix_append _ _
  · obtain rfl := Option.some.inj (hs.symm.trans hpanic)
    exact hquiet
  · simp only [Stage.movesLeft] at hleft
    omega
  · have hwhole : Run rules (Transaction.opened rules.lease id request now) (before ++ turns) y :=
      hbefore.trans hrun.run
    have hmem : c ∈ callsMade (before ++ turns) := by
      rw [callsMade, List.filterMap_append]
      exact List.mem_append_right _ hc
    rw [← hparties]
    exact hwhole.callee h₀ (Transaction.addressed_opened ..) hmem

/-- Everybody votes for the commit. The first commit call to slot 0 is lost, and the only one to
slot 1 is refused. -/
def oneCallLost : Replies where
  vote _ _ := .answered .prepared
  combined _ := .answered .committed
  told past position _ :=
    if position = 1 then .failed (.protocol "refused")
    else if past.length = 5 then .failed (.communication "lost")
    else .answered ()

/-- A commit among two parties repeats the lost call, gives up the refused one and reports it. -/
theorem commit_follows_twoPhase_with_losses :
    ∃ before x turns y,
      Run { lease := .standard, rollForward := { maxRetries := 1, backoff := .zero } }
        (Transaction.opened .standard ⟨1⟩ .forever .epoch) before x ∧
      x.record.phase = .active ∧ x.stage? 2 = some (.requested .commit) ∧
      SoloRun { lease := .standard, rollForward := { maxRetries := 1, backoff := .zero } }
        oneCallLost 2 x turns y ∧
      y.stage? 2 = some (.finished (.committed
        { id := ⟨1⟩, participants := 2
          failures := [{ position := 1, error := .protocol "refused", attempts := 1 }] })) ∧
      history turns =
        [.called 0 .prepare, .voted 0 (.returned (.answered .prepared)),
          .called 1 .prepare, .voted 1 (.returned (.answered .prepared)),
          .called 0 .commit, .told 0 .commit (.returned (.failed (.communication "lost"))),
          .called 0 .commit, .told 0 .commit (.returned (.answered ())),
          .called 1 .commit, .told 1 .commit (.returned (.failed (.protocol "refused")))] := by
  have hbefore : Run { lease := .standard, rollForward := { maxRetries := 1, backoff := .zero } }
      (Transaction.opened .standard ⟨1⟩ .forever .epoch) _ _ :=
    Run.of_play (twoPartyCommit.take 5) rfl
  obtain ⟨answer, events, hscript, hruns⟩ :=
    commit_follows_twoPhase hbefore (i := 2) rfl rfl (by decide) oneCallLost
  obtain ⟨rfl, rfl⟩ := Prod.mk.inj hscript
  obtain ⟨-, -, -, -, ⟨turns, y, hrun, hanswer, hevents⟩, -⟩ := hruns [] _ .start
  exact ⟨_, _, turns, y, hbefore, rfl, rfl, hrun, hanswer, hevents⟩

end LeasedCommit