import LeasedCommit.Proofs.Parties
import LeasedCommit.Proofs.TwoPhase
import LeasedCommit.Proofs.Waiters

set_option autoImplicit false

/-! # A commit that has the record to itself

A `SoloRun` is a run in which one operation moves and nothing else does, its lease does not lapse
and its calls come back with given replies. For a commit `Stage.due` says what is left of the
script of two-phase commit at each stage, and `Stage.Continues` that a move makes the calls that
come next in the script and leaves the rest due. This file proves it for the delivery of a
decision. -/

namespace LeasedCommit

/-! ## Runs of one operation -/

/-- The lease has not lapsed when a visit reads the clock. -/
def Action.InTime (l : Lease) : Action → Prop
  | .visit _ t => l.hasLapsed t.first = false ∧ l.hasLapsed t.second = false ∧
      l.hasLapsed t.third = false
  | _ => True

/-- `SoloRun rules ρ i x turns y`: operation `i` moves alone from `x` to `y`. Its visits are in
time, and its calls come back with the replies `ρ`. -/
inductive SoloRun (rules : Rules) (ρ : Replies) (i : Nat) (x : Transaction) :
    List Turn → Transaction → Prop
  | start : SoloRun rules ρ i x [] x
  | next {turns : List Turn} {y z : Transaction} {action : Action} {counts : OutcomeCounts} :
    SoloRun rules ρ i x turns y → y.step rules action = some (z, counts) →
      action.operation? = some i → action.InTime y.record.lease →
      (∀ s c, y.stage? i = some s → s.call? = some c → ρ.Gives (history turns) c action) →
      SoloRun rules ρ i x (turns ++ [{ before := y, action := action, after := z }]) z

theorem SoloRun.run {rules : Rules} {ρ : Replies} {i : Nat} {x y : Transaction}
    {turns : List Turn} (h : SoloRun rules ρ i x turns y) : Run rules x turns y := by
  induction h with
  | start => exact .start
  | next _ hstep _ _ _ ih => exact ih.next hstep

/-- What a move of an operation makes of the record and its stage, unless it waits for others. -/
def Stage.go? (rules : Rules) (r : Record) (s : Stage) : Action → Option (Record × Stage)
  | .visit _ t => (s.visit? rules.lease r t).map fun v => (v.record, v.next)
  | .vote _ reply => (s.hearVote reply).map fun s' => (r, s')
  | .combinedVote _ reply => (s.hearCombined reply).map fun s' => (r, s')
  | .acknowledge _ reply => (s.hearDone rules.rollForward r.id reply).map fun s' => (r, s')
  | .resume _ => s.resume.map fun s' => (r, s')
  | .begin _ | .giveUp _ => none

namespace Transaction

variable {rules : Rules} {y z : Transaction} {a : Action} {i : Nat} {s s' : Stage} {r' : Record}

theorem go?_of_step {counts : OutcomeCounts} (hs : y.stage? i = some s)
    (hw : ∀ w, s ≠ .awaiting w) (hi : a.operation? = some i)
    (h : y.step rules a = some (z, counts)) :
    ∃ r' s', s.go? rules y.record a = some (r', s') ∧ y.Moved i s r' s' z := by
  cases a with
  | begin q => cases hi
  | visit j t =>
      obtain rfl : j = i := Option.some.inj hi
      simp only [step] at h
      split at h
      · cases h
      · simp only [hs, Option.bind_some, Option.map_eq_some_iff, Prod.mk.injEq] at h
        obtain ⟨v, hv, rfl, -⟩ := h
        exact ⟨v.record, v.next, by simp [Stage.go?, hv], hs, rfl, rfl⟩
  | vote j reply | combinedVote j reply | acknowledge j reply | resume j =>
      obtain rfl : j = i := Option.some.inj hi
      simp only [step, hs, Option.bind_some, Option.map_eq_some_iff, Prod.mk.injEq] at h
      obtain ⟨s', hs', rfl, -⟩ := h
      exact ⟨y.record, s', by simp [Stage.go?, hs'], hs, rfl, rfl⟩
  | giveUp j =>
      obtain rfl : j = i := Option.some.inj hi
      simp only [step, hs] at h
      split at h
      · rename_i target hstage
        exact absurd (Option.some.inj hstage) (hw _)
      · cases h

theorem step_of_go? (hs : y.stage? i = some s) (hawake : i ∉ y.asleep)
    (hi : a.operation? = some i) (h : s.go? rules y.record a = some (r', s')) :
    ∃ z counts, y.step rules a = some (z, counts) := by
  cases a with
  | begin q | giveUp j => cases h
  | visit j t =>
      obtain rfl : j = i := Option.some.inj hi
      obtain ⟨v, hv, -⟩ := Option.map_eq_some_iff.mp h
      exact ⟨y.visit j v, v.counts, by simp [step, hawake, hs, hv]⟩
  | vote j reply | combinedVote j reply | acknowledge j reply | resume j =>
      obtain rfl : j = i := Option.some.inj hi
      obtain ⟨s', hs', -⟩ := Option.map_eq_some_iff.mp h
      exact ⟨y.put j s', .zero, by simp [step, hs, hs']⟩

end Transaction

/-! ## What is due -/

namespace Script

variable (ρ : Replies)

/-- Go on with the poll after the vote of a slot. -/
def pollOn (position left : Nat) (vote : Response Vote) : Script (Option AbortCause) :=
  match vote.refusal? position with
  | some cause => return some cause
  | none => poll ρ (position + 1) left

theorem poll_succ (position left : Nat) :
    poll ρ position (left + 1) = (do
      call position .prepare
      pollOn ρ position left (← receiveVote ρ position)) := rfl

end Script

section Due

open Script

/-- What is left of the script when a commit stands at a stage. -/
def Stage.due (ρ : Replies) (retries : Nat) (r : Record) : Stage → Script Answer
  | .requested _ | .askingSole => twoPhase ρ retries r.id r.registry.participants
  | .asking k n => do conclude ρ retries r.id n (← poll ρ k (n - k))
  | .votePending k n _ => do
    conclude ρ retries r.id n (← pollOn ρ k (n - (k + 1)) (← receiveVote ρ k))
  | .voteHeard k n vote => do conclude ρ retries r.id n (← pollOn ρ k (n - (k + 1)) vote)
  | .solePending _ exchange => do concludeSole ρ retries r.id (← receiveSole ρ exchange)
  | .soleHeard vote => concludeSole ρ retries r.id vote
  | .deciding => conclude ρ retries r.id r.registry.size none
  | .rollingForward => do
    let failures ← commitEach ρ retries (r.registry.claimable.map Claim.position)
    return .committed { id := r.id, participants := r.registry.size, failures := failures }
  | .commitPending d => do
    let failure ← confirm ρ d.claim.position d.attempts.toNat (retries + 1 - d.attempts.toNat)
    let failures ← commitEach ρ retries (d.rest.map Claim.position)
    return .committed { id := r.id, participants := d.participants,
                        failures := d.failures ++ failure.toList ++ failures }
  | .pausing d => do
    call d.claim.position .commit
    let failure ← confirm ρ d.claim.position (d.attempts.toNat + 1) (retries - d.attempts.toNat)
    let failures ← commitEach ρ retries (d.rest.map Claim.position)
    return .committed { id := r.id, participants := d.participants,
                        failures := d.failures ++ failure.toList ++ failures }
  | .reporting report => return .committed report
  | .abandoning => do
    abortEach ρ (r.registry.claimable.map Claim.position)
    return .refused r.cannotCommit
  | .abortPending _ claim rest answer => do
    let _ ← receiveDone ρ claim.position .abort
    abortEach ρ (rest.map Claim.position)
    return answer
  | .finished answer => return answer
  -- a commit that has the record to itself does not get here
  | .awaiting _ | .unwinding _ | .panicked _ => return .timedOut

/-- What a commit that has the record to itself can rely on besides `Stage.Fits`. -/
def Stage.Undisturbed (retries : Nat) (r : Record) : Stage → Prop
  | .requested q => q = .commit ∧ r.phase = .active
  | .asking .. | .votePending .. | .voteHeard .. | .askingSole | .solePending .. | .soleHeard _
  | .deciding => r.phase = .voting
  | .pausing d => d.attempts.toNat ≤ retries
  | .rollingForward | .commitPending _ | .reporting _ | .abandoning | .abortPending ..
  | .finished _ => True
  | .awaiting _ | .unwinding _ | .panicked _ => False

/-- How many moves a commit can make at most from a stage. -/
def Stage.movesLeft (retries : Nat) (r : Record) : Stage → Nat
  | .finished _ | .awaiting _ | .unwinding _ | .panicked _ => 0
  | .reporting _ => 1
  | .abortPending _ _ rest _ => rest.length + 1
  | .abandoning => r.registry.size + 1
  | .commitPending d =>
    d.rest.length * (2 * retries + 1) + 2 * (retries + 1 - d.attempts.toNat) + 2
  | .pausing d => d.rest.length * (2 * retries + 1) + 2 * (retries + 1 - d.attempts.toNat) + 1
  | .rollingForward => r.registry.size * (2 * retries + 1) + 2
  | .deciding | .soleHeard _ => r.registry.size * (2 * retries + 1) + 3
  | .solePending _ .voting => r.registry.size * (2 * retries + 1) + 5
  | .solePending _ _ => r.registry.size * (2 * retries + 1) + 4
  | .askingSole => r.registry.size * (2 * retries + 1) + 6
  | .asking k n => r.registry.size * (2 * retries + 1) + 3 * (n - k) + 3
  | .votePending k n _ => r.registry.size * (2 * retries + 1) + 3 * (n - k) + 2
  | .voteHeard k n _ => r.registry.size * (2 * retries + 1) + 3 * (n - k) + 1
  | .requested _ => r.registry.size * (2 * retries + 4) + 7

end Due

/-- A move of a commit from stage `s` to stage `s'` makes the calls that are due first, and leaves
the others due. -/
structure Stage.Continues (ρ : Replies) (retries : Nat) (past : List Event) (r : Record)
    (s : Stage) (a : Action) (r' : Record) (s' : Stage) : Prop where
  undisturbed : s'.Undisturbed retries r'
  due : (s.due ρ retries r).run past = (s'.due ρ retries r').run (past ++ (a.ends s ++ s'.begins))
  movesLeft : s'.movesLeft retries r' < s.movesLeft retries r

namespace Stage

variable {ρ : Replies} {rules : Rules} {r r' : Record} {past : List Event} {i : Nat} {t : Readings}

open Script

/-! ## Delivering -/

theorem due_deliverAborts (retries : Nat) (owner : Bool) (owed : List Claim) (answer : Answer) :
    ((deliverAborts owner owed answer).due ρ retries r).run
        (past ++ (deliverAborts owner owed answer).begins) =
      (do abortEach ρ (owed.map Claim.position); return answer : Script Answer).run past := by
  cases owed with
  | nil => exact congrArg (Prod.mk answer) (List.append_nil past)
  | cons c rest => rfl

theorem due_deliverCommits (retries : Nat) (n : Nat) (owed : List Claim)
    (failures : List CommitFailure) :
    ((deliverCommits r.id n owed failures).due ρ retries r).run
        (past ++ (deliverCommits r.id n owed failures).begins) =
      (do let more ← commitEach ρ retries (owed.map Claim.position)
          return .committed { id := r.id, participants := n, failures := failures ++ more }
        : Script Answer).run past := by
  cases owed with
  | nil =>
      show (_, past ++ []) = (_, past)
      rw [List.append_nil, List.append_nil]
  | cons c rest =>
      simp only [deliverCommits, due, begins, List.map_cons, commitEach, run_bind, run_pure,
        List.append_assoc]
      rfl

theorem movesLeft_deliverAborts (retries : Nat) (owner : Bool) (owed : List Claim)
    (answer : Answer) : (deliverAborts owner owed answer).movesLeft retries r = owed.length := by
  cases owed <;> rfl

theorem movesLeft_deliverCommits (retries : Nat) (n : Nat) (owed : List Claim)
    (failures : List CommitFailure) :
    (deliverCommits r.id n owed failures).movesLeft retries r =
      owed.length * (2 * retries + 1) + 1 := by
  cases owed with
  | nil => simp [deliverCommits, movesLeft]
  | cons c rest =>
      have hone : (1 : UInt32).toNat = 1 := rfl
      simp only [deliverCommits, movesLeft, List.length_cons, hone]
      rw [Nat.add_mul]
      omega

theorem undisturbed_deliverAborts (retries : Nat) (owner : Bool) (owed : List Claim)
    (answer : Answer) : (deliverAborts owner owed answer).Undisturbed retries r := by
  cases owed <;> trivial

theorem undisturbed_deliverCommits (retries : Nat) (n : Nat) (owed : List Claim)
    (failures : List CommitFailure) :
    (deliverCommits r.id n owed failures).Undisturbed retries r := by
  cases owed <;> trivial

/-- There are no more claims than slots. -/
theorem length_claimable_le (g : Registry) : g.claimable.length ≤ g.size := by
  calc g.claimable.length = (g.claimable.map Claim.position).length := by rw [List.length_map]
    _ ≤ (List.range g.size).length := by
        rw [g.positions_claimable]
        exact List.length_filter_le _ _
    _ = g.size := List.length_range

theorem continues_rollForward (retries : Nat) :
    Continues ρ retries past r .rollingForward (.visit i t) r.rollForward.record
      r.rollForward.next where
  undisturbed := undisturbed_deliverCommits ..
  due := (due_deliverCommits (r := r.rollForward.record) retries r.registry.size
    r.registry.claimable []).symm
  movesLeft := by
    have hle : r.registry.claimable.length * (2 * retries + 1) ≤
        r.registry.size * (2 * retries + 1) := Nat.mul_le_mul_right _ (length_claimable_le _)
    show (deliverCommits r.rollForward.record.id _ _ _).movesLeft retries r.rollForward.record < _
    rw [movesLeft_deliverCommits]
    simp only [movesLeft]
    omega

theorem continues_abandon (retries : Nat) :
    Continues ρ retries past r .abandoning (.visit i t) r.abandon.record r.abandon.next where
  undisturbed := undisturbed_deliverAborts ..
  due := (due_deliverAborts (r := r.abandon.record) retries true r.registry.claimable
    (.refused r.cannotCommit)).symm
  movesLeft := by
    have hle := length_claimable_le r.registry
    show (deliverAborts true r.registry.claimable _).movesLeft retries r.abandon.record < _
    rw [movesLeft_deliverAborts]
    simp only [movesLeft]
    omega

theorem continues_abortReturns (retries : Nat) {owner : Bool} {claim : Claim} {rest : List Claim}
    {answer : Answer} {reply : Reply Unit}
    (hreply : reply = .returned (ρ.told past claim.position .abort)) :
    Continues ρ retries past r (.abortPending owner claim rest answer) (.acknowledge i reply) r
      (deliverAborts owner rest answer) where
  undisturbed := undisturbed_deliverAborts ..
  due := by
    rw [← List.append_assoc, due_deliverAborts, hreply]
    rfl
  movesLeft := by
    rw [movesLeft_deliverAborts]
    exact Nat.lt_succ_self _

/-- A claim is dealt with: the next one is called. -/
theorem continues_confirmed (retries : Nat) {d : Delivery} {response : Response Unit}
    (failure : Option CommitFailure) (hend : (confirm ρ d.claim.position d.attempts.toNat
      (retries + 1 - d.attempts.toNat)).run past =
        (failure, past ++ [.told d.claim.position .commit (.returned response)])) :
    Continues ρ retries past r (.commitPending d) (.acknowledge i (.returned response)) r
      (deliverCommits r.id d.participants d.rest (d.failures ++ failure.toList)) where
  undisturbed := undisturbed_deliverCommits ..
  due := by
    rw [← List.append_assoc, due_deliverCommits, due, run_bind, hend]
    rfl
  movesLeft := by
    rw [movesLeft_deliverCommits]
    simp only [movesLeft]
    omega

/-- The number of a call counts the calls before it, as long as the repetitions are not used up. -/
theorem toNat_succ_attempts {retries : Nat} {attempts : UInt32} (hle : attempts.toNat ≤ retries)
    (hbound : retries + 1 < UInt32.size) : (attempts + 1).toNat = attempts.toNat + 1 := by
  have hone : (1 : UInt32).toNat = 1 := rfl
  rw [UInt32.toNat_add, hone]
  simp only [UInt32.size] at hbound
  exact Nat.mod_eq_of_lt (by omega)

theorem continues_commitReturns {d : Delivery} {reply : Reply Unit}
    (hreply : reply = .returned (ρ.told past d.claim.position .commit)) {s' : Stage}
    (h : (Stage.commitPending d).hearDone rules.rollForward r.id reply = some s') :
    Continues ρ rules.rollForward.maxRetries.toNat past r (.commitPending d)
      (.acknowledge i reply) r s' := by
  subst hreply
  generalize hm : rules.rollForward.maxRetries.toNat = retries
  -- whether the call can be repeated
  have hleft : d.attempts ≤ rules.rollForward.maxRetries ↔ d.attempts.toNat ≤ retries := by
    rw [← hm]
    exact UInt32.le_iff_toNat_le
  generalize hresponse : ρ.told past d.claim.position .commit = response at h
  have hattempts : UInt32.ofNat d.attempts.toNat = d.attempts := UInt32.ofNat_toNat
  cases response with
  | answered answer =>
      obtain rfl := Option.some.inj h
      have hnone : d.failures = d.failures ++ (none : Option CommitFailure).toList :=
        (List.append_nil _).symm
      rw [hnone]
      refine continues_confirmed retries none ?_
      cases retries + 1 - d.attempts.toNat <;>
        simp only [confirm, receiveDone, run_receive_bind, hresponse, run_pure]
  | failed error =>
      simp only [hearDone, RollForwardPolicy.repeats, Bool.and_eq_true, decide_eq_true_eq,
        hleft] at h
      split at h
      · rename_i hrepeats
        obtain rfl := Option.some.inj h
        obtain ⟨hlost, hle⟩ := hrepeats
        obtain ⟨message, rfl⟩ : ∃ message, error = .communication message := by
          cases error with
          | communication message => exact ⟨message, rfl⟩
          | protocol message => cases hlost
        have hsucc : retries + 1 - d.attempts.toNat = (retries - d.attempts.toNat) + 1 := by omega
        refine ⟨hle, ?_, by simp only [movesLeft]; omega⟩
        have hrepeat : (confirm ρ d.claim.position d.attempts.toNat
            (retries + 1 - d.attempts.toNat)).run past =
              (do call d.claim.position .commit
                  confirm ρ d.claim.position (d.attempts.toNat + 1)
                    (retries - d.attempts.toNat)).run
                (past ++ [Event.told d.claim.position .commit
                  (.returned (.failed (.communication message)))]) := by
          simp only [hsucc, confirm, receiveDone, run_receive_bind, hresponse]
        rw [due, run_bind, hrepeat]
        rfl
      · rename_i hstops
        obtain rfl := Option.some.inj h
        refine continues_confirmed retries (some ⟨d.claim.position, error, d.attempts⟩) ?_
        cases hcount : retries + 1 - d.attempts.toNat with
        | zero =>
            simp only [confirm, receiveDone, run_receive_bind, hresponse, run_pure, hattempts]
        | succ left =>
            cases error with
            | communication message => exact absurd ⟨rfl, by omega⟩ hstops
            | protocol message =>
                simp only [confirm, receiveDone, run_receive_bind, hresponse, run_pure, hattempts]

theorem continues_resume (hbound : rules.rollForward.maxRetries.toNat + 1 < UInt32.size)
    {d : Delivery} (hle : d.attempts.toNat ≤ rules.rollForward.maxRetries.toNat) :
    Continues ρ rules.rollForward.maxRetries.toNat past r (.pausing d) (.resume i) r
      (.commitPending { d with attempts := d.attempts + 1 }) := by
  generalize rules.rollForward.maxRetries.toNat = retries at hle hbound
  have hnext := toNat_succ_attempts hle hbound
  refine ⟨trivial, ?_, ?_⟩
  · have hleft : retries + 1 - (d.attempts.toNat + 1) = retries - d.attempts.toNat := by omega
    simp only [due, hnext, hleft]
    rfl
  · simp only [movesLeft, hnext]
    omega

end Stage

end LeasedCommit
