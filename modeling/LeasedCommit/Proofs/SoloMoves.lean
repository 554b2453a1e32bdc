import LeasedCommit.Proofs.SoloRun

set_option autoImplicit false

/-! # The moves of an undisturbed commit

A commit that has an active record to itself follows the script: its visits one by one, then the
calls that come back, and all together in `Stage.continues`. It can always make a move until it is
finished (`Stage.exists_go`). -/

namespace LeasedCommit

namespace Stage

variable {ρ : Replies} {rules : Rules} {r r' : Record} {past : List Event} {i : Nat} {t : Readings}

open Script

/-! ## Deciding -/

/-- Once everybody is prepared, everybody is told to commit. -/
theorem due_committed (retries : Nat) (hpoll : r.registry.PolledTo r.registry.size .joined)
    (now : Timestamp) :
    rollingForward.due ρ retries (r.committed now) =
      conclude ρ retries r.id r.registry.size none := by
  have howed : (r.committed now).registry.claimable.map Claim.position =
      List.range r.registry.size := by
    rw [Registry.positions_claimable]
    refine List.filter_eq_self.mpr fun j hj => ?_
    obtain ⟨p, hp⟩ := Registry.lt_size_iff.mp (List.mem_range.mp hj)
    obtain rfl := hpoll.all_prepared hp
    exact Registry.canClaim_iff.mpr ⟨.prepared, hp, rfl⟩
  rw [due, howed]
  rfl

/-- After a refusal everybody is told to abort who has not voted to abort. -/
theorem due_refused (retries : Nat) {k : Nat} (hk : r.registry.progress? k = some .preparing)
    (hpoll : r.registry.PolledTo k .preparing) {p : Progress} {cause : AbortCause}
    (hself : p.acceptsDecision = decide (cause ≠ .votedAbort k))
    (hothers : ∀ j, j ≠ k → cause ≠ .votedAbort j) (now : Timestamp) :
    abandoning.due ρ retries
        ((r.aborted r.lease cause now).withRegistry (r.registry.freeze.setProgress k p)) =
      conclude ρ retries r.id r.registry.size (some cause) := by
  have howed : (r.registry.freeze.setProgress k p).claimable.map Claim.position =
      (List.range r.registry.size).filter fun j => cause ≠ .votedAbort j := by
    rw [Registry.positions_claimable, Registry.size_setProgress, Registry.size_freeze]
    refine List.filter_congr fun j hj => ?_
    rw [Registry.canClaim_setProgress]
    by_cases hj' : k = j
    · subst hj'
      rw [if_pos rfl, Registry.progress?_freeze, hk, hself]
      rfl
    · -- to the slots beside it nothing was sent that settles them
      obtain ⟨q, hq⟩ := Registry.lt_size_iff.mp (List.mem_range.mp hj)
      rw [if_neg hj', decide_eq_true (hothers j (Ne.symm hj'))]
      rcases hpoll.progress_cases hq with rfl | rfl | ⟨rfl, -⟩
      · exact Registry.canClaim_iff.mpr ⟨_, hq, rfl⟩
      · exact Registry.canClaim_iff.mpr ⟨_, hq, rfl⟩
      · exact absurd rfl hj'
  have hrefused : ((r.aborted r.lease cause now).withRegistry
      (r.registry.freeze.setProgress k p)).cannotCommit = .cannotCommit r.id cause := rfl
  rw [due, hrefused, Record.withRegistry_registry, howed]
  rfl

/-! ## Voting -/

theorem openVote_active (hp : r.phase = .active) (hl : r.lease.hasLapsed t.first = false) :
    r.openVote t = { record := r.voting, counts := .zero, wakes := true
                     next := Record.firstQuestion r.registry.size } := by
  simp [Record.openVote, Record.expire?, hp, hl, Record.moved, Record.move?, Phase.canBecome,
    Phase.isTerminal, Record.voting]

theorem continues_openVote (retries : Nat) (hp : r.phase = .active)
    (hl : r.lease.hasLapsed t.first = false) :
    Continues ρ retries past r (.requested .commit) (.visit i t) (r.openVote t).record
      (r.openVote t).next := by
  have hlength := r.registry.length_participants
  rw [openVote_active hp hl]
  generalize hn : r.registry.size = n at hlength ⊢
  match n with
  | 0 =>
      have hnobody : r.registry.participants = [] := List.length_eq_zero_iff.mp hlength
      refine ⟨rfl, ?_, ?_⟩
      · have hsize : r.voting.registry.size = 0 := hn
        simp only [Record.firstQuestion, due, hnobody, hsize]
        show _ = (_, past ++ [])
        rw [List.append_nil]
        rfl
      · simp only [Record.firstQuestion, movesLeft, Record.voting_registry,
          Registry.size_freeze, hn]
        omega
  | 1 =>
      refine ⟨rfl, ?_, ?_⟩
      · show _ = (due ρ retries r.voting .askingSole).run (past ++ [])
        rw [List.append_nil]
        rfl
      · simp only [Record.firstQuestion, movesLeft, Record.voting_registry,
          Registry.size_freeze, hn]
        omega
  | n + 2 =>
      refine ⟨rfl, ?_, ?_⟩
      · show (due ρ retries r (.requested .commit)).run past =
          (due ρ retries r.voting (.asking 0 (n + 2))).run (past ++ [])
        rw [List.append_nil, due, due, twoPhase_of_several ρ retries r.id hlength]
        rfl
      · simp only [Record.firstQuestion, movesLeft, Record.voting_registry,
          Registry.size_freeze, hn]
        rw [Nat.mul_add _ _ 1, Nat.mul_add _ _ 4]
        omega

theorem continues_ask (retries : Nat) {k n : Nat} (hp : r.phase = .voting) (hk : k < n)
    (hj : r.registry.progress? k = some .joined) :
    Continues ρ retries past r (.asking k n) (.visit i t) (r.askSlot k n).record
      (r.askSlot k n).next := by
  obtain ⟨p, hask⟩ := Registry.ask?_of_joined hj
  have hvisit : r.askSlot k n =
      (r.withRegistry (r.registry.setProgress k .preparing)).leave (.votePending k n p) := by
    rw [Record.askSlot, if_neg (by simp [hp]), hask]
    rfl
  rw [hvisit]
  have hleft : n - k = n - (k + 1) + 1 := by omega
  refine ⟨hp, ?_, ?_⟩
  · show (due ρ retries r (.asking k n)).run past = _
    rw [due, hleft, poll_succ]
    rfl
  · simp [movesLeft, Record.leave]

theorem continues_askSole (retries : Nat) (hp : r.phase = .voting) (hsize : r.registry.size = 1)
    (hj : r.registry.progress? 0 = some .joined) :
    Continues ρ retries past r .askingSole (.visit i t) (r.askSole t).record
      (r.askSole t).next := by
  obtain ⟨p, hask⟩ := Registry.ask?_of_joined hj
  have hvisit : r.askSole t =
      (r.withRegistry (r.registry.setProgress 0 .preparing)).leave
        (.solePending p (Exchange.first p)) := by
    rw [Record.askSole, if_neg (by simp [hp]), hask]
    rfl
  have hparties : r.registry.participants = [p] := by
    have hlength : r.registry.participants.length = 1 := by
      rw [Registry.length_participants, hsize]
    have hfirst := Registry.participants_of_ask? hask
    match r.registry.participants, hlength, hfirst with
    | [q], _, hfirst => rw [Option.some.inj hfirst]
  have hbegins : (solePending p (Exchange.first p)).begins = [.called 0 .prepareAndCommit] := by
    unfold Exchange.first
    split <;> rfl
  rw [hvisit]
  refine ⟨hp, ?_, ?_⟩
  · show (due ρ retries r .askingSole).run past =
      (due ρ retries _ (.solePending p (Exchange.first p))).run
        (past ++ ([] ++ (solePending p (Exchange.first p)).begins))
    rw [due, hparties, hbegins]
    rfl
  · by_cases hcombines : p.combines <;>
      simp [Record.leave, movesLeft, Exchange.first, hcombines]

theorem continues_voteReturns (retries : Nat) {k n : Nat} {p : Participant} {vote : Response Vote}
    (hp : r.phase = .voting) (hvote : vote = ρ.vote past k) :
    Continues ρ retries past r (.votePending k n p) (.vote i (.returned vote)) r
      (.voteHeard k n vote) := by
  subst hvote
  exact ⟨hp, rfl, Nat.lt_succ_self _⟩

/-- A refusal settles the slot and aborts the record. -/
theorem continues_refused (retries : Nat) {s : Stage} {v : Visit} {k : Nat} {p : Progress}
    (cause : AbortCause) (hp : r.phase = .voting)
    (hprogress : r.registry.progress? k = some .preparing)
    (hpoll : r.registry.PolledTo k .preparing)
    (hself : p.acceptsDecision = decide (cause ≠ .votedAbort k))
    (hothers : ∀ j, j ≠ k → cause ≠ .votedAbort j)
    (hdue : s.due ρ retries r = conclude ρ retries r.id r.registry.size (some cause))
    (hleft : r.registry.size + 1 < s.movesLeft retries r)
    (hvisit : v = ((r.resolved k p).decideAbort cause t.first).visit) :
    Continues ρ retries past r s (.visit i t) v.record v.next := by
  rw [hvisit, (resolved_decideAbort hprogress cause t.first).1 hp]
  refine ⟨trivial, ?_, ?_⟩
  · show _ = (due ρ retries ((r.aborted r.lease cause t.first).withRegistry
      (r.registry.freeze.setProgress k p)) .abandoning).run (past ++ [])
    rw [due_refused retries hprogress hpoll hself hothers, hdue, List.append_nil]
  · show (r.registry.freeze.setProgress k p).size + 1 < _
    rw [Registry.size_setProgress]
    exact hleft

/-- Aborting takes fewer moves than rolling forward. -/
theorem size_le_movesLeft (retries : Nat) (g : Registry) : g.size ≤ g.size * (2 * retries + 1) :=
  Nat.le_mul_of_pos_right _ (Nat.succ_pos _)

theorem continues_countVote (retries : Nat) {k n : Nat} {vote : Response Vote}
    (hp : r.phase = .voting) (hn : n = r.registry.size) (hk : k < n)
    (hprogress : r.registry.progress? k = some .preparing)
    (hpoll : r.registry.PolledTo k .preparing) :
    Continues ρ retries past r (.voteHeard k n vote) (.visit i t) (r.countVote k n vote t).record
      (r.countVote k n vote t).next := by
  have hleft : r.registry.size + 1 < (Stage.voteHeard k n vote).movesLeft retries r := by
    have hle := size_le_movesLeft retries r.registry
    simp only [movesLeft]
    omega
  rcases vote with (_ | _) | e
  · -- the vote goes on
    have hvisit : r.countVote k n (.answered .prepared) t =
        (r.withRegistry (r.registry.setProgress k .prepared)).leave (ask (k + 1) n) := by
      rw [Record.countVote, Record.resolved, Registry.resolve_of_preparing hprogress]
      rfl
    rw [hvisit]
    by_cases hlast : k + 1 < n
    · rw [ask, if_pos hlast]
      refine ⟨hp, congrArg _ (List.append_nil past).symm, ?_⟩
      simp only [Record.leave, movesLeft, Record.withRegistry_registry, Registry.size_setProgress]
      omega
    · have hnone : n - (k + 1) = 0 := by omega
      rw [ask, if_neg hlast]
      refine ⟨hp, ?_, ?_⟩
      · show _ = (conclude ρ retries r.id (r.registry.setProgress k .prepared).size none).run
          (past ++ [])
        rw [Registry.size_setProgress, List.append_nil, ← hn, due, hnone]
        rfl
      · simp only [Record.leave, movesLeft, Record.withRegistry_registry, Registry.size_setProgress]
        omega
  · refine continues_refused retries (.votedAbort k) hp hprogress hpoll
      (by simp [Progress.acceptsDecision]) (fun j hj heq => ?_) (by rw [due, hn]; rfl) hleft rfl
    exact hj (AbortCause.votedAbort.inj heq).symm
  · refine continues_refused retries (.prepareFailed k e) hp hprogress hpoll
      (by simp [Progress.acceptsDecision]) (fun j hj heq => ?_) (by rw [due, hn]; rfl) hleft rfl
    cases heq

/-! ## The only party -/

theorem continues_soleReturns (retries : Nat) {a : Action} {p : Participant} {e : Exchange}
    {vote : Response CombinedVote} (hp : r.phase = .voting) (hvote : vote = ρ.sole past e)
    (hends : a.ends (.solePending p e) = [.soleVoted (.returned vote)]) :
    Continues ρ retries past r (.solePending p e) a r (.soleHeard vote) := by
  subst hvote
  refine ⟨hp, ?_, ?_⟩
  · rw [hends]
    rfl
  · cases e <;> simp [movesLeft]

/-- The only party is prepared and is told to commit. -/
theorem continues_exchange (retries : Nat) {p : Participant} (hp : r.phase = .voting)
    (hvote : ρ.vote past 0 = .answered .prepared) :
    Continues ρ retries past r (.solePending p .voting)
      (.vote i (.returned (.answered .prepared))) r (.solePending p .committing) := by
  refine ⟨hp, ?_, Nat.lt_succ_self _⟩
  show (due ρ retries r (.solePending p .voting)).run past =
    (due ρ retries r (.solePending p .committing)).run (past ++ [])
  have hsole : ρ.sole past .voting = ρ.sole past .committing := by
    simp only [Replies.sole, hvote]
  simp only [due, receiveSole, run_receive_bind, hsole, List.append_nil]

theorem continues_countSole (retries : Nat) {vote : Response CombinedVote}
    (hp : r.phase = .voting) (hl : r.lease.hasLapsed t.first = false) (hsize : r.registry.size = 1)
    (hprogress : r.registry.progress? 0 = some .preparing)
    (hpoll : r.registry.PolledTo 0 .preparing) :
    Continues ρ retries past r (.soleHeard vote) (.visit i t) (r.countSole vote t).record
      (r.countSole vote t).next := by
  have hleft : r.registry.size + 1 < (Stage.soleHeard vote).movesLeft retries r := by
    have hle := size_le_movesLeft retries r.registry
    simp only [movesLeft]
    omega
  rcases vote with (_ | _) | e
  · -- the party has committed, and nobody is left to be told
    have hvisit : r.countSole (.answered .committed) t =
        { record := (r.committed t.first).withRegistry
            (r.registry.freeze.setProgress 0 (.settled .committedInPrepare))
          counts := .commit, wakes := true, next := .rollingForward } := by
      have hfreeze : r.registry.freeze.progress? 0 = some .preparing := hprogress
      simp only [Record.countSole, Record.decideCommit_valid hp hl, Record.Decision.visit,
        Record.resolved, Record.committed_registry, Registry.resolve_of_preparing hfreeze]
      rfl
    have hnobody : (r.registry.freeze.setProgress 0
        (.settled .committedInPrepare)).claimable.map Claim.position = [] := by
      have hclaim : (r.registry.freeze.setProgress 0
          (.settled .committedInPrepare)).canClaim 0 = false := by
        rw [Registry.canClaim_setProgress, if_pos rfl]
        exact Bool.and_false _
      rw [Registry.positions_claimable, Registry.size_setProgress, Registry.size_freeze, hsize]
      simp [List.range_succ, hclaim]
    rw [hvisit]
    refine ⟨trivial, ?_, ?_⟩
    · show _ = (due ρ retries ((r.committed t.first).withRegistry (r.registry.freeze.setProgress 0
        (.settled .committedInPrepare))) .rollingForward).run (past ++ [])
      simp only [due, Record.withRegistry_registry, hnobody, Registry.size_setProgress,
        Registry.size_freeze, hsize, List.append_nil]
      rfl
    · simp [movesLeft]
  · refine continues_refused retries (.votedAbort 0) hp hprogress hpoll
      (by simp [Progress.acceptsDecision]) (fun j hj heq => ?_) (by rw [due, hsize]; rfl) hleft rfl
    exact hj (AbortCause.votedAbort.inj heq).symm
  · refine continues_refused retries (.prepareFailed 0 e) hp hprogress hpoll
      (by simp [Progress.acceptsDecision]) (fun j hj heq => ?_) (by rw [due, hsize]; rfl) hleft rfl
    cases heq

theorem continues_decide (retries : Nat) (hp : r.phase = .voting)
    (hl : r.lease.hasLapsed t.first = false)
    (hpoll : r.registry.PolledTo r.registry.size .joined) :
    Continues ρ retries past r .deciding (.visit i t) (r.decideCommit t).visit.record
      (r.decideCommit t).visit.next := by
  rw [Record.decideCommit_valid hp hl]
  refine ⟨trivial, ?_, ?_⟩
  · show _ = (due ρ retries (r.committed t.first) .rollingForward).run (past ++ [])
    rw [due_committed retries hpoll, List.append_nil]
    rfl
  · simp [Record.Decision.visit, afterDecision, movesLeft]

theorem continues_file (retries : Nat) {report : CommitReport} :
    Continues ρ retries past r (.reporting report) (.visit i t) (r.file report).record
      (r.file report).next :=
  ⟨trivial, congrArg _ (List.append_nil past).symm, Nat.zero_lt_one⟩

/-! ## Every move -/

theorem continues_visit {s : Stage} {v : Visit} (retries : Nat) (hfits : s.Fits r)
    (hs : s.Undisturbed retries r) (hl : r.lease.hasLapsed t.first = false)
    (hv : s.visit? rules.lease r t = some v) :
    Continues ρ retries past r s (.visit i t) v.record v.next := by
  cases s with
  | requested q =>
      obtain ⟨rfl, hp⟩ := hs
      obtain rfl := Option.some.inj hv
      exact continues_openVote retries hp hl
  | asking k n =>
      obtain ⟨rfl, -, hk, hpoll⟩ := hfits
      obtain rfl := Option.some.inj hv
      obtain ⟨p, hprogress⟩ := Registry.lt_size_iff.mp hk
      have hj : p = .joined := by simpa using hpoll.polledTo hs k p hprogress
      exact continues_ask retries hs hk (hj ▸ hprogress)
  | voteHeard k n vote =>
      obtain ⟨hn, -, hprogress, hpoll⟩ := hfits
      obtain rfl := Option.some.inj hv
      have hk : k < n := hn ▸ Registry.lt_size_of_progress? hprogress
      exact continues_countVote retries hs hn hk hprogress (hpoll.polledTo hs)
  | askingSole =>
      obtain ⟨hsize, hpoll⟩ := hfits
      obtain rfl := Option.some.inj hv
      obtain ⟨p, hprogress⟩ := Registry.lt_size_iff.mp (show 0 < r.registry.size by omega)
      have hj : p = .joined := by simpa using hpoll.polledTo hs 0 p hprogress
      exact continues_askSole retries hs hsize (hj ▸ hprogress)
  | soleHeard vote =>
      obtain ⟨hsize, hprogress, hpoll⟩ := hfits
      obtain rfl := Option.some.inj hv
      exact continues_countSole retries hs hl hsize hprogress (hpoll.polledTo hs)
  | deciding =>
      obtain ⟨-, hpoll⟩ := hfits
      obtain rfl := Option.some.inj hv
      exact continues_decide retries hs hl (hpoll.polledTo hs)
  | rollingForward =>
      obtain rfl := Option.some.inj hv
      exact continues_rollForward retries
  | reporting report =>
      obtain rfl := Option.some.inj hv
      exact continues_file retries
  | abandoning =>
      obtain rfl := Option.some.inj hv
      exact continues_abandon retries
  | awaiting w | unwinding m => exact hs.elim
  | votePending | solePending | commitPending | pausing | abortPending | finished | panicked =>
      cases hv

theorem continues_vote {s s' : Stage} {reply : Reply Vote} (retries : Nat)
    (hs : s.Undisturbed retries r)
    (hgives : ∀ c, s.call? = some c → ρ.Gives past c (.vote i reply))
    (h : s.hearVote reply = some s') : Continues ρ retries past r s (.vote i reply) r s' := by
  cases s <;> simp only [Stage.hearVote, reduceCtorEq] at h
  · rename_i k n p
    obtain rfl : reply = .returned (ρ.vote past k) := hgives _ rfl
    obtain rfl := Option.some.inj h
    exact continues_voteReturns retries hs rfl
  · rename_i p e
    cases e <;> simp only [reduceCtorEq] at h
    obtain rfl : reply = .returned (ρ.vote past 0) := hgives _ rfl
    generalize hvote : ρ.vote past 0 = vote at h
    rcases vote with (_ | _) | error
    · obtain rfl := Option.some.inj h
      exact continues_exchange retries hs hvote
    · obtain rfl := Option.some.inj h
      exact continues_soleReturns retries hs (by simp only [Replies.sole, hvote]) rfl
    · obtain rfl := Option.some.inj h
      exact continues_soleReturns retries hs (by simp only [Replies.sole, hvote]) rfl

theorem continues_combinedVote {s s' : Stage} {reply : Reply CombinedVote} (retries : Nat)
    (hs : s.Undisturbed retries r)
    (hgives : ∀ c, s.call? = some c → ρ.Gives past c (.combinedVote i reply))
    (h : s.hearCombined reply = some s') :
    Continues ρ retries past r s (.combinedVote i reply) r s' := by
  cases s <;> simp only [Stage.hearCombined, reduceCtorEq] at h
  rename_i p e
  cases e <;> simp only [reduceCtorEq] at h
  obtain rfl : reply = .returned (ρ.combined past) := hgives _ rfl
  obtain rfl := Option.some.inj h
  exact continues_soleReturns retries hs rfl rfl

theorem continues_acknowledge {s s' : Stage} {reply : Reply Unit}
    (hs : s.Undisturbed rules.rollForward.maxRetries.toNat r)
    (hgives : ∀ c, s.call? = some c → ρ.Gives past c (.acknowledge i reply))
    (h : s.hearDone rules.rollForward r.id reply = some s') :
    Continues ρ rules.rollForward.maxRetries.toNat past r s (.acknowledge i reply) r s' := by
  cases s with
  | solePending p e =>
      cases e <;> simp only [hearDone, reduceCtorEq] at h
      obtain rfl : reply = .returned (ρ.told past 0 .commit) := hgives _ rfl
      obtain rfl := Option.some.inj h
      have hends : Action.ends (.acknowledge i (.returned (ρ.told past 0 .commit)))
          (.solePending p .committing) =
            [.soleVoted (.returned (ρ.told past 0 .commit).confirmed)] := by
        cases ρ.told past 0 .commit <;> rfl
      have hheard : hearSole (Exchange.afterCommit (.returned (ρ.told past 0 .commit))) =
          .soleHeard (ρ.told past 0 .commit).confirmed := by
        cases ρ.told past 0 .commit <;> rfl
      rw [hheard]
      exact continues_soleReturns _ hs rfl hends
  | commitPending d => exact continues_commitReturns (hgives _ rfl) h
  | abortPending owner claim rest answer =>
      obtain rfl : reply = .returned (ρ.told past claim.position .abort) := hgives _ rfl
      obtain rfl := Option.some.inj h
      exact continues_abortReturns _ rfl
  | _ => cases h

/-- **A move of an undisturbed commit follows the script.** -/
theorem continues {s s' : Stage} {a : Action} (hfits : s.Fits r)
    (hbound : rules.rollForward.maxRetries.toNat + 1 < UInt32.size)
    (hs : s.Undisturbed rules.rollForward.maxRetries.toNat r) (ha : a.InTime r.lease)
    (hgives : ∀ c, s.call? = some c → ρ.Gives past c a) (h : s.go? rules r a = some (r', s')) :
    Continues ρ rules.rollForward.maxRetries.toNat past r s a r' s' := by
  cases a with
  | begin q | giveUp j => cases h
  | visit j t =>
      obtain ⟨v, hv, hv'⟩ := Option.map_eq_some_iff.mp h
      obtain ⟨rfl, rfl⟩ := Prod.mk.inj hv'
      exact continues_visit _ hfits hs ha.1 hv
  | vote j reply =>
      obtain ⟨s', hs', hv'⟩ := Option.map_eq_some_iff.mp h
      obtain ⟨rfl, rfl⟩ := Prod.mk.inj hv'
      exact continues_vote _ hs hgives hs'
  | combinedVote j reply =>
      obtain ⟨s', hs', hv'⟩ := Option.map_eq_some_iff.mp h
      obtain ⟨rfl, rfl⟩ := Prod.mk.inj hv'
      exact continues_combinedVote _ hs hgives hs'
  | acknowledge j reply =>
      obtain ⟨s', hs', hv'⟩ := Option.map_eq_some_iff.mp h
      obtain ⟨rfl, rfl⟩ := Prod.mk.inj hv'
      exact continues_acknowledge hs hgives hs'
  | resume j =>
      obtain ⟨s', hs', hv'⟩ := Option.map_eq_some_iff.mp h
      obtain ⟨rfl, rfl⟩ := Prod.mk.inj hv'
      cases s with
      | pausing d =>
          obtain rfl := Option.some.inj hs'
          exact continues_resume hbound hs
      | _ => cases hs'

/-- No lease has lapsed at the beginning of time. -/
theorem inTime_epoch (l : Lease) : (Action.visit i (.steady .epoch)).InTime l := by
  have hl : l.hasLapsed .epoch = false := by
    unfold Lease.hasLapsed Expiration.hasPassed
    cases l.expiration with
    | never => exact Bool.and_false _
    | «at» last =>
        have hnot : ¬ last < Timestamp.epoch := Nat.not_lt_zero _
        simp [hnot]
  exact ⟨hl, hl, hl⟩

/-- An undisturbed commit can move on until it is finished, whatever the replies are. -/
theorem exists_go (i : Nat) (retries : Nat) {s : Stage} (hs : s.Undisturbed retries r)
    (hover : ∀ answer, s ≠ .finished answer) (past : List Event) :
    ∃ a r' s', a.operation? = some i ∧ a.InTime r.lease ∧
      (∀ c, s.call? = some c → ρ.Gives past c a) ∧ s.go? rules r a = some (r', s') := by
  -- a visit can be made at a time when the lease has not lapsed
  have hvisit : ∀ v, s.visit? rules.lease r (.steady .epoch) = some v → s.call? = none →
      ∃ a r' s', a.operation? = some i ∧ a.InTime r.lease ∧
        (∀ c, s.call? = some c → ρ.Gives past c a) ∧ s.go? rules r a = some (r', s') := by
    intro v hv hcall
    refine ⟨.visit i (.steady .epoch), v.record, v.next, rfl, inTime_epoch _, fun c hc => ?_, ?_⟩
    · rw [hcall] at hc
      cases hc
    · rw [go?, hv, Option.map_some]
  cases s with
  | requested q =>
      obtain ⟨rfl, -⟩ := hs
      exact hvisit _ rfl rfl
  | asking | voteHeard | askingSole | soleHeard | deciding | rollingForward | reporting
  | abandoning => exact hvisit _ rfl rfl
  | votePending k n p =>
      refine ⟨.vote i (.returned (ρ.vote past k)), r, _, rfl, trivial, fun c hc => ?_, rfl⟩
      obtain rfl := Option.some.inj hc
      rfl
  | solePending p e =>
      cases e with
      | combined =>
          refine ⟨.combinedVote i (.returned (ρ.combined past)), r, _, rfl, trivial,
            fun c hc => rfl, rfl⟩
      | voting =>
          have hheard : ∃ s', (Stage.solePending p .voting).hearVote
              (.returned (ρ.vote past 0)) = some s' := by
            unfold hearVote
            cases Exchange.afterVote (.returned (ρ.vote past 0)) <;> exact ⟨_, rfl⟩
          obtain ⟨s', hs'⟩ := hheard
          refine ⟨.vote i (.returned (ρ.vote past 0)), r, s', rfl, trivial, fun c hc => ?_, ?_⟩
          · obtain rfl := Option.some.inj hc
            rfl
          · rw [go?, hs', Option.map_some]
      | committing =>
          refine ⟨.acknowledge i (.returned (ρ.told past 0 .commit)), r, _, rfl, trivial,
            fun c hc => ?_, rfl⟩
          obtain rfl := Option.some.inj hc
          rfl
  | commitPending d =>
      have hheard : ∃ s', (Stage.commitPending d).hearDone rules.rollForward r.id
          (.returned (ρ.told past d.claim.position .commit)) = some s' := by
        unfold hearDone
        rcases ρ.told past d.claim.position .commit with _ | error
        · exact ⟨_, rfl⟩
        · exact (ite_eq_or_eq _ _ _).elim (fun h => ⟨_, h⟩) fun h => ⟨_, h⟩
      obtain ⟨s', hs'⟩ := hheard
      refine ⟨.acknowledge i (.returned (ρ.told past d.claim.position .commit)), r, s', rfl,
        trivial, fun c hc => ?_, ?_⟩
      · obtain rfl := Option.some.inj hc
        rfl
      · rw [go?, hs', Option.map_some]
  | pausing d =>
      refine ⟨.resume i, r, _, rfl, trivial, fun c hc => ?_, rfl⟩
      cases hc
  | abortPending owner claim rest answer =>
      refine ⟨.acknowledge i (.returned (ρ.told past claim.position .abort)), r, _, rfl, trivial,
        fun c hc => ?_, rfl⟩
      obtain rfl := Option.some.inj hc
      rfl
  | finished answer => exact absurd rfl (hover answer)
  | awaiting | unwinding | panicked => exact hs.elim

end Stage

end LeasedCommit
