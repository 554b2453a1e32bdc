import LeasedCommit.Proofs.Sound

set_option autoImplicit false

/-! # Visits with nothing to fall back on

A visit has an answer for everything: a slot that cannot be asked is passed over, a phase that may
not follow is not entered, an abort without a cause counts as requested. `Stage.visitStrictly?` is
the same visit without these answers; where one of them would be needed there is no visit. In every
state of a run both are the same (`Stage.visitStrictly?_eq`), so no operation ever falls back on
anything. What is needed for this is the shape of the record (`Record.Shape`) and what the
operation relies on at its stage (`Stage.Fits`). -/

namespace LeasedCommit

namespace Record

/-! ## Aborting and deciding -/

/-- The abort of a record that may become aborted. -/
def abortStrictly? (r : Record) (cause : AbortCause) (now : Timestamp) : Option Abort := do
  let moved ← r.move? .aborted now
  let (registry, owed) := moved.registry.claimAll .abort
  return { record := { moved with abortCause := some cause, registry := registry }
           counts := .abort cause, wakes := true, owed := owed }

/-- The abort of an undecided record whose lease has lapsed, if it has. -/
def expireStrictly? (r : Record) (t : Readings) : Option (Option Abort) :=
  if r.phase.isTerminal || !r.lease.hasLapsed t.first then some none
  else do
    let abort ← { r with lease := r.lease.markExpired }.abortStrictly? .leaseExpired t.second
    return some abort

/-- The decision that a decided record has taken. -/
def decisionMetStrictly? (r : Record) : Option Decision := do
  let outcome ← r.phase.outcome?
  return { record := r, counts := .zero, wakes := false, outcome := outcome }

def decideAbortStrictly? (r : Record) (cause : AbortCause) (now : Timestamp) : Option Decision :=
  if r.phase = .voting then do
    let moved ← r.move? .aborted now
    return { record := { moved with abortCause := some cause }
             counts := .abort cause, wakes := true, outcome := .aborted }
  else r.decisionMetStrictly?

def decideCommitStrictly? (r : Record) (t : Readings) : Option Decision :=
  if r.phase = .voting then
    if r.lease.hasLapsed t.first then
      { r with lease := r.lease.markExpired }.decideAbortStrictly? .leaseExpired t.second
    else do
      let moved ← r.move? .committed t.first
      return { record := moved, counts := .commit, wakes := true, outcome := .committed }
  else r.decisionMetStrictly?

/-- The refusal of a commit that finds the record aborted, with the cause that is on record. -/
def cannotCommitStrictly? (r : Record) : Option TransactionError := do
  let cause ← r.abortCause
  return .cannotCommit r.id cause

/-- Record the answer to an open question. -/
def resolvedStrictly? (r : Record) (index : Nat) (p : Progress) : Option Record :=
  if r.registry.progress? index = some .preparing then
    some { r with registry := r.registry.setProgress index p }
  else none

/-! ## The visits -/

def joinStrictly? (r : Record) (p : Participant) (t : Readings) : Option Visit := do
  match ← r.expireStrictly? t with
  | some abort => return abort.visit (.refused (.cannotJoin r.id abort.record.phase))
  | none =>
    if r.phase ≠ .active then return r.refuse (.cannotJoin r.id r.phase)
    else
      let (registry, position) ← r.registry.join? p
      return { r with registry := registry }.leave (.finished (.joined position))

def openVoteStrictly? (r : Record) (t : Readings) : Option Visit := do
  match ← r.expireStrictly? t with
  | some abort => return abort.visit (.refused (.cannotCommit r.id .leaseExpired))
  | none =>
    match r.phase with
    | .active =>
      let moved ← r.move? .voting t.second
      return { record := { moved with registry := moved.registry.freeze }, counts := .zero
               wakes := true, next := firstQuestion moved.registry.size }
    | .voting => return r.leave (.awaiting .decision)
    | .committed => return r.refuse (.notModifiable r.id .committed)
    | .aborted => return r.refuse (← r.cannotCommitStrictly?)

def requestAbortStrictly? (r : Record) (t : Readings) : Option Visit :=
  match r.phase with
  | .aborted => some (r.leave (.finished .done))
  | .committed => some (r.refuse (.cannotAbort r.id .committed))
  | .active | .voting =>
    if r.lease.hasLapsed t.first then do
      let abort ← { r with lease := r.lease.markExpired }.abortStrictly? .leaseExpired t.second
      return abort.visit .done
    else do
      let abort ← r.abortStrictly? .requested t.second
      return abort.visit .done

def renewStrictly? (r : Record) (policy : LeasePolicy) (request : LeaseRequest) (t : Readings) :
    Option Visit := do
  match ← r.expireStrictly? t with
  | some abort => return abort.visit (.refused (.unknownLease r.id))
  | none =>
    if r.phase.isTerminal then return r.refuse (.unknownLease r.id)
    else
      -- a lease may be over, so a refusal is no fallback
      match r.lease.renew policy request t.second with
      | (some expiration, lease) =>
        return { r with lease := lease }.leave (.finished (.renewed expiration))
      | (none, lease) => return { r with lease := lease }.refuse (.unknownLease r.id)

def cancelStrictly? (r : Record) (t : Readings) : Option Visit := do
  match ← r.expireStrictly? t with
  | some abort => return abort.visit (.refused (.unknownLease r.id))
  | none =>
    if r.phase.isTerminal then return r.refuse (.unknownLease r.id)
    else
      match r.lease.cancel t.second with
      | (true, lease) =>
        let abort ← { r with lease := lease }.abortStrictly? .leaseCancelled t.third
        return abort.visit .done
      | (false, lease) => return { r with lease := lease }.refuse (.unknownLease r.id)

def requestExpiryStrictly? (r : Record) (t : Readings) : Option Visit := do
  match ← r.expireStrictly? t with
  | some abort => return abort.visit (.expired true)
  | none => return r.leave (.finished (.expired false))

def askSoleStrictly? (r : Record) : Option Visit :=
  if r.phase ≠ .voting then some (r.leave .abandoning)
  else do
    let (registry, p) ← r.registry.ask? 0
    return { r with registry := registry }.leave (.solePending p (Exchange.first p))

def askSlotStrictly? (r : Record) (index count : Nat) : Option Visit :=
  if r.phase ≠ .voting then some (r.leave .abandoning)
  else do
    let (registry, p) ← r.registry.ask? index
    return { r with registry := registry }.leave (.votePending index count p)

/-- Count an answer that does not lead to a commit. -/
def countRefusalStrictly? (r : Record) (index : Nat) (p : Progress) (cause : AbortCause)
    (now : Timestamp) : Option Visit := do
  let record ← r.resolvedStrictly? index p
  let decision ← record.decideAbortStrictly? cause now
  return decision.visit

def countSoleStrictly? (r : Record) (vote : Response CombinedVote) (t : Readings) :
    Option Visit :=
  match vote with
  | .answered .committed => do
    let decision ← r.decideCommitStrictly? t
    let progress : Progress :=
      match decision.outcome with
      | .committed => .settled .committedInPrepare
      | .aborted => .prepared
    let record ← decision.record.resolvedStrictly? 0 progress
    return { decision with record := record }.visit
  | .answered .abort =>
    r.countRefusalStrictly? 0 (.settled .selfAborted) (.votedAbort 0) t.first
  | .failed error => r.countRefusalStrictly? 0 .unresolved (.prepareFailed 0 error) t.first

def countVoteStrictly? (r : Record) (index count : Nat) (vote : Response Vote) (t : Readings) :
    Option Visit :=
  match vote with
  | .answered .prepared => do
    let record ← r.resolvedStrictly? index .prepared
    return record.leave (.ask (index + 1) count)
  | .answered .abort =>
    r.countRefusalStrictly? index (.settled .selfAborted) (.votedAbort index) t.first
  | .failed error =>
    r.countRefusalStrictly? index .unresolved (.prepareFailed index error) t.first

def abandonStrictly? (r : Record) : Option Visit := do
  let (registry, owed) := r.registry.claimAll .abort
  let refusal ← r.cannotCommitStrictly?
  return { r with registry := registry }.leave (.deliverAborts true owed (.refused refusal))

/-- Settle a record whose vote or roll-forward broke off. A commit that is reported cannot break
off any more. -/
def settleInterruptedStrictly? (r : Record) (message : String) (t : Readings) : Option Visit :=
  match r.phase, r.report with
  | .voting, _ => do
    let moved ← r.move? .aborted t.first
    return { record := { moved with abortCause := some .interrupted }
             counts := .abort .interrupted, wakes := true, next := .panicked message }
  | .committed, none => some (r.settleInterrupted message t)
  | .aborted, _ => some (r.leave (.panicked message))
  | _, _ => none

end Record

/-- What a commit or a wait answers once it is over. -/
def Wait.answerStrictly? (w : Wait) (r : Record) : Option Answer :=
  match w with
  | .decision =>
    match r.phase, r.report with
    | .committed, some report => some (.committed report)
    | .aborted, _ => r.cannotCommitStrictly?.map Answer.refused
    | _, _ => none
  | .phase _ => some (.reached r.phase)

def Wait.lookStrictly? (w : Wait) (r : Record) : Option Visit :=
  if w.isOver r then do
    let answer ← w.answerStrictly? r
    return r.leave (.finished answer)
  else some (r.leave (.awaiting w))

/-- The next visit of an operation, unless it would have to fall back on something. -/
def Stage.visitStrictly? (policy : LeasePolicy) (r : Record) (t : Readings) :
    Stage → Option Visit
  | .requested (.join p) => r.joinStrictly? p t
  | .requested .commit => r.openVoteStrictly? t
  | .requested .abort => r.requestAbortStrictly? t
  | .requested (.renew request) => r.renewStrictly? policy request t
  | .requested .cancel => r.cancelStrictly? t
  | .requested .expire => r.requestExpiryStrictly? t
  | .requested (.awaitPhase target) => Wait.lookStrictly? (.phase target) r
  | .awaiting w => w.lookStrictly? r
  | .asking index count => r.askSlotStrictly? index count
  | .voteHeard index count vote => r.countVoteStrictly? index count vote t
  | .askingSole => r.askSoleStrictly?
  | .soleHeard vote => r.countSoleStrictly? vote t
  | .deciding => (r.decideCommitStrictly? t).map Record.Decision.visit
  | .rollingForward => some r.rollForward
  | .reporting report => some (r.file report)
  | .abandoning => r.abandonStrictly?
  | .unwinding message => r.settleInterruptedStrictly? message t
  | .votePending .. | .solePending .. | .commitPending _ | .pausing _ | .abortPending ..
  | .finished _ | .panicked _ => none

variable {r : Record} {t : Readings}

namespace Record

/-! ## Nothing is missing -/

theorem move?_eq {next : Phase} (h : r.phase.canBecome next = true) (now : Timestamp) :
    r.move? next now = some (r.moved next now) := by
  unfold moved move?
  rw [h]
  cases next.isTerminal <;> rfl

/-- An undecided record can be aborted. -/
theorem canBecome_aborted (h : r.phase.isTerminal = false) : r.phase.canBecome .aborted = true := by
  cases hp : r.phase with
  | active | voting => rfl
  | committed | aborted =>
      rw [hp] at h
      cases h

theorem abortStrictly?_eq (h : r.phase.isTerminal = false) (cause : AbortCause)
    (now : Timestamp) : r.abortStrictly? cause now = some (r.abortFor cause now) := by
  unfold abortStrictly? abortFor
  rw [move?_eq (canBecome_aborted h)]
  rfl

/-- Only an undecided record is aborted for its lease, so the abort does not fail. -/
theorem expireStrictly?_eq (r : Record) (t : Readings) :
    r.expireStrictly? t = some (r.expire? t) := by
  unfold expireStrictly? expire?
  split
  · rfl
  · rename_i hlapsed
    rw [Bool.or_eq_true, not_or, Bool.not_eq_true] at hlapsed
    rw [abortStrictly?_eq (r := { r with lease := r.lease.markExpired }) hlapsed.1]
    rfl

theorem decisionMetStrictly?_eq (h : r.phase.isTerminal = true) :
    r.decisionMetStrictly? = some r.decisionMet := by
  unfold decisionMetStrictly? decisionMet
  cases hp : r.phase with
  | committed | aborted => rfl
  | active | voting =>
      rw [hp] at h
      cases h

/-- A record that has left `active` and is not voting is decided. -/
theorem isTerminal_of_ne (ha : r.phase ≠ .active) (hv : r.phase ≠ .voting) :
    r.phase.isTerminal = true := by
  cases hp : r.phase with
  | active => exact absurd hp ha
  | voting => exact absurd hp hv
  | committed | aborted => rfl

theorem decideAbortStrictly?_eq (h : r.phase ≠ .active) (cause : AbortCause) (now : Timestamp) :
    r.decideAbortStrictly? cause now = some (r.decideAbort cause now) := by
  unfold decideAbortStrictly? decideAbort
  split
  · rename_i hv
    rw [move?_eq (by rw [hv]; rfl)]
    rfl
  · rename_i hv
    exact decisionMetStrictly?_eq (isTerminal_of_ne h hv)

theorem decideCommitStrictly?_eq (h : r.phase ≠ .active) (t : Readings) :
    r.decideCommitStrictly? t = some (r.decideCommit t) := by
  unfold decideCommitStrictly? decideCommit
  split
  · rename_i hv
    split
    · exact decideAbortStrictly?_eq (r := { r with lease := r.lease.markExpired }) h _ _
    · rw [move?_eq (by rw [hv]; rfl)]
      rfl
  · rename_i hv
    exact decisionMetStrictly?_eq (isTerminal_of_ne h hv)

theorem cannotCommitStrictly?_eq (h : r.Shape) (hp : r.phase = .aborted) :
    r.cannotCommitStrictly? = some r.cannotCommit := by
  obtain ⟨cause, hcause⟩ := Option.isSome_iff_exists.mp (h.cause.mpr hp)
  unfold cannotCommitStrictly? cannotCommit statedCause
  rw [hcause]
  rfl

/-- While the vote is open, the slot that is next in it can be asked. -/
theorem Polls.exists_ask {k : Nat} (h : r.Polls k .joined) (hv : r.phase = .voting)
    (hk : k < r.registry.size) : ∃ asked, r.registry.ask? k = some asked := by
  have hjoined := Registry.PolledTo.joined (h.polledTo hv) hk
  obtain ⟨p, hask⟩ := Registry.ask?_of_joined hjoined
  exact ⟨_, hask⟩

theorem resolvedStrictly?_eq {k : Nat} (h : r.registry.progress? k = some .preparing)
    (p : Progress) : r.resolvedStrictly? k p = some (r.resolved k p) := by
  unfold resolvedStrictly? resolved
  rw [if_pos h, Registry.resolve_of_preparing h]

/-- A decision leaves all slots as they are. -/
theorem progress?_decideCommit (r : Record) (t : Readings) (k : Nat) :
    (r.decideCommit t).record.registry.progress? k = r.registry.progress? k := by
  by_cases hv : r.phase = .voting
  · by_cases hl : r.lease.hasLapsed t.first
    · rw [decideCommit_lapsed hv hl]
      rfl
    · rw [Bool.not_eq_true] at hl
      rw [decideCommit_valid hv hl]
      rfl
  · unfold decideCommit
    rw [if_neg hv]
    rfl

/-! ## The strict visits are the visits -/

theorem joinStrictly?_eq (h : r.Shape) (p : Participant) :
    r.joinStrictly? p t = some (r.join p t) := by
  unfold joinStrictly? join
  rw [expireStrictly?_eq]
  cases r.expire? t with
  | some abort => rfl
  | none =>
      by_cases hp : r.phase = .active
      · rw [Registry.join?_eq, h.open_of_active hp]
        simp [hp]
      · simp [hp]

theorem openVoteStrictly?_eq (h : r.Shape) : r.openVoteStrictly? t = some (r.openVote t) := by
  unfold openVoteStrictly? openVote
  rw [expireStrictly?_eq]
  cases r.expire? t with
  | some abort => rfl
  | none =>
      cases hp : r.phase with
      | active =>
          have hmove : r.move? .voting t.second = some (r.moved .voting t.second) :=
            move?_eq (by rw [hp]; rfl) t.second
          simp only [Option.bind_eq_bind, Option.bind_some, hmove, Option.pure_def]
      | voting | committed => rfl
      | aborted =>
          simp only [Option.bind_eq_bind, Option.bind_some, cannotCommitStrictly?_eq h hp,
            Option.pure_def]

theorem requestAbortStrictly?_eq (r : Record) (t : Readings) :
    r.requestAbortStrictly? t = some (r.abort t) := by
  unfold requestAbortStrictly? abort
  cases hp : r.phase with
  | aborted | committed => rfl
  | active | voting =>
      have hu : r.phase.isTerminal = false := by
        rw [hp]
        rfl
      by_cases hl : r.lease.hasLapsed t.first
      · simp only [hl, if_true]
        rfl
      · simp only [hl, abortStrictly?_eq hu]
        rfl

theorem renewStrictly?_eq (r : Record) (policy : LeasePolicy) (request : LeaseRequest)
    (t : Readings) : r.renewStrictly? policy request t = some (r.renew policy request t) := by
  unfold renewStrictly? renew
  rw [expireStrictly?_eq]
  cases r.expire? t with
  | some abort => rfl
  | none =>
      cases r.phase.isTerminal with
      | true => rfl
      | false =>
          rcases r.lease.renew policy request t.second with ⟨_ | expiration, lease⟩ <;> rfl

theorem cancelStrictly?_eq (r : Record) (t : Readings) :
    r.cancelStrictly? t = some (r.cancel t) := by
  unfold cancelStrictly? cancel
  rw [expireStrictly?_eq]
  cases r.expire? t with
  | some abort => rfl
  | none =>
      cases hu : r.phase.isTerminal with
      | true => rfl
      | false =>
          rcases r.lease.cancel t.second with ⟨_ | _, lease⟩
          · rfl
          · simp only [abortStrictly?_eq (r := { r with lease := lease }) hu]
            rfl

theorem requestExpiryStrictly?_eq (r : Record) (t : Readings) :
    r.requestExpiryStrictly? t = some (r.expire t) := by
  unfold requestExpiryStrictly? expire
  rw [expireStrictly?_eq]
  cases r.expire? t <;> rfl

theorem askSlotStrictly?_eq {k n : Nat} (h : (Stage.asking k n).Fits r) :
    r.askSlotStrictly? k n = some (r.askSlot k n) := by
  obtain ⟨rfl, -, hk, hpoll⟩ := h
  unfold askSlotStrictly? askSlot
  by_cases hv : r.phase = .voting
  · obtain ⟨asked, hask⟩ := hpoll.exists_ask hv hk
    rw [if_neg (not_not_intro hv), if_neg (not_not_intro hv), hask]
    rfl
  · rw [if_pos hv, if_pos hv]

theorem askSoleStrictly?_eq (h : Stage.askingSole.Fits r) (t : Readings) :
    r.askSoleStrictly? = some (r.askSole t) := by
  obtain ⟨hsize, hpoll⟩ := h
  unfold askSoleStrictly? askSole
  by_cases hv : r.phase = .voting
  · obtain ⟨asked, hask⟩ := hpoll.exists_ask hv (by omega)
    rw [if_neg (not_not_intro hv), if_neg (not_not_intro hv), hask]
    rfl
  · rw [if_pos hv, if_pos hv]

/-- An answer is counted at the slot whose question is open. -/
theorem countRefusalStrictly?_eq {k : Nat} (ha : r.phase ≠ .active)
    (hk : r.registry.progress? k = some .preparing) (p : Progress) (cause : AbortCause)
    (now : Timestamp) :
    r.countRefusalStrictly? k p cause now =
      some ((r.resolved k p).decideAbort cause now).visit := by
  unfold countRefusalStrictly?
  rw [resolvedStrictly?_eq hk, Option.bind_eq_bind, Option.bind_some,
    decideAbortStrictly?_eq (r := r.resolved k p) ha]
  rfl

theorem countVoteStrictly?_eq {k n : Nat} {vote : Response Vote}
    (h : (Stage.voteHeard k n vote).Fits r) :
    r.countVoteStrictly? k n vote t = some (r.countVote k n vote t) := by
  have ha : r.phase ≠ .active := h.ne_active rfl
  obtain ⟨-, -, hk, -⟩ := h
  cases vote with
  | answered vote =>
      cases vote with
      | prepared =>
          unfold countVoteStrictly?
          simp only [resolvedStrictly?_eq hk]
          rfl
      | abort => exact countRefusalStrictly?_eq ha hk _ _ _
  | failed error => exact countRefusalStrictly?_eq ha hk _ _ _

theorem countSoleStrictly?_eq {vote : Response CombinedVote} (h : (Stage.soleHeard vote).Fits r) :
    r.countSoleStrictly? vote t = some (r.countSole vote t) := by
  have ha : r.phase ≠ .active := h.ne_active rfl
  obtain ⟨-, hk, -⟩ := h
  cases vote with
  | answered vote =>
      cases vote with
      | committed =>
          have hdecided : (r.decideCommit t).record.registry.progress? 0 = some .preparing := by
            rw [progress?_decideCommit, hk]
          unfold countSoleStrictly?
          simp only [decideCommitStrictly?_eq ha, Option.bind_eq_bind, Option.bind_some,
            resolvedStrictly?_eq hdecided]
          rfl
      | abort => exact countRefusalStrictly?_eq ha hk _ _ _
  | failed error => exact countRefusalStrictly?_eq ha hk _ _ _

theorem abandonStrictly?_eq (h : r.Shape) (hp : r.phase = .aborted) :
    r.abandonStrictly? = some r.abandon := by
  unfold abandonStrictly?
  simp only [cannotCommitStrictly?_eq h hp, Option.bind_eq_bind, Option.bind_some]
  rfl

theorem settleInterruptedStrictly?_eq {m : String} (h : (Stage.unwinding m).Fits r) :
    r.settleInterruptedStrictly? m t = some (r.settleInterrupted m t) := by
  unfold settleInterruptedStrictly?
  rcases h with ⟨k, hp | ⟨hp, -⟩⟩ | ⟨hp, hreport⟩
  · rw [settleInterrupted_aborted hp]
    simp only [hp]
  · have hmove : r.move? .aborted t.first = some (r.moved .aborted t.first) :=
      move?_eq (by rw [hp]; rfl) t.first
    simp only [hp, hmove, settleInterrupted]
    rfl
  · simp only [hp, hreport]

end Record

/-- Whoever has waited to the end finds the report or the cause. -/
theorem Wait.answerStrictly?_eq {w : Wait} (h : r.Shape) (hw : w.isOver r = true) :
    w.answerStrictly? r = some (w.answer r) := by
  cases w with
  | phase target => rfl
  | decision =>
      simp only [isOver, Bool.or_eq_true, beq_iff_eq, Option.isSome_iff_exists] at hw
      rcases hw with hp | ⟨report, hreport⟩
      · have hnone := h.report_eq_none (by rw [hp]; decide)
        simp only [answerStrictly?, answer, hp, hnone, Record.cannotCommitStrictly?_eq h hp,
          Option.map_some]
      · have hp := (h.report report hreport).1
        simp only [answerStrictly?, answer, hp, hreport]

theorem Wait.lookStrictly?_eq (w : Wait) (h : r.Shape) : w.lookStrictly? r = some (w.look r) := by
  unfold lookStrictly? look
  by_cases hw : w.isOver r = true
  · rw [if_pos hw, if_pos hw, answerStrictly?_eq h hw]
    rfl
  · rw [if_neg hw, if_neg hw]

/-- **No visit falls back on anything**, as long as the record has its shape and the operation fits
its stage. -/
theorem Stage.visitStrictly?_eq {s : Stage} (hr : r.Shape) (hs : s.Fits r) (policy : LeasePolicy)
    (t : Readings) : s.visitStrictly? policy r t = s.visit? policy r t := by
  cases s with
  | requested q =>
      cases q with
      | join p => exact Record.joinStrictly?_eq hr p
      | commit => exact Record.openVoteStrictly?_eq hr
      | abort => exact Record.requestAbortStrictly?_eq r t
      | renew request => exact Record.renewStrictly?_eq r policy request t
      | cancel => exact Record.cancelStrictly?_eq r t
      | expire => exact Record.requestExpiryStrictly?_eq r t
      | awaitPhase target => exact Wait.lookStrictly?_eq _ hr
  | awaiting w => exact Wait.lookStrictly?_eq w hr
  | asking k n => exact Record.askSlotStrictly?_eq hs
  | voteHeard k n vote => exact Record.countVoteStrictly?_eq hs
  | askingSole => exact Record.askSoleStrictly?_eq hs t
  | soleHeard vote => exact Record.countSoleStrictly?_eq hs
  | deciding =>
      have hdecision := Record.decideCommitStrictly?_eq (hs.ne_active rfl) t
      exact congrArg (Option.map Record.Decision.visit) hdecision
  | abandoning => exact Record.abandonStrictly?_eq hr hs
  | unwinding m => exact Record.settleInterruptedStrictly?_eq hs
  | _ => rfl

/-! ## In every run -/

/-- **The record keeps its shape, and nobody falls back on anything.** However the operations on a
new record interleave, whatever the participants answer and whatever the clock shows, in every state
between two visits:

* cause, time of the decision, report, registry and slots fit the phase (`Record.Shape`);
* an active record is open for every join;
* while the vote is open, a slot that an operation is about to ask can be asked;
* an undecided record can be aborted;
* an aborted record has the cause that is stated for it;
* no operation comes to a visit in which it would have to fall back on anything. -/
theorem record_shape_kept {rules : Rules} {id : TransactionId} {request : LeaseRequest}
    {now : Timestamp} {turns : List Turn} {x : Transaction}
    (h : Run rules (Transaction.opened rules.lease id request now) turns x) :
    x.record.Shape ∧
    (x.record.phase = .active → ∀ p, (x.record.registry.join? p).isSome = true) ∧
    (x.record.phase = .voting → ∀ i,
      (∀ k n, x.stage? i = some (.asking k n) → (x.record.registry.ask? k).isSome = true) ∧
      (x.stage? i = some .askingSole → (x.record.registry.ask? 0).isSome = true)) ∧
    (x.record.phase.isTerminal = false → ∀ time, (x.record.move? .aborted time).isSome = true) ∧
    (x.record.phase = .aborted → x.record.abortCause = some x.record.statedCause) ∧
    ∀ i s t, x.stage? i = some s →
      s.visitStrictly? rules.lease x.record t = s.visit? rules.lease x.record t := by
  have hx := h.sound (Transaction.sound_opened rules.lease id request now)
  refine ⟨hx.shape, fun hp p => ?_, fun hv i => ⟨fun k n hs => ?_, fun hs => ?_⟩,
    fun hu time => ?_, fun hp => ?_, fun i s t hs => ?_⟩
  · rw [Registry.join?_eq, hx.shape.open_of_active hp]
    rfl
  · obtain ⟨rfl, -, hk, hpoll⟩ := hx.fits i _ hs
    exact Option.isSome_iff_exists.mpr (hpoll.exists_ask hv hk)
  · obtain ⟨hsize, hpoll⟩ := hx.fits i _ hs
    exact Option.isSome_iff_exists.mpr (hpoll.exists_ask hv (by omega))
  · rw [Record.move?_eq (Record.canBecome_aborted hu)]
    rfl
  · obtain ⟨cause, hcause⟩ := Option.isSome_iff_exists.mp (hx.shape.cause.mpr hp)
    rw [Record.statedCause, hcause]
    rfl
  · exact Stage.visitStrictly?_eq hx.shape (hx.fits i s hs) rules.lease t

/-- Two parties, of which the first is being asked when the transaction is aborted. The vote that
comes in late finds the question open, and is counted without any fallback. -/
theorem record_shape_kept_late_vote :
    ∃ turns x,
      Run { lease := .standard, rollForward := .standard }
        (Transaction.opened .standard ⟨1⟩ .forever .epoch) turns x ∧
      x.record.phase = .aborted ∧ x.record.abortCause = some .requested ∧
      x.record.registry.progress? 0 = some .preparing ∧
      x.record.registry.progress? 1 = some (.settled .abort) ∧ x.record.registry.Uncommitted ∧
      x.stage? 2 = some (.voteHeard 0 2 (.answered .prepared)) ∧
      ∀ t, ((Stage.voteHeard 0 2 (.answered .prepared)).visitStrictly? .standard x.record
        t).isSome = true := by
  have hrun : Run { lease := .standard, rollForward := .standard }
      (Transaction.opened .standard ⟨1⟩ .forever .epoch) _ _ :=
    Run.of_play [.begin (.join { key := 0, combines := false }), .visit 0 (.steady .epoch),
      .begin (.join { key := 1, combines := false }), .visit 1 (.steady .epoch), .begin .commit,
      .visit 2 (.steady .epoch), .visit 2 (.steady .epoch), .begin .abort,
      .visit 3 (.steady .epoch), .vote 2 (.returned (.answered .prepared))] rfl
  obtain ⟨hshape, -, -, -, hcause, hstrict⟩ := record_shape_kept hrun
  refine ⟨_, _, hrun, rfl, hcause rfl, rfl, rfl, hshape.aborted rfl, rfl, fun t => ?_⟩
  exact congrArg Option.isSome (hstrict 2 _ t rfl)

end LeasedCommit
